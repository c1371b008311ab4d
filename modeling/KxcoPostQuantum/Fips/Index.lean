/-
index.js: the module's state machine. Start-up, the error state, and the
calls a program makes.

# State

The module-level variables are the fields of `Module`. `services` holds
only whether the service table is there: the services themselves are the
functions of `Module.lean`, and what they share is in the world.

# Steps

`boot` is what importing the module does: the known answers that the
integrity test rests on, that test, and the start of the services, which
runs the others; any throw on the way leads to the error state with its
reason. A `Request` is a call a program makes: a service, the state, or
the self-tests again. Outside the operational state services and
self-tests are refused. A service that throws a fatal error takes the
module to the error state, and so does a self-test that fails at all; no
request leads out of it.
-/
import KxcoPostQuantum.Fips.Module

namespace KxcoPostQuantum.Fips

open Lib (Eff)

-- ============================================================== state

def MODULE_NAME : JsString := js "kxco-post-quantum/fips"

def CAVEAT : JsString :=
  js "No assurance of the minimum strength of generated SSPs (e.g., keys)."

/-- The values of `state`. -/
inductive ModuleState
  | selfTest
  | operational
  | error
  deriving DecidableEq

/-- `${state}`. -/
def ModuleState.text : ModuleState → JsString
  | selfTest => js "self-test"
  | operational => js "operational"
  | error => js "error"

/-- The variables of the module. -/
structure Module where
  state : ModuleState := .selfTest
  reason : Option JsString := none
  version : JsVal := .null
  /-- `services` is not `null`. -/
  services : Bool := false
  world : World := {}

/-- A computation of index.js. -/
abbrev Act (α : Type) : Type := Eff Module JsError α

/-- A computation of the services, on the module's world. -/
def lift {α : Type} (p : Proc α) : Act α := fun m =>
  ((p.run m.world).1, { m with world := (p.run m.world).2 })

/-- `${reason}`. -/
def reasonText (m : Module) : JsString := m.reason.getD (js "null")

-- ======================================================== error state

/-- `if (services) { try { services.destroy() } catch {}; services =
null }`. -/
def dropServices : Act Unit := do
  if (← Eff.get).services then do
    tryCatch (lift destroy) fun _ => pure ()
    Eff.modify fun m => { m with services := false }
  else pure ()

/-- `enterError(err)`. -/
def enterError (err : JsError) : Act Unit := do
  Eff.modify fun m =>
    { m with state := .error, reason := some err.message }
  dropServices

def ERR_KXCO_PQ_FIPS : JsString := js "ERR_KXCO_PQ_FIPS"

/-- `fipsError(message)`. -/
def fipsError (message : JsString) : JsError :=
  { name := .error, message, code := some ERR_KXCO_PQ_FIPS }

/-- `enterError(err)` and the error that says so. -/
def enterErrorAndThrow {α : Type} (err : JsError) : Act α := do
  enterError err
  let m ← Eff.get
  throw (fipsError (MODULE_NAME ++ js " entered the error state: "
    ++ reasonText m))

/-- `services[name](...args)`. -/
def onServices {α : Type} (service : Proc α) : Act α := do
  if (← Eff.get).services then lift service
  else throw (typeError (js "Cannot read properties of null"))

/-- `call(name, args)`. -/
def call (service : Proc Output) : Act Output := do
  let m ← Eff.get
  if m.state ≠ .operational then
    throw (fipsError (MODULE_NAME ++ js " is in the " ++ m.state.text
      ++ js " state and offers no cryptographic service: "
      ++ reasonText m))
  else
    tryCatch (onServices service) fun err =>
      if err.fatal then enterErrorAndThrow err else throw err

-- =========================================================== start-up

variable (rt : Runtime) (env : Env)

/-- `integrityTest()`. -/
def integrityTest : Act JsVal :=
  lift (askLogged .integrity env.integrityTest)

/-- `v ?? null`. -/
def orNull : JsVal → JsVal
  | .undefined => .null
  | v => v

/-- The body of the start-up `try`. -/
def startUp : Act Unit := do
  if !env.fileUrl then
    throw (error (js "the module must be loaded from a local file"))
  else do
    lift (runIntegrityCasts env)
    let manifest ← integrityTest env
    let version ← Eff.ofExcept (manifest.get (js "version"))
    Eff.modify fun m => { m with version := orNull version }
    lift (ask env.importModule)
    lift (start env)
    Eff.modify fun m => { m with services := true }
    Eff.modify fun m => { m with state := .operational }

/-- Start-up: import never fails. -/
def boot : Act Unit := tryCatch (startUp env) enterError

-- ============================================================== calls

/-- What `status()` returns. -/
structure Status where
  module : JsString
  version : JsVal
  state : ModuleState
  /-- Absent unless truthy. -/
  reason : Option JsString
  caveat : JsString
  algorithms : List JsString

/-- `status()`. -/
def status : Act Status := do
  let m ← Eff.get
  return {
    module := MODULE_NAME
    version := m.version
    state := m.state
    reason := m.reason.filter fun r => r ≠ []
    caveat := CAVEAT
    algorithms := ALGORITHMS }

/-- `selfTest()`. -/
def selfTest : Act Status := do
  let m ← Eff.get
  if m.state ≠ .operational then
    throw (fipsError (MODULE_NAME ++ js " is in the " ++ m.state.text
      ++ js " state: " ++ reasonText m))
  else do
    tryCatch (do
      lift (runIntegrityCasts env)
      let _ ← integrityTest env
      onServices (runCasts env)) enterErrorAndThrow
    status

/-- A call a program makes, with any arguments. -/
inductive Request
  | generateKeypair (alg : JsVal)
  | keypairFromSeed (alg seed : JsVal)
  | encapsulate (alg publicKey : JsVal)
  | decapsulate (alg cipherText secretKey : JsVal)
  | sign (alg secretKey message opts : JsVal)
  | verify (alg publicKey message signature opts : JsVal)
  | selfTest
  | status

/-- What a call returns. -/
inductive Response
  | output (o : Output)
  | status (s : Status)

namespace Request

/-- The service a request is for, if it is for one. -/
def service? : Request → Option (Proc Output)
  | generateKeypair alg => some (Fips.generateKeypair rt env alg)
  | keypairFromSeed alg seed => some (Fips.keypairFromSeed rt env alg seed)
  | encapsulate alg publicKey =>
      some (Fips.encapsulate rt env alg publicKey)
  | decapsulate alg cipherText secretKey =>
      some (Fips.decapsulate rt env alg cipherText secretKey)
  | sign alg secretKey message opts =>
      some (Fips.sign rt env alg secretKey message opts)
  | verify alg publicKey message signature opts =>
      some (Fips.verify rt env alg publicKey message signature opts)
  | selfTest | status => none

/-- The call made. -/
def run (r : Request) : Act Response :=
  match r.service? rt env, r with
  | some p, _ => .output <$> call p
  | none, selfTest => .status <$> Fips.selfTest env
  | none, _ => .status <$> Fips.status

end Request

/-- A new process has no trace and no state. -/
def booted : Module := ((boot env).run {}).2

end KxcoPostQuantum.Fips
