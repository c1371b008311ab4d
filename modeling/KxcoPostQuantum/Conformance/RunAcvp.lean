/-
conformance/run-acvp.mjs: an ACVP prompt graded against the expected
results.

A case is graded by what the runner tells its tally. Unlike the
responder's, a signing surface that cannot be had is a reason to skip the
case, and outside key generation a throw is a failure of the case.

# What is compared

A signature is compared as hex, a verdict as a boolean, a key half by
half. A throw of `verify` counts as the verdict false, so a case that
expects a rejection passes by it. The texts of failures are kept, as they
are what the run prints.

# The internal surface

`signerFor` passes `externalMu` only where the group has the option.
-/
import KxcoPostQuantum.Conformance.Responders

namespace KxcoPostQuantum.Conformance

namespace RunAcvp

-- ============================================================= tally

/-- What is tallied of a case. -/
inductive Verdict
  | passed
  | failed (detail : JsString)
  | skipped (reason : JsString)
  deriving DecidableEq

/-- `threw: ${err.message}`. -/
def threw (err : JsError) : Verdict :=
  .failed (js "threw: " ++ err.message)

-- ========================================================= signatures

/-- The signing surface of a case and its options, or the reason there is
none. -/
def signerFor (alg : SignatureAlg) (g : TestGroup) (t : TestCase) :
    Except JsString (Signer × SignerOptions) :=
  if g.isInternal then
    match alg.internal with
    | none => .error (js "backend exposes no internal interface")
    | some signer =>
        .ok (signer, if g.externalMu.isSome then
          { externalMu := some (g.externalMu = some true) } else {})
  else if g.preHash = some (js "preHash") then
    match (hashName g t).bind fun name => HASHES.lookup name with
    | none =>
        .error (js "unsupported pre-hash " ++ nameText (hashName g t))
    | some hash =>
        match alg.prehash hash with
        | .ok signer => .ok (signer, {})
        | .error err =>
            .error (nameText (hashName g t) ++ js " refused for "
              ++ g.parameterSet ++ js ": " ++ err.message)
  else .ok (alg.toSigner, {})

/-- A case of `runSigGen`. -/
def runSigGen (rndField : JsString) (alg : SignatureAlg) (g : TestGroup)
    (t : TestCase) (exp : Answer) : Except JsError Verdict :=
  match signerFor alg g t with
  | .error reason => .ok (.skipped reason)
  | .ok (signer, extraOpts) =>
      let opts := withEntropy g t rndField (withContext g t extraOpts)
      match signer.sign (messageOf g t) (bytes (t.get (js "sk"))) opts with
      | .error err => .ok (threw err)
      | .ok sig =>
          .ok (if some (hex sig) ≠ exp.signature then
            .failed (js "signature mismatch") else .passed)

/-- `${b}` of a boolean. -/
def boolText (b : Bool) : JsString := if b then js "true" else js "false"

/-- `${exp.testPassed}`. -/
def expectedText (exp : Answer) : JsString :=
  exp.testPassed.elim (js "undefined") boolText

/-- A case of `runSigVer`. -/
def runSigVer (alg : SignatureAlg) (g : TestGroup) (t : TestCase)
    (exp : Answer) : Except JsError Verdict :=
  match signerFor alg g t with
  | .error reason => .ok (.skipped reason)
  | .ok (signer, extraOpts) =>
      let opts := withContext g t extraOpts
      match signer.verify (bytes (t.get (js "signature"))) (messageOf g t)
        (bytes (t.get (js "pk"))) opts with
      | .ok ok =>
          .ok (if some ok = exp.testPassed then .passed
            else .failed (js "verify returned " ++ boolText ok
              ++ js ", expected " ++ expectedText exp))
      | .error err =>
          .ok (if some false = exp.testPassed then .passed
            else .failed (js "verify threw " ++ constructorName err.name
              ++ js ": " ++ err.message ++ js ", expected "
              ++ expectedText exp))

-- =============================================================== keys

/-- The two halves of a key against the expected ones. -/
def gradeKeys (first second : JsString) (k : Keys)
    (exp exp' : Option JsString) : Verdict :=
  if some (hex k.publicKey) ≠ exp then .failed (first ++ js " mismatch")
  else if some (hex k.secretKey) ≠ exp' then
    .failed (second ++ js " mismatch")
  else .passed

/-- A case of `runMlKemKeyGen`. -/
def runMlKemKeyGen (alg : Kem) (_ : TestGroup) (t : TestCase)
    (exp : Answer) : Except JsError Verdict := do
  let k ← alg.keygen (bytes (t.get (js "d")) ++ bytes (t.get (js "z")))
  return gradeKeys (js "ek") (js "dk") k exp.ek exp.dk

/-- A case of `runMlDsaKeyGen`. -/
def runMlDsaKeyGen (alg : SignatureAlg) (_ : TestGroup) (t : TestCase)
    (exp : Answer) : Except JsError Verdict := do
  let k ← alg.keygen (bytes (t.get (js "seed")))
  return gradeKeys (js "pk") (js "sk") k exp.pk exp.sk

/-- A case of `runSlhKeyGen`. -/
def runSlhKeyGen (alg : SignatureAlg) (_ : TestGroup) (t : TestCase)
    (exp : Answer) : Except JsError Verdict := do
  let seed := bytes (t.get (js "skSeed")) ++ bytes (t.get (js "skPrf"))
    ++ bytes (t.get (js "pkSeed"))
  let k ← alg.keygen seed
  return gradeKeys (js "pk") (js "sk") k exp.pk exp.sk

/-- An input check against the expected verdict. -/
def gradeCheck {α : Type} (call : Except JsError α) (exp : Answer) :
    Verdict :=
  let accepted := match call with
    | .ok _ => true
    | .error _ => false
  if some accepted = exp.testPassed then .passed
  else .failed (js "key check accepted=" ++ boolText accepted
    ++ js ", expected " ++ expectedText exp)

/-- A case of `runMlKemEncapDecap`, inside its `try`. -/
def encapDecap (alg : Kem) (g : TestGroup) (t : TestCase) (exp : Answer) :
    Except JsError Verdict := do
  if g.function = some (js "encapsulation") then
    let r ← alg.encapsulate (bytes (t.get (js "ek")))
      (some (bytes (t.get (js "m"))))
    let ct ← hexOf (r.cipherText.or r.ciphertext)
    return if some ct ≠ exp.c then .failed (js "ciphertext mismatch")
      else if some (hex r.sharedSecret) ≠ exp.k then
        .failed (js "shared secret mismatch")
      else .passed
  else if g.function = some (js "decapsulation") then
    let ss ← alg.decapsulate (bytes (t.get (js "c")))
      (bytes (t.get (js "dk")))
    return if some (hex ss) ≠ exp.k then
        .failed (js "implicit-reject secret mismatch")
      else .passed
  else if g.function = some (js "encapsulationKeyCheck") then
    return gradeCheck (alg.encapsulate (bytes (t.get (js "ek"))) none) exp
  else if g.function = some (js "decapsulationKeyCheck") then
    return gradeCheck (alg.decapsulate
      (List.replicate alg.cipherTextBytes 0) (bytes (t.get (js "dk")))) exp
  else return .skipped (js "unknown function " ++ nameText g.function)

/-- A case of `runMlKemEncapDecap`. -/
def runMlKemEncapDecap (alg : Kem) (g : TestGroup) (t : TestCase)
    (exp : Answer) : Except JsError Verdict :=
  match encapDecap alg g t exp with
  | .ok verdict => .ok verdict
  | .error err => .ok (threw err)

-- ============================================================ runners

/-- A case of a group; without a backend the cases of the group are
skipped, all at once in the source. -/
def gradeCase {α : Type} (table : List JsString) (prim : JsString → α)
    (grade : α → TestGroup → TestCase → Answer → Except JsError Verdict)
    (g : TestGroup) (t : TestCase) (exp : Answer) :
    Except JsError Verdict :=
  match entry table prim g.parameterSet with
  | none => .ok (.skipped (js "no backend for " ++ g.parameterSet))
  | some alg => grade alg g t exp

variable (prim : Primitives)

/-- `RUNNERS[set]`, on one case and its expected result. -/
def runner : Mode → TestGroup → TestCase → Answer → Except JsError Verdict
  | .mlKemKeyGen => gradeCase KEM prim.kem runMlKemKeyGen
  | .mlKemEncapDecap => gradeCase KEM prim.kem runMlKemEncapDecap
  | .mlDsaKeyGen => gradeCase DSA prim.dsa runMlDsaKeyGen
  | .mlDsaSigGen => gradeCase DSA prim.dsa (runSigGen (js "rnd"))
  | .mlDsaSigVer => gradeCase DSA prim.dsa runSigVer
  | .slhDsaKeyGen => gradeCase SLH prim.slh runSlhKeyGen
  | .slhDsaSigGen =>
      gradeCase SLH prim.slh (runSigGen (js "additionalRandomness"))
  | .slhDsaSigVer => gradeCase SLH prim.slh runSigVer

/-- The verdicts of a prompt, group by group. -/
def run (mode : Mode) (prompt : Prompt)
    (expectedById : (tgId tcId : Nat) → Answer) :
    Except JsError (List (List Verdict)) :=
  prompt.testGroups.mapM fun g => g.tests.mapM fun t =>
    runner prim mode g t (expectedById g.tgId t.tcId)

end RunAcvp

end KxcoPostQuantum.Conformance
