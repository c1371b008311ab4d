/-
conformance/acvts/responders.mjs: an ACVP prompt answered.

A prompt is a list of groups of cases, and a group names its parameter set
and what its cases share. It is answered case by case; the first throw
ends the response.

# Parameters

The primitives are parameters: a table of parameter sets, each with the
signing surfaces, or the calls of the KEM, that the harness uses. What a
surface does with an option it does not know is its own affair, which is
where this file and run-acvp.mjs come apart: `signerFor` here passes
`externalMu` to the internal surface whether the group has it or not.

# Answers

An `Answer` has the fields that ACVP asks for, and absent ones are left
out of the response. A throw of `verify` is an answer, a rejection, and so
is one of a key check; a throw anywhere else is not.
-/
import KxcoPostQuantum.Conformance.Acvp

namespace KxcoPostQuantum.Conformance

-- ============================================================== modes

/-- The keys of `RESPONDERS`, and the vector sets of run-acvp.mjs. -/
inductive Mode
  | mlKemKeyGen | mlKemEncapDecap
  | mlDsaKeyGen | mlDsaSigGen | mlDsaSigVer
  | slhDsaKeyGen | slhDsaSigGen | slhDsaSigVer
  deriving DecidableEq

/-- The key itself. -/
def Mode.key : Mode → JsString
  | mlKemKeyGen => js "ML-KEM/keyGen"
  | mlKemEncapDecap => js "ML-KEM/encapDecap"
  | mlDsaKeyGen => js "ML-DSA/keyGen"
  | mlDsaSigGen => js "ML-DSA/sigGen"
  | mlDsaSigVer => js "ML-DSA/sigVer"
  | slhDsaKeyGen => js "SLH-DSA/keyGen"
  | slhDsaSigGen => js "SLH-DSA/sigGen"
  | slhDsaSigVer => js "SLH-DSA/sigVer"

/-- `SUPPORTED`, in key order. -/
def modes : List Mode :=
  [.mlKemKeyGen, .mlKemEncapDecap, .mlDsaKeyGen, .mlDsaSigGen,
    .mlDsaSigVer, .slhDsaKeyGen, .slhDsaSigGen, .slhDsaSigVer]

namespace Responders

-- ========================================================= signatures

/-- `tgId ${g.tgId}: ${what}`. -/
def groupError (g : TestGroup) (what : JsString) : JsError :=
  error (js "tgId " ++ decimal g.tgId ++ js ": " ++ what)

/-- The backend of a group. -/
def backend {α : Type} (table : List JsString) (prim : JsString → α)
    (g : TestGroup) : Except JsError α :=
  match entry table prim g.parameterSet with
  | some alg => .ok alg
  | none => .error (groupError g (js "no backend for " ++ g.parameterSet))

/-- The signing surface of a case, and its options. -/
def signerFor (alg : SignatureAlg) (g : TestGroup) (t : TestCase) :
    Except JsError (Signer × SignerOptions) := do
  if g.isInternal then
    match alg.internal with
    | none =>
        throw (groupError g (js "backend exposes no internal interface"))
    | some signer =>
        return (signer, { externalMu := some (g.externalMu = some true) })
  else if g.preHash = some (js "preHash") then
    match (hashName g t).bind fun name => HASHES.lookup name with
    | none =>
        throw (groupError g
          (js "unsupported pre-hash " ++ nameText (hashName g t)))
    | some hash => return (← alg.prehash hash, {})
  else return (alg.toSigner, {})

/-- A case of `sigGen`. -/
def sigGen (rndField : JsString) (alg : SignatureAlg) (g : TestGroup)
    (t : TestCase) : Except JsError Answer := do
  let (signer, extraOpts) ← signerFor alg g t
  let opts := withEntropy g t rndField (withContext g t extraOpts)
  let signature ←
    signer.sign (messageOf g t) (bytes (t.get (js "sk"))) opts
  return { signature := some (hex signature) }

/-- A case of `sigVer`; a throw of the primitive is a rejection. -/
def sigVer (alg : SignatureAlg) (g : TestGroup) (t : TestCase) :
    Except JsError Answer := do
  let (signer, extraOpts) ← signerFor alg g t
  let opts := withContext g t extraOpts
  let testPassed :=
    match signer.verify (bytes (t.get (js "signature"))) (messageOf g t)
      (bytes (t.get (js "pk"))) opts with
    | .ok ok => ok
    | .error _ => false
  return { testPassed := some testPassed }

-- =============================================================== keys

/-- A case of ML-KEM `keyGen`, which takes `d || z`. -/
def mlKemKeyGen (alg : Kem) (_ : TestGroup) (t : TestCase) :
    Except JsError Answer := do
  let k ← alg.keygen (bytes (t.get (js "d")) ++ bytes (t.get (js "z")))
  return { ek := some (hex k.publicKey), dk := some (hex k.secretKey) }

/-- A case of ML-DSA `keyGen`. -/
def mlDsaKeyGen (alg : SignatureAlg) (_ : TestGroup) (t : TestCase) :
    Except JsError Answer := do
  let k ← alg.keygen (bytes (t.get (js "seed")))
  return { pk := some (hex k.publicKey), sk := some (hex k.secretKey) }

/-- A case of SLH-DSA `keyGen`, which takes its three seeds in order. -/
def slhDsaKeyGen (alg : SignatureAlg) (_ : TestGroup) (t : TestCase) :
    Except JsError Answer := do
  let seed := bytes (t.get (js "skSeed")) ++ bytes (t.get (js "skPrf"))
    ++ bytes (t.get (js "pkSeed"))
  let k ← alg.keygen seed
  return { pk := some (hex k.publicKey), sk := some (hex k.secretKey) }

/-- The answer of an input check: whether the call returned. -/
def keyCheck {α : Type} (call : Except JsError α) : Answer :=
  { testPassed := some (match call with
      | .ok _ => true
      | .error _ => false) }

/-- A case of `encapDecap`. -/
def mlKemEncapDecap (alg : Kem) (g : TestGroup) (t : TestCase) :
    Except JsError Answer := do
  if g.function = some (js "encapsulation") then
    let r ← alg.encapsulate (bytes (t.get (js "ek")))
      (some (bytes (t.get (js "m"))))
    return {
      c := some (← hexOf (r.cipherText.or r.ciphertext))
      k := some (hex r.sharedSecret) }
  else if g.function = some (js "decapsulation") then
    let k ← alg.decapsulate (bytes (t.get (js "c")))
      (bytes (t.get (js "dk")))
    return { k := some (hex k) }
  else if g.function = some (js "encapsulationKeyCheck") then
    return keyCheck (alg.encapsulate (bytes (t.get (js "ek"))) none)
  else if g.function = some (js "decapsulationKeyCheck") then
    return keyCheck (alg.decapsulate
      (List.replicate alg.cipherTextBytes 0) (bytes (t.get (js "dk"))))
  else
    throw (groupError g (js "unknown function " ++ nameText g.function))

-- =========================================================== response

/-- A group's answers, with the ids of their cases. -/
def answerGroup {α : Type} (table : List JsString) (prim : JsString → α)
    (answer : α → TestGroup → TestCase → Except JsError Answer)
    (g : TestGroup) : Except JsError (List (Nat × Answer)) := do
  let alg ← backend table prim g
  g.tests.mapM fun t => do return (t.tcId, ← answer alg g t)

variable (prim : Primitives)

/-- `RESPONDERS[key]`, on one group. -/
def responder : Mode → TestGroup → Except JsError (List (Nat × Answer))
  | .mlKemKeyGen => answerGroup KEM prim.kem mlKemKeyGen
  | .mlKemEncapDecap => answerGroup KEM prim.kem mlKemEncapDecap
  | .mlDsaKeyGen => answerGroup DSA prim.dsa mlDsaKeyGen
  | .mlDsaSigGen => answerGroup DSA prim.dsa (sigGen (js "rnd"))
  | .mlDsaSigVer => answerGroup DSA prim.dsa sigVer
  | .slhDsaKeyGen => answerGroup SLH prim.slh slhDsaKeyGen
  | .slhDsaSigGen =>
      answerGroup SLH prim.slh (sigGen (js "additionalRandomness"))
  | .slhDsaSigVer => answerGroup SLH prim.slh sigVer

/-- What `respond` returns. -/
structure Response where
  vsId : Nat
  algorithm : JsString
  mode : JsString
  revision : JsString
  isSample : Bool
  testGroups : List (Nat × List (Nat × Answer))

/-- The answer to a prompt. -/
def respond (prompt : Prompt) : Except JsError Response := do
  let key := prompt.algorithm ++ js "/" ++ prompt.mode
  match modes.find? fun mode => mode.key = key with
  | none => throw (error (js "no responder for " ++ key))
  | some mode =>
      let testGroups ← prompt.testGroups.mapM fun g => do
        return (g.tgId, ← responder prim mode g)
      return {
        vsId := prompt.vsId
        algorithm := prompt.algorithm
        mode := prompt.mode
        revision := prompt.revision
        isSample := prompt.isSample = some true
        testGroups }

end Responders

end KxcoPostQuantum.Conformance
