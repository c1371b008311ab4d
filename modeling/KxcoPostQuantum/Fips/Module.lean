/-
module.js: `start` and the services it returns, and the self-test runs
of selftest.js that it shares with index.js.

A service takes its arguments as JavaScript values and answers with an
`Output`. Buffers whose zeroisation the module answers for are
locations: what `getEntropy` and `random` return, and the two shared
secrets of the ML-KEM pairwise test. Caller's bytes, keys, ciphertexts
and signatures are plain byte strings.

The closures `start` makes share one `HmacDrbg`, which is the world's.
-/
import KxcoPostQuantum.Fips.Drbg
import KxcoPostQuantum.Lib.Utf8

namespace KxcoPostQuantum.Fips

open Lib (Eff)

-- ========================================================== constants

/-- `KEM`, in key order. -/
def KEM : List (JsString × KemSet) :=
  [(js "ML-KEM-768", .mlKem768), (js "ML-KEM-1024", .mlKem1024)]

/-- `DSA`, in key order. -/
def DSA : List (JsString × DsaSet) :=
  [(js "ML-DSA-65", .mlDsa65), (js "ML-DSA-87", .mlDsa87)]

def ALGORITHMS : List JsString := KEM.map (·.1) ++ DSA.map (·.1)

def entropyBytes : Nat := 48

def nonceBytes : Nat := 32

def personalization : Bytes :=
  Lib.Utf8.textEncode (js "kxco-post-quantum/fips HMAC_DRBG v1")

def pctMessage : Bytes :=
  Lib.Utf8.textEncode
    (js "kxco-post-quantum/fips pairwise consistency test")

def maxContextBytes : Nat := 255

-- ==================================================== argument checks

/-- `array.join(', ')`. -/
def join : List JsString → JsString
  | [] => []
  | [s] => s
  | s :: rest => s ++ js ", " ++ join rest

def toBytes (input : JsVal) (what : String) : Except JsError Bytes :=
  match input with
  | .uint8Array b => .ok b
  | .string s => .ok (Lib.Utf8.textEncode s)
  | _ => .error (typeError
      (js what ++ js " must be a Uint8Array or a string"))

def requireBytes (input : JsVal) (what : String) : Except JsError Bytes :=
  match input with
  | .uint8Array b => .ok b
  | _ => .error (typeError (js what ++ js " must be a Uint8Array"))

def contextOf (opts : JsVal) : Except JsError Bytes :=
  match opts with
  | .undefined => .ok []
  | _ =>
      if opts matches .null || !opts.isObjectType then
        .error (typeError
          (js "options must be an object such as { context }"))
      else do
        match ← opts.get (js "context") with
        | .undefined => return []
        | c =>
            let ctx ← toBytes c "context"
            if maxContextBytes < ctx.length then
              throw (rangeError (js "context must be at most "
                ++ decimal maxContextBytes ++ js " bytes"))
            else return ctx

/-- The own property of a table that a value names, if it is a string. -/
def entryOf {α : Type} (table : List (JsString × α)) (alg : JsVal) :
    Option α :=
  alg.string?.bind fun s => table.lookup s

variable (rt : Runtime)

def kemOf (alg : JsVal) : Except JsError KemSet :=
  match entryOf KEM alg with
  | some k => .ok k
  | none => do
      let alg ← template rt alg
      throw (rangeError (js "'" ++ alg
        ++ js "' is not an ML-KEM parameter set this module offers ("
        ++ join (KEM.map (·.1)) ++ js ")"))

def dsaOf (alg : JsVal) : Except JsError DsaSet :=
  match entryOf DSA alg with
  | some d => .ok d
  | none => do
      let alg ← template rt alg
      throw (rangeError (js "'" ++ alg
        ++ js "' is not an ML-DSA parameter set this module offers ("
        ++ join (DSA.map (·.1)) ++ js ")"))

variable {rt} in
/-- `dsaOf` returns what the table has. -/
theorem entryOf_of_dsaOf {alg : JsVal} {d : DsaSet}
    (h : dsaOf rt alg = .ok d) : entryOf DSA alg = some d := by
  unfold dsaOf at h
  cases he : entryOf DSA alg with
  | some d' =>
      rw [he] at h
      injection h with h
      rw [h]
  | none =>
      rw [he] at h
      cases ht : template rt alg with
      | error e =>
          rw [ht] at h
          cases h
      | ok s =>
          rw [ht] at h
          cases h

variable {rt} in
/-- `dsaOf` throws when the table has nothing. -/
theorem entryOf_of_dsaOf_error {alg : JsVal} {e : JsError}
    (h : dsaOf rt alg = .error e) : entryOf DSA alg = none := by
  unfold dsaOf at h
  cases he : entryOf DSA alg with
  | some d' =>
      rw [he] at h
      cases h
  | none => rfl

/-- `ALGORITHMS.includes(alg)`, or the error of the two key pair
services. -/
def requireOffered (alg : JsVal) : Except JsError JsString :=
  match alg.string? with
  | some s =>
      if s ∈ ALGORITHMS then .ok s
      else .error (rangeError (js "'" ++ s
        ++ js "' is not a parameter set this module offers ("
        ++ join ALGORITHMS ++ js ")"))
  | none => do
      let alg ← template rt alg
      throw (rangeError (js "'" ++ alg
        ++ js "' is not a parameter set this module offers ("
        ++ join ALGORITHMS ++ js ")"))

/-- A value the two tables have is offered; so where the check throws,
neither of them has an entry, and nothing is looked up for it. -/
theorem entryOf_of_requireOffered_error {alg : JsVal} {e : JsError}
    (h : requireOffered rt alg = .error e) :
    entryOf KEM alg = none ∧ entryOf DSA alg = none := by
  unfold requireOffered at h
  unfold entryOf
  cases hs : alg.string? with
  | none => exact ⟨rfl, rfl⟩
  | some s =>
      simp only [hs] at h
      by_cases hs : s ∈ ALGORITHMS
      · rw [if_pos hs] at h
        cases h
      · have hno : s ∉ KEM.map (·.1) ∧ s ∉ DSA.map (·.1) := by
          rw [ALGORITHMS, List.mem_append, not_or] at hs
          exact hs
        simp only [List.mem_map, not_exists, not_and] at hno
        refine ⟨List.lookup_eq_none_iff.mpr fun p hp => ?_,
          List.lookup_eq_none_iff.mpr fun p hp => ?_⟩
        · exact bne_iff_ne.mpr (Ne.symm (hno.1 p hp))
        · exact bne_iff_ne.mpr (Ne.symm (hno.2 p hp))

/-- The comparison without an early exit: `diff` gathers every
difference. -/
def equal (a b : Bytes) : Bool :=
  if a.length ≠ b.length then false
  else (a.zip b).foldl (fun diff p => diff ||| (p.1 ^^^ p.2)) 0 == 0

-- ========================================================= self-tests

/-- `new FipsFatalError(message)`. -/
def fipsFatalError (message : JsString) : JsError :=
  { name := .fipsFatalError, message }

/-- `throw new FipsFatalError(message)`. -/
def fatal {α : Type} (message : JsString) : Proc α := do
  emit .fatal
  throw (fipsFatalError message)

variable (env : Env)

/-- One of the self-tests of selftest.js. -/
def cast (c : Cast) : Proc Unit :=
  askLogged (.cast c) fun t => env.cast t c

def runIntegrityCasts : Proc Unit := do
  cast env .sha256
  cast env .mlDsaVerify

def runAlgorithmCasts : Proc Unit := do
  cast env .sha512
  cast env .hmac
  cast env .drbg
  cast env .mlKem
  cast env .mlDsa

-- ======================================================= random bits

/-- `getEntropy(length)`. -/
def getEntropy (length : Nat) : Proc Nat := do
  let b ← askLogged .entropy fun t => env.getEntropy t length
  newMarked .entropy b.1

/-- The reads and the seeding of `start`. -/
def instantiateDrbg : Proc Unit := do
  let entropy ← getEntropy env entropyBytes
  let nonce ← getEntropy env nonceBytes
  HmacDrbg.instantiate env.hmac (.bytes (← contents entropy))
    (.bytes (← contents nonce)) (some (.bytes personalization))
  fillZero entropy
  fillZero nonce

/-- `start()`. -/
def start : Proc Unit := do
  runAlgorithmCasts env
  Eff.modify HmacDrbg.create
  tryCatch (instantiateDrbg env) fun err =>
    fatal (js "DRBG instantiation failed: " ++ err.message)
  emit .instantiated

/-- The reseed of `random`. -/
def reseedIfRequired : Proc Unit := do
  if HmacDrbg.reseedRequired (← Eff.get).drbg then do
    let entropy ← getEntropy env entropyBytes
    HmacDrbg.reseed env.hmac (.bytes (← contents entropy)) none
    fillZero entropy
  else pure ()

/-- `random(length)`. -/
def random (length : Nat) : Proc Nat :=
  tryCatch (do
    reseedIfRequired env
    let out ← HmacDrbg.generate env.hmac (.number (.finite length)) none
    newMarked .draw out) fun err =>
    fatal (js "DRBG failed: " ++ err.message)

-- ===================================================== pairwise tests

/-- The `catch` of a pairwise test: fatal errors go on, any other leaves
`ok` false. -/
def pctCaught (err : JsError) : Proc Bool :=
  if err.name = .fipsFatalError then throw err else pure false

/-- `ok = equal(sharedSecret, recovered)`, and `zeroize(m, sharedSecret,
recovered)`. -/
def compareSecrets (m : Nat) (sharedSecret recovered : Bytes) :
    Proc Bool := do
  let ss ← newMarked .sharedSecret sharedSecret
  let r ← newMarked .sharedSecret recovered
  fillZero m
  fillZero ss
  fillZero r
  return equal sharedSecret recovered

/-- The body of `pctKem`. -/
def pctKemBody (kem : KemSet) (publicKey secretKey : Bytes) :
    Proc Bool := do
  let m ← random env 32
  let mBytes ← contents m
  let e ← ask fun t => env.encapsulate t kem publicKey mBytes
  let r ← ask fun t => env.decapsulate t kem e.cipherText secretKey
  compareSecrets m e.sharedSecret r

/-- `pctKem(kem, publicKey, secretKey)`. -/
def pctKem (kem : KemSet) (publicKey secretKey : Bytes) : Proc Unit := do
  emit (.pct publicKey secretKey)
  let ok ← tryCatch (pctKemBody env kem publicKey secretKey) pctCaught
  if ok then emit .pctPassed
  else fatal (js "pairwise consistency test failed for a generated "
    ++ js "ML-KEM key pair")

/-- The body of `pctDsa`. -/
def pctDsaBody (dsa : DsaSet) (publicKey secretKey : Bytes) :
    Proc Bool := do
  let rnd ← random env 32
  let rndBytes ← contents rnd
  let sig ← ask fun t => env.sign t dsa pctMessage secretKey none rndBytes
  fillZero rnd
  ask fun t => env.verify t dsa sig pctMessage publicKey none

/-- `pctDsa(dsa, publicKey, secretKey)`. -/
def pctDsa (dsa : DsaSet) (publicKey secretKey : Bytes) : Proc Unit := do
  emit (.pct publicKey secretKey)
  let ok ← tryCatch (pctDsaBody env dsa publicKey secretKey) pctCaught
  if ok then emit .pctPassed
  else fatal (js "pairwise consistency test failed for a generated "
    ++ js "ML-DSA key pair")

-- =========================================================== services

/-- What a service returns. -/
inductive Output
  /-- `seed` is the buffer `generateKeypair` returns beside the keys. -/
  | keyPair (alg : JsString) (publicKey secretKey : Bytes)
      (seed : Option Nat)
  | encapsulation (cipherText sharedSecret : Bytes)
  | bytes (b : Bytes)
  | bool (b : Bool)
  | undefined

def generateKeypair (alg : JsVal) : Proc Output := do
  let name ← Eff.ofExcept (requireOffered rt alg)
  match entryOf KEM alg with
  | some kem => do
      let seed ← random env 64
      let seedBytes ← contents seed
      let kp ← ask fun t => env.kemKeygen t kem seedBytes
      pctKem env kem kp.publicKey kp.secretKey
      return .keyPair name kp.publicKey kp.secretKey (some seed)
  | none => do
      let dsa ← Eff.ofExcept (dsaOf rt alg)
      let seed ← random env 32
      let seedBytes ← contents seed
      let kp ← ask fun t => env.dsaKeygen t dsa seedBytes
      pctDsa env dsa kp.publicKey kp.secretKey
      return .keyPair name kp.publicKey kp.secretKey (some seed)

/-- The length check of `keypairFromSeed`. -/
def requireSeedLength (name : JsString) (seed : Bytes) (length : Nat) :
    Except JsError Unit :=
  if seed.length ≠ length then
    .error (rangeError (name ++ js " seed must be " ++ decimal length
      ++ js " bytes, got " ++ decimal seed.length))
  else .ok ()

def keypairFromSeed (alg seed : JsVal) : Proc Output := do
  let name ← Eff.ofExcept (requireOffered rt alg)
  let seed ← Eff.ofExcept (requireBytes seed "seed")
  match entryOf KEM alg with
  | some kem => do
      Eff.ofExcept (requireSeedLength name seed 64)
      let kp ← ask fun t => env.kemKeygen t kem seed
      return .keyPair name kp.publicKey kp.secretKey none
  | none => do
      let dsa ← Eff.ofExcept (dsaOf rt alg)
      Eff.ofExcept (requireSeedLength name seed 32)
      let kp ← ask fun t => env.dsaKeygen t dsa seed
      return .keyPair name kp.publicKey kp.secretKey none

def encapsulate (alg publicKey : JsVal) : Proc Output := do
  let kem ← Eff.ofExcept (kemOf rt alg)
  let publicKey ← Eff.ofExcept (requireBytes publicKey "publicKey")
  let m ← random env 32
  Eff.tryFinally (do
    let mBytes ← contents m
    let e ← ask fun t => env.encapsulate t kem publicKey mBytes
    return .encapsulation e.cipherText e.sharedSecret) (fillZero m)

def decapsulate (alg cipherText secretKey : JsVal) : Proc Output := do
  let kem ← Eff.ofExcept (kemOf rt alg)
  let cipherText ← Eff.ofExcept (requireBytes cipherText "cipherText")
  let secretKey ← Eff.ofExcept (requireBytes secretKey "secretKey")
  let b ← ask fun t => env.decapsulate t kem cipherText secretKey
  return .bytes b

def sign (alg secretKey message opts : JsVal) : Proc Output := do
  let dsa ← Eff.ofExcept (dsaOf rt alg)
  let secretKey ← Eff.ofExcept (requireBytes secretKey "secretKey")
  let context ← Eff.ofExcept (contextOf opts)
  let msg ← Eff.ofExcept (toBytes message "message")
  let rnd ← random env 32
  Eff.tryFinally (do
    let rndBytes ← contents rnd
    let b ← ask fun t =>
      env.sign t dsa msg secretKey (some context) rndBytes
    return .bytes b) (fillZero rnd)

def verify (alg publicKey message signature opts : JsVal) :
    Proc Output := do
  let dsa ← Eff.ofExcept (dsaOf rt alg)
  let context ← Eff.ofExcept (contextOf opts)
  let msg ← Eff.ofExcept (toBytes message "message")
  let publicKey ← Eff.ofExcept (requireBytes publicKey "publicKey")
  let signature ← Eff.ofExcept (requireBytes signature "signature")
  let ok ← tryCatch
    (ask fun t => env.verify t dsa signature msg publicKey (some context))
    fun _ => pure false
  return .bool ok

/-- `runCasts()`. -/
def runCasts : Proc Unit := runAlgorithmCasts env

/-- `destroy()`. -/
def destroy : Proc Unit := HmacDrbg.uninstantiate

end KxcoPostQuantum.Fips
