/-
vendor/post-quantum/ml-kem.js.

`Params` are the options of `createKyber` but for the hash functions; the
instances the module exports are those of `ParamSet`. `KPKE` is what
`genKPKE` returns.

Sampling the matrix takes `fuel`, which bounds the blocks it reads. An
array of polynomials is a list. A seed or message is the caller's bytes, or
bytes that have been drawn.
-/
import KxcoPostQuantum.Vendor.Crystals

namespace KxcoPostQuantum.Vendor.MlKem

open Lib (loop loopM)

-- =========================================================== constants

def N : Nat := 256

def Q : Int := 3329

def F : Int := 3303

def ROOT_OF_UNITY : Nat := 17

/-- The options of `createKyber`. -/
structure Params where
  K : Nat
  ETA1 : Nat
  ETA2 : Nat
  du : Nat
  dv : Nat

/-- The instances of the module. -/
inductive ParamSet
  | ml_kem512
  | ml_kem768
  | ml_kem1024
  deriving DecidableEq

def PARAMS : ParamSet → Params
  | .ml_kem512 => { K := 2, ETA1 := 3, ETA2 := 2, du := 10, dv := 4 }
  | .ml_kem768 => { K := 3, ETA1 := 2, ETA2 := 2, du := 10, dv := 4 }
  | .ml_kem1024 => { K := 4, ETA1 := 2, ETA2 := 2, du := 11, dv := 5 }

/-- The options `genCrystals` is called with. -/
def crystals : CrystalOpts where
  Q := Q
  F := F
  ROOT_OF_UNITY := ROOT_OF_UNITY
  brvBits := 7
  isKyber := true

-- ========================================================= polynomials

/-- A `Uint16Array` of 256 coefficients. -/
abbrev Poly : Type := Vector UInt16 N

def newPoly : Poly := zeros UInt16 N

/-- An element of an array of polynomials. -/
def nth (v : List Poly) (i : Nat) : Poly := v.getD i newPoly

/-- What `compress` returns. The sum is a number, the quotient one that is
rounded. -/
def compress (d : Nat) : CoefCoder :=
  if 12 ≤ d then
    { encode := fun i => .ok (.finite i)
      decode := fun i => .ok (if Q ≤ i then i - Q else i) }
  else
    let a : Int := 2 ^ (d - 1)
    { encode := fun i => .ok (.round ((shl i d + Q / 2 : ℚ) / Q))
      decode := fun i => .ok (ushr (times i Q + a) d) }

def byteCoder (d : Nat) : Coder Poly :=
  packed d (if d = 12 then
      { encode := fun i => .ok (.finite i)
        decode := fun i => .ok (if Q ≤ i then i - Q else i) }
    else
      { encode := fun i => .ok (.finite i)
        decode := fun i => .ok i })

def polyCoder (d : Nat) : Coder Poly :=
  if d = 12 then byteCoder 12 else packed d (compress d)

def polyAdd (a b : Poly) : Poly :=
  loop N
    (fun i a =>
      let r := get a i + get b i
      set a i (if Q ≤ r then r - Q else r))
    a

def polySub (a b : Poly) : Poly :=
  loop N
    (fun i a =>
      let r := get a i - get b i
      set a i (if r < 0 then r + Q else r))
    a

/-- `BaseCaseMultiply`, which returns `{ c0, c1 }`. -/
def BaseCaseMultiply (a0 a1 b0 b1 zeta : Int) : Int × Int :=
  (mod (times (mod (times a1 b1) Q) zeta + times a0 b0) Q,
    mod (times a0 b1 + times a1 b0) Q)

def MultiplyNTTs (f g : Poly) : Poly :=
  loop (N / 2)
    (fun i f =>
      let z := get (crystals.getZettas UInt16 N) (64 + i / 2)
      let z := if i % 2 = 1 then -z else z
      let c := BaseCaseMultiply (get f (2 * i)) (get f (2 * i + 1))
        (get g (2 * i)) (get g (2 * i + 1)) z
      set (set f (2 * i) c.1) (2 * i + 1) c.2)
    f

-- ============================================================ sampling

/-- The two candidates of each three bytes of a block. -/
def sampleNTTBytes : Bytes → Nat × Poly → Nat × Poly
  | b0 :: b1 :: b2 :: rest, (j, r) =>
      if j < N then
        let d1 := bitAnd (bitOr (shr b0.toNat 0) (shl b1.toNat 8)) 0xfff
        let d2 := bitAnd (bitOr (shr b1.toNat 4) (shl b2.toNat 4)) 0xfff
        let s := if d1 < Q then (j + 1, set r j d1) else (j, r)
        let s := if s.1 < N ∧ d2 < Q then (s.1 + 1, set s.2 s.1 d2) else s
        sampleNTTBytes rest s
      else (j, r)
  | _, s => s

def SampleNTT (fuel : Nat) (xof : Nat → Bytes) : Run Poly := do
  let (_, r) ← sample (fun (s : Nat × Poly) => decide (N ≤ s.1))
    (fun b s =>
      if b.length % 3 ≠ 0 then
        raise (error (js "SampleNTT: unaligned block"))
      else .ok (sampleNTTBytes b s))
    xof fuel 0 (0, newPoly)
  return r

/-- `u32(buf)[i]`, with the bytes swapped where the platform's order is the
other one. -/
def word (buf : Bytes) (i : Nat) : Nat :=
  let b := fun j => (buf.getD (4 * i + j) 0).toNat
  b 0 + b 1 * 2 ^ 8 + b 2 * 2 ^ 16 + b 3 * 2 ^ 24

/-- The variables of the loops of `sampleCBDBytes`. -/
structure Cbd where
  r : Poly := newPoly
  p : Nat := 0
  bb : Int := 0
  t0 : Int := 0
  len : Nat := 0

/-- What is done with a bit. -/
def cbdBit (eta : Nat) (bit : Int) (s : Cbd) : Cbd :=
  let bb := s.bb + bit
  let len := s.len + 1
  if len = eta then
    { r := s.r, p := s.p, bb := 0, t0 := bb, len := len }
  else if len = 2 * eta then
    { r := set s.r s.p (mod (s.t0 - bb) Q), p := s.p + 1, bb := 0, t0 := s.t0,
      len := 0 }
  else { r := s.r, p := s.p, bb := bb, t0 := s.t0, len := len }

/-- The loop over the bits of a word. -/
def cbdWord (eta : Nat) (b : Int) (s : Cbd) : Cbd :=
  (loop 32 (fun _ (b, s) => (shr b 1, cbdBit eta (bitAnd b 1) s)) (b, s)).2

def sampleCBDBytes (buf : Bytes) (eta : Nat) : Run Poly :=
  let s := loop (buf.length / 4) (fun i s => cbdWord eta (word buf i) s) {}
  if s.len ≠ 0 then
    raise (error (js "sampleCBD: leftover bits: " ++ decimal s.len))
  else .ok s.r

def shakePRF (h : Hashes) (dkLen : Nat) (key : Bytes) (nonce : Nat) : Bytes :=
  squeeze (h.shake256 (key ++ [nonce.toUInt8])) dkLen

def sampleCBD (h : Hashes) (seed : Bytes) (nonce eta : Nat) : Run Poly :=
  sampleCBDBytes (shakePRF h (eta * N / 4) seed nonce) eta

-- ================================================================ K-PKE

structure KeyPair where
  publicKey : Bytes
  secretKey : Bytes

/-- `buf.subarray(start, stop)`. -/
def subarray (buf : Bytes) (start stop : Nat) : Bytes :=
  (buf.take stop).drop start

namespace KPKE

variable (P : Params) (h : Hashes)

def poly1 : Coder Poly := polyCoder 1

def polyV : Coder Poly := polyCoder P.dv

def polyU : Coder Poly := polyCoder P.du

def publicCoder : Coder (List Poly × Bytes × Unit) :=
  splitCoder (js "publicKey") (.coder (vecCoder (polyCoder 12) P.K)
    (.raw 32 .nil))

def secretCoder : Coder (List Poly) := vecCoder (polyCoder 12) P.K

def cipherCoder : Coder (List Poly × Poly × Unit) :=
  splitCoder (js "ciphertext") (.coder (vecCoder (polyU P) P.K)
    (.coder (polyV P) .nil))

def seedCoder : Coder (Bytes × Bytes × Unit) :=
  splitCoder (js "seed") (.raw 32 (.raw 32 .nil))

/-- `encryptCore`. The accumulator of `v` is apart from the loop over the
rows of `u`. -/
def encryptCore (tHat : List Poly) (getA : Nat → Nat → Run Poly)
    (msg seed : Bytes) : Run Bytes := do
  let r ← (List.range P.K).mapM fun i => sampleCBD h seed i P.ETA1
  let rHat := r.map crystals.encode
  let u ← (List.range P.K).mapM fun i => do
    let e1 ← sampleCBD h seed (P.K + i) P.ETA2
    let tmp ← loopM P.K
      (fun j tmp => do
        let aij ← getA i j
        return polyAdd tmp (MultiplyNTTs aij (nth rHat j)))
      newPoly
    return polyAdd e1 (crystals.decode tmp)
  let tmp2 := loop P.K
    (fun i tmp2 => polyAdd tmp2 (MultiplyNTTs (nth tHat i) (nth rHat i)))
    newPoly
  let e2 ← sampleCBD h seed (2 * P.K) P.ETA2
  let v ← poly1.decode msg
  (cipherCoder P).encode (u, polyAdd v (polyAdd e2 (crystals.decode tmp2)), ())

def keygen (fuel : Nat) (seed : Bytes) : Run KeyPair := do
  abytes seed 32 (js "seed")
  let seedDst := seed ++ [P.K.toUInt8]
  let (rho, sigma, _) ← seedCoder.decode (h.sha3_512 seedDst).toList
  let s ← (List.range P.K).mapM fun i => sampleCBD h sigma i P.ETA1
  let sHat := s.map crystals.encode
  let tHat ← (List.range P.K).mapM fun i => do
    let e ← sampleCBD h sigma (P.K + i) P.ETA1
    loopM P.K
      (fun j e => do
        let aji ← SampleNTT fuel (XOF128 h rho j i)
        return polyAdd e (MultiplyNTTs aji (nth sHat j)))
      (crystals.encode e)
  let publicKey ← (publicCoder P).encode (tHat, rho, ())
  let secretKey ← (secretCoder P).encode sHat
  return { publicKey := publicKey, secretKey := secretKey }

def encrypt (fuel : Nat) (publicKey msg seed : Bytes) : Run Bytes := do
  let (tHat, rho, _) ← (publicCoder P).decode publicKey
  encryptCore P h tHat (fun i j => SampleNTT fuel (XOF128 h rho i j)) msg seed

/-- What the functions `prepare` returns hold: `tHat` and `A`. -/
structure Prepared where
  tHat : List Poly
  A : List Poly

def prepare (fuel : Nat) (publicKey : Bytes) : Run Prepared := do
  let (tHat, rho, _) ← (publicCoder P).decode publicKey
  let A ← (List.range P.K).mapM fun i => (List.range P.K).mapM fun j =>
    SampleNTT fuel (XOF128 h rho i j)
  return { tHat := tHat, A := A.flatten }

/-- The `encrypt` that `prepare` returns, on copies of what it holds. -/
def Prepared.encrypt (c : Prepared) (msg seed : Bytes) : Run Bytes :=
  encryptCore P h c.tHat (fun i j => .ok (nth c.A (i * P.K + j))) msg seed

def decrypt (cipherText privateKey : Bytes) : Run Bytes := do
  let (u, v, _) ← (cipherCoder P).decode cipherText
  let sk ← (secretCoder P).decode privateKey
  let tmp := loop P.K
    (fun i tmp => polyAdd tmp
      (MultiplyNTTs (nth sk i) (crystals.encode (nth u i))))
    newPoly
  poly1.encode (polySub v (crystals.decode tmp))

end KPKE

-- =============================================================== ML-KEM

variable (P : Params) (h : Hashes)

def secretCoder : Coder (Bytes × Bytes × Bytes × Bytes × Unit) :=
  splitCoder (js "secretKey") (.raw (KPKE.secretCoder P).bytesLen
    (.raw (KPKE.publicCoder P).bytesLen (.raw 32 (.raw 32 .nil))))

def validateModulus (publicKey : Bytes) (fn : JsString) : Run Unit := do
  let eke := subarray publicKey 0 (384 * P.K)
  let t ← (KPKE.secretCoder P).decode eke
  let ek ← (KPKE.secretCoder P).encode t
  if equalBytes ek eke then return ()
  else raise (error (js "ML-KEM." ++ fn ++ js ": wrong publicKey modulus"))

def keygen (fuel : Nat) (seed : Bytes) : Run KeyPair := do
  abytes seed 64 (js "seed")
  let keys ← KPKE.keygen P h fuel (subarray seed 0 32)
  let publicKeyHash := (h.sha3_256 keys.publicKey).toList
  let secretKey ← (secretCoder P).encode
    (keys.secretKey, keys.publicKey, publicKeyHash, seed.drop 32, ())
  return { publicKey := keys.publicKey, secretKey := secretKey }

def getPublicKey (secretKey : Bytes) : Run Bytes := do
  let (_, publicKey, _) ← (secretCoder P).decode secretKey
  return publicKey

structure Encapsulated where
  cipherText : Bytes
  sharedSecret : Bytes

def encapsulate (fuel : Nat) (publicKey msg : Bytes) : Run Encapsulated := do
  abytes publicKey (KPKE.publicCoder P).bytesLen (js "publicKey")
  abytes msg 32 (js "message")
  validateModulus P publicKey (js "encapsulate")
  let kr := (h.sha3_512 (msg ++ (h.sha3_256 publicKey).toList)).toList
  let cipherText ← KPKE.encrypt P h fuel publicKey msg (subarray kr 32 64)
  return { cipherText := cipherText, sharedSecret := subarray kr 0 32 }

/-- The hash check of `decapsulate`. -/
def checkHash (secretKey : Bytes) : Run Unit :=
  let k768 := (secretCoder P).bytesLen - 96
  let start := k768 + 32
  let test := (h.sha3_256 (subarray secretKey (k768 / 2) start)).toList
  if equalBytes test (subarray secretKey start (start + 32)) then .ok ()
  else raise (error (js "invalid secretKey: hash check failed"))

/-- `KDF.create({ dkLen: 32 }).update(z).update(cipherText).digest()`. -/
def rejection (z cipherText : Bytes) : Bytes :=
  squeeze (h.shake256 (z ++ cipherText)) 32

def decapsulate (fuel : Nat) (cipherText secretKey : Bytes) : Run Bytes := do
  abytes secretKey (secretCoder P).bytesLen (js "secretKey")
  abytes cipherText (KPKE.cipherCoder P).bytesLen (js "cipherText")
  checkHash P h secretKey
  let (sk, publicKey, publicKeyHash, z, _) ← (secretCoder P).decode secretKey
  let msg ← KPKE.decrypt P cipherText sk
  let kr := (h.sha3_512 (msg ++ publicKeyHash)).toList
  let Khat := subarray kr 0 32
  let cipherText2 ← KPKE.encrypt P h fuel publicKey msg (subarray kr 32 64)
  return if equalBytes cipherText cipherText2 then Khat
    else rejection h z cipherText

-- ========================================================== prepared keys

/-- What the functions `prepare` returns hold. -/
structure Prepared where
  publicKey : Bytes
  publicKeyHash : Bytes
  cached : KPKE.Prepared

def prepare (fuel : Nat) (publicKey : Bytes) : Run Prepared := do
  abytes publicKey (KPKE.publicCoder P).bytesLen (js "publicKey")
  validateModulus P publicKey (js "prepare")
  let cached ← KPKE.prepare P h fuel publicKey
  return {
    publicKey := publicKey
    publicKeyHash := (h.sha3_256 publicKey).toList
    cached := cached }

namespace Prepared

variable (c : Prepared)

def encapsulate (msg : Bytes) : Run Encapsulated := do
  abytes msg 32 (js "message")
  let kr := (h.sha3_512 (msg ++ c.publicKeyHash)).toList
  let cipherText ← c.cached.encrypt P h msg (subarray kr 32 64)
  return { cipherText := cipherText, sharedSecret := subarray kr 0 32 }

/-- The secret key is that of the prepared public key. -/
def checkMatch (ekEmbedded storedHash : Bytes) : Run Unit :=
  if !equalBytes ekEmbedded c.publicKey
      || !equalBytes storedHash c.publicKeyHash then
    raise (error (js ("ML-KEM.decapsulate: secretKey does not match "
      ++ "prepared publicKey")))
  else .ok ()

def decapsulate (cipherText secretKey : Bytes) : Run Bytes := do
  abytes secretKey (MlKem.secretCoder P).bytesLen (js "secretKey")
  abytes cipherText (KPKE.cipherCoder P).bytesLen (js "cipherText")
  let (sk, ekEmbedded, storedHash, z, _) ←
    (MlKem.secretCoder P).decode secretKey
  c.checkMatch ekEmbedded storedHash
  let msg ← KPKE.decrypt P cipherText sk
  let kr := (h.sha3_512 (msg ++ c.publicKeyHash)).toList
  let Khat := subarray kr 0 32
  let cipherText2 ← c.cached.encrypt P h msg (subarray kr 32 64)
  return if equalBytes cipherText cipherText2 then Khat
    else rejection h z cipherText

end Prepared

end KxcoPostQuantum.Vendor.MlKem
