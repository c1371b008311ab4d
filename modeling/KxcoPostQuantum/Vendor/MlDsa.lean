/-
vendor/post-quantum/ml-dsa.js.

`Params` are the options of `getDilithium`; what it checks of them before
it builds an instance are fields. The instances the module exports are
those of `ParamSet`.

The functions that sample take `fuel`, which bounds the blocks each of them
reads and the passes of the signing loop. An array of polynomials is a
list. `rnd` is what `sign` has chosen for its randomness by the time it
checks its length: the caller's bytes, bytes it has drawn, or zeros.
-/
import KxcoPostQuantum.Vendor.Crystals

namespace KxcoPostQuantum.Vendor.MlDsa

open Lib (loop loopM)

-- =========================================================== constants

def N : Nat := 256

def Q : Int := 8380417

def ROOT_OF_UNITY : Nat := 1753

def F : Int := 8347681

def D : Nat := 13

def GAMMA2_1 : Int := floorQuotient (Q - 1) 88

def GAMMA2_2 : Int := floorQuotient (Q - 1) 32

def CRH_BYTES : Nat := 64

def TR_BYTES : Nat := 64

/-- The options of `getDilithium`. -/
structure Params where
  K : Nat
  L : Nat
  GAMMA1 : Int
  GAMMA2 : Int
  TAU : Nat
  ETA : Int
  OMEGA : Nat
  C_TILDE_BYTES : Nat
  eta_known : ETA = 2 ∨ ETA = 4
  gamma1_known : GAMMA1 = 2 ^ 17 ∨ GAMMA1 = 2 ^ 19
  gamma2_known : GAMMA2 = GAMMA2_1 ∨ GAMMA2 = GAMMA2_2

/-- The instances of the module. -/
inductive ParamSet
  | ml_dsa44
  | ml_dsa65
  | ml_dsa87
  deriving DecidableEq

/-- `PARAMS`, with the byte lengths of the instances. -/
def PARAMS : ParamSet → Params
  | .ml_dsa44 =>
      { K := 4
        L := 4
        GAMMA1 := 2 ^ 17
        GAMMA2 := GAMMA2_1
        TAU := 39
        ETA := 2
        OMEGA := 80
        C_TILDE_BYTES := 32
        eta_known := .inl rfl
        gamma1_known := .inl rfl
        gamma2_known := .inl rfl }
  | .ml_dsa65 =>
      { K := 6
        L := 5
        GAMMA1 := 2 ^ 19
        GAMMA2 := GAMMA2_2
        TAU := 49
        ETA := 4
        OMEGA := 55
        C_TILDE_BYTES := 48
        eta_known := .inr rfl
        gamma1_known := .inr rfl
        gamma2_known := .inr rfl }
  | .ml_dsa87 =>
      { K := 8
        L := 7
        GAMMA1 := 2 ^ 19
        GAMMA2 := GAMMA2_2
        TAU := 60
        ETA := 2
        OMEGA := 75
        C_TILDE_BYTES := 64
        eta_known := .inl rfl
        gamma1_known := .inr rfl
        gamma2_known := .inr rfl }

/-- The options `genCrystals` is called with. -/
def crystals : CrystalOpts where
  Q := Q
  F := F
  ROOT_OF_UNITY := ROOT_OF_UNITY
  brvBits := 8
  isKyber := false

-- ========================================================= polynomials

/-- An `Int32Array` of 256 coefficients. -/
abbrev Poly : Type := Vector Int32 N

def newPoly : Poly := zeros Int32 N

/-- An element of an array of polynomials. -/
def nth (v : List Poly) (i : Nat) : Poly := v.getD i newPoly

/-- `p.map(f)`. -/
def mapPoly (f : Int → Int) (p : Poly) : Poly :=
  loop N (fun i p => set p i (f (get p i))) p

def polyAdd (a b : Poly) : Poly :=
  loop N (fun i a => set a i (mod (get a i + get b i) Q)) a

def polySub (a b : Poly) : Poly :=
  loop N (fun i a => set a i (mod (get a i - get b i) Q)) a

def polyShiftl (p : Poly) : Poly :=
  loop N (fun i p => set p i (shl (get p i) D)) p

def polyChknorm (p : Poly) (B : Int) : Bool :=
  (List.range N).any fun i => decide (B ≤ |smod (get p i) Q|)

def MultiplyNTTs (a b : Poly) : Poly :=
  loop N (fun i c => set c i (mod (times (get a i) (get b i)) Q)) newPoly

def polyCoder (d : Nat) (compress : Int → Int) (verify : Int → Run Int) :
    Coder Poly :=
  packed d
    { encode := fun i => do return .finite (compress (← verify i))
      decode := fun i => verify (compress i) }

-- ============================================================ sampling

/-- The candidates of a block, three bytes each. -/
def rejNTTBytes : Bytes → Nat × Poly → Nat × Poly
  | b0 :: b1 :: b2 :: rest, (j, r) =>
      if j < N then
        let t := bitAnd (bitOr (bitOr b0.toNat (shl b1.toNat 8))
          (shl b2.toNat 16)) 0x7fffff
        rejNTTBytes rest (if t < Q then (j + 1, set r j t) else (j, r))
      else (j, r)
  | _, s => s

def RejNTTPoly (fuel : Nat) (xof : Nat → Bytes) : Run Poly := do
  let (_, r) ← sample (fun (s : Nat × Poly) => decide (N ≤ s.1))
    (fun b s =>
      if b.length % 3 ≠ 0 then
        raise (error (js "RejNTTPoly: unaligned block"))
      else .ok (rejNTTBytes b s))
    xof fuel 0 (0, newPoly)
  return r

variable (P : Params)

/-- `BETA`. -/
def Params.BETA : Int := P.TAU * P.ETA

/-- `CoefFromHalfByte`; `none` is `false`. -/
def CoefFromHalfByte (n : Int) : Option Int :=
  if P.ETA = 2 then (if n < 15 then some (2 - n % 5) else none)
  else (if n < 9 then some (4 - n) else none)

/-- The two candidates of each byte of a block. -/
def rejBoundedBytes : Bytes → Nat × Poly → Nat × Poly
  | b :: rest, (j, r) =>
      if j < N then
        let d1 := CoefFromHalfByte P (bitAnd b.toNat 0x0f)
        let d2 := CoefFromHalfByte P (bitAnd (shr b.toNat 4) 0x0f)
        let (j, r) := d1.elim (j, r) fun d1 => (j + 1, set r j d1)
        let (j, r) := if j < N then
            d2.elim (j, r) fun d2 => (j + 1, set r j d2)
          else (j, r)
        rejBoundedBytes rest (j, r)
      else (j, r)
  | [], s => s

def RejBoundedPoly (fuel : Nat) (xof : Nat → Bytes) : Run Poly := do
  let (_, r) ← sample (fun (s : Nat × Poly) => decide (N ≤ s.1))
    (fun b s => .ok (rejBoundedBytes P b s)) xof fuel 0 (0, newPoly)
  return r

/-- Read bytes until one is at most `i`; what is read next is the byte
`pos` of the block `call`. -/
def positionBelow (xof : Nat → Bytes) (i : Nat) :
    (fuel : Nat) → Nat × Nat → Run (Nat × Nat × Nat)
  | 0, _ => .error .outOfFuel
  | fuel + 1, (call, pos) =>
      let b := ((xof call).getD pos 0).toNat
      let next := if pos + 1 < shake256BlockLen then (call, pos + 1)
        else (call + 1, 0)
      if i < b then positionBelow xof i fuel next else .ok (b, next)

/-- The variables of the loop of `SampleInBall`. -/
structure Ball where
  pre : Poly := newPoly
  read : Nat × Nat := (0, 8)
  maskPos : Nat := 0
  maskBit : Nat := 0

/-- One pass of the loop, for the position `i`. -/
def ballPass (fuel : Nat) (xof : Nat → Bytes) (i : Nat) (s : Ball) :
    Run Ball := do
  let masks := (xof 0).take 8
  let (b, read) ← positionBelow xof i fuel s.read
  let pre := set s.pre i (get s.pre b)
  let mask := ((masks.getD s.maskPos 0).toNat : Int)
  let pre := set pre b (1 - shl (bitAnd (shr mask s.maskBit) 1) 1)
  let maskBit := s.maskBit + 1
  return if 8 ≤ maskBit then
      { pre := pre, read := read, maskPos := s.maskPos + 1, maskBit := 0 }
    else { pre := pre, read := read, maskPos := s.maskPos, maskBit := maskBit }

def SampleInBall (h : Hashes) (fuel : Nat) (seed : Bytes) : Run Poly := do
  let xof := fun call => squeeze
    (fun i => h.shake256 seed (call * shake256BlockLen + i)) shake256BlockLen
  let s ← loopM P.TAU (fun k => ballPass fuel xof (N - P.TAU + k)) {}
  return s.pre

-- ============================================================ rounding

/-- `decompose`, which returns `{ r1, r0 }`. -/
def decompose (r : Int) : Int × Int :=
  let rPlus := mod r Q
  let r0 := toInt32 (smod rPlus (2 * P.GAMMA2))
  if rPlus - r0 = Q - 1 then (0, toInt32 (r0 - 1))
  else (toInt32 (floorQuotient (rPlus - r0) (2 * P.GAMMA2)), r0)

def HighBits (r : Int) : Int := (decompose P r).1

def LowBits (r : Int) : Int := (decompose P r).2

def MakeHint (z r : Int) : Int :=
  if z ≤ P.GAMMA2 ∨ Q - P.GAMMA2 < z ∨ (z = Q - P.GAMMA2 ∧ r = 0) then 0 else 1

def HINT_M : Int := floorQuotient (Q - 1) (2 * P.GAMMA2)

def UseHint (h r : Int) : Int :=
  let (r1, r0) := decompose P r
  if h = 1 then
    (if 0 < r0 then toInt32 (mod (r1 + 1) (HINT_M P))
      else toInt32 (mod (r1 - 1) (HINT_M P)))
  else toInt32 r1

/-- `Power2Round`, which returns `{ r1, r0 }`. -/
def Power2Round (r : Int) : Int × Int :=
  let rPlus := mod r Q
  let r0 := toInt32 (smod rPlus (2 ^ D))
  (toInt32 (floorQuotient (rPlus - r0) (2 ^ D)), r0)

/-- `polyPowerRound`, which returns `{ r0, r1 }`. -/
def polyPowerRound (p : Poly) : Poly × Poly :=
  (mapPoly (fun x => (Power2Round x).2) p,
    mapPoly (fun x => (Power2Round x).1) p)

def polyUseHint (u h : Poly) : Poly :=
  loop N (fun i u => set u i (UseHint P (get h i) (get u i))) u

/-- `polyMakeHint`, which returns `{ v, cnt }`. -/
def polyMakeHint (a b : Poly) : Poly × Int :=
  loop N
    (fun i (v, cnt) =>
      let h := MakeHint P (get a i) (get b i)
      (set v i h, cnt + h))
    (newPoly, 0)

-- ============================================================== coders

/-- The loops of `hintCoder.encode`. -/
def hintBytes (h : List Poly) : Nat × Vector UInt8 (P.OMEGA + P.K) :=
  loop P.K
    (fun i s =>
      let (k, res) := loop N
        (fun j (k, res) =>
          if get (nth h i) j ≠ 0 then (k + 1, set res k j) else (k, res))
        s
      (k, set res (P.OMEGA + i) k))
    (0, zeros UInt8 _)

/-- `bytes[i]`. -/
def byteAt (bytes : Bytes) (i : Nat) : Nat := (bytes.getD i 0).toNat

/-- One row of `hintCoder.decode`, of the positions from `k` to `stop`; an
error is `return false`. -/
def hintRow (buf : Bytes) (k stop : Nat) : Except Unit Poly :=
  loopM (stop - k)
    (fun n hi =>
      let j := k + n
      if k < j ∧ byteAt buf j ≤ byteAt buf (j - 1) then .error ()
      else .ok (set hi (byteAt buf j) 1))
    newPoly

/-- The loops of `hintCoder.decode`. -/
def hintRows (buf : Bytes) : Except Unit (List Poly) := do
  let (k, h) ← loopM P.K
    (fun i (k, h) => do
      let stop := byteAt buf (P.OMEGA + i)
      if stop < k ∨ P.OMEGA < stop then throw ()
      let hi ← hintRow buf k stop
      return (stop, h ++ [hi]))
    (0, [])
  if (List.range (P.OMEGA - k)).any fun n => decide (byteAt buf (k + n) ≠ 0)
  then throw ()
  return h

/-- `hintCoder`; `none` is `false`. -/
def hintCoder : Coder (Option (List Poly)) where
  bytesLen := P.OMEGA + P.K
  encode h :=
    match h with
    | none => raise (error (js "hint.encode: hint is false"))
    | some h => .ok (hintBytes P h).2.toList
  decode buf := .ok (hintRows P buf).toOption

/-- The check of `ETACoder`. -/
def verifyEta (i : Int) : Run Int :=
  if -P.ETA ≤ i ∧ i ≤ P.ETA then .ok i
  else raise (error (js "malformed key s1/s3 " ++ intText i
    ++ js " outside of ETA range [" ++ intText (-P.ETA) ++ js ", "
    ++ intText P.ETA ++ js "]"))

def ETACoder : Coder Poly :=
  polyCoder (if P.ETA = 2 then 3 else 4) (fun i => P.ETA - i) (verifyEta P)

def T0Coder : Coder Poly :=
  polyCoder 13 (fun i => shl 1 (D - 1) - i) pure

def T1Coder : Coder Poly := polyCoder 10 id pure

def ZCoder : Coder Poly :=
  polyCoder (if P.GAMMA1 = 2 ^ 17 then 18 else 20)
    (fun i => smod (P.GAMMA1 - i) Q) pure

def W1Coder : Coder Poly :=
  polyCoder (if P.GAMMA2 = GAMMA2_1 then 6 else 4) id pure

def W1Vec : Coder (List Poly) := vecCoder (W1Coder P) P.K

def publicCoder : Coder (Bytes × List Poly × Unit) :=
  splitCoder (js "publicKey") (.raw 32 (.coder (vecCoder T1Coder P.K) .nil))

def secretCoder : Coder
    (Bytes × Bytes × Bytes × List Poly × List Poly × List Poly × Unit) :=
  splitCoder (js "secretKey") (.raw 32 (.raw 32 (.raw TR_BYTES
    (.coder (vecCoder (ETACoder P) P.L) (.coder (vecCoder (ETACoder P) P.K)
      (.coder (vecCoder T0Coder P.K) .nil))))))

def sigCoder : Coder
    (Bytes × List Poly × Option (List Poly) × Unit) :=
  splitCoder (js "signature") (.raw P.C_TILDE_BYTES
    (.coder (vecCoder (ZCoder P) P.L) (.coder (hintCoder P) .nil)))

def seedCoder : Coder (Bytes × Bytes × Bytes × Unit) :=
  splitCoder (js "seed") (.raw 32 (.raw 64 (.raw 32 .nil)))

-- ================================================================ keys

structure KeyPair where
  publicKey : Bytes
  secretKey : Bytes

/-- One row of the matrix times a vector, both transforms. The entries of
the row are sampled on the way. -/
def rowTimes (h : Hashes) (fuel : Nat) (rho : Bytes) (i : Nat)
    (vHat : List Poly) : Run Poly :=
  loopM P.L
    (fun j t => do
      let aij ← RejNTTPoly fuel (XOF128 h rho j i)
      return polyAdd t (MultiplyNTTs aij (nth vHat j)))
    newPoly

/-- `internal.keygen`, of a given seed. -/
def keygen (h : Hashes) (fuel : Nat) (seed : Bytes) : Run KeyPair := do
  abytes seed 32 (js "seed")
  let seedDst := seed ++ [P.K.toUInt8, P.L.toUInt8]
  let (rho, rhoPrime, K_, _) ← seedCoder.decode
    (squeeze (h.shake256 seedDst) seedCoder.bytesLen)
  let noise := fun i => RejBoundedPoly P fuel
    (XOF256 h shake256BlockLen rhoPrime (i &&& 0xff) ((i >>> 8) &&& 0xff))
  let s1 ← (List.range P.L).mapM noise
  let s2 ← (List.range P.K).mapM fun i => noise (P.L + i)
  let s1Hat := s1.map crystals.encode
  let rounded ← (List.range P.K).mapM fun i => do
    let t ← rowTimes P h fuel rho i s1Hat
    return polyPowerRound (polyAdd (crystals.decode t) (nth s2 i))
  let t0 := rounded.map (·.1)
  let t1 := rounded.map (·.2)
  let publicKey ← (publicCoder P).encode (rho, t1, ())
  let tr := squeeze (h.shake256 publicKey) TR_BYTES
  let secretKey ← (secretCoder P).encode (rho, K_, tr, s1, s2, t0, ())
  return { publicKey := publicKey, secretKey := secretKey }

/-- `internal.getPublicKey`. -/
def getPublicKey (h : Hashes) (fuel : Nat) (secretKey : Bytes) :
    Run Bytes := do
  let (rho, _, _, s1, s2, _, _) ← (secretCoder P).decode secretKey
  let s1Hat := s1.map crystals.encode
  let t1 ← (List.range P.K).mapM fun i => do
    let t ← rowTimes P h fuel rho i s1Hat
    return (polyPowerRound (polyAdd (crystals.decode t) (nth s2 i))).2
  (publicCoder P).encode (rho, t1, ())

-- ============================================================= signing

/-- What the signing loop works with; matrix and keys are transforms. -/
structure Signing where
  A : List (List Poly)
  s1 : List Poly
  s2 : List Poly
  t0 : List Poly
  mu : Bytes
  rhoprime : Bytes

/-- One row of the hint, unless the signature is rejected for it; an error
is `continue mainLoop`. -/
def hintOf (s : Signing) (cHat : Poly) (w w1 : List Poly) (i : Nat) :
    Except Unit (Poly × Int) :=
  let cs2 := crystals.decode (MultiplyNTTs (nth s.s2 i) cHat)
  let r0 := mapPoly (LowBits P) (polySub (nth w i) cs2)
  if polyChknorm r0 (P.GAMMA2 - P.BETA) then .error ()
  else
    let ct0 := crystals.decode (MultiplyNTTs (nth s.t0 i) cHat)
    if polyChknorm ct0 P.GAMMA2 then .error ()
    else .ok (polyMakeHint P (polyAdd r0 ct0) (nth w1 i))

/-- One pass of the rejection sampling loop; `none` is `continue`. -/
def attempt (h : Hashes) (fuel : Nat) (s : Signing) (kappa : Nat) :
    Run (Option Bytes) := do
  let y ← (List.range P.L).mapM fun i => (ZCoder P).decode
    (XOF256 h (ZCoder P).bytesLen s.rhoprime ((kappa + i) &&& 0xff)
      ((kappa + i) >>> 8) 0)
  let z := y.map crystals.encode
  let w := (List.range P.K).map fun i => crystals.decode
    (loop P.L
      (fun j wi => polyAdd wi (MultiplyNTTs (nth (s.A.getD i []) j) (nth z j)))
      newPoly)
  let w1 := w.map (mapPoly (HighBits P))
  let cTilde := squeeze (h.shake256 (s.mu ++ (← (W1Vec P).encode w1)))
    P.C_TILDE_BYTES
  let cHat := crystals.encode (← SampleInBall P h fuel cTilde)
  let cs1 := (List.range P.L).map fun i => polyAdd
    (crystals.decode (MultiplyNTTs (nth s.s1 i) cHat)) (nth y i)
  if cs1.any (polyChknorm · (P.GAMMA1 - P.BETA)) then return none
  match (List.range P.K).mapM (hintOf P s cHat w w1) with
  | .error () => return none
  | .ok hints =>
      if (P.OMEGA : Int) < (hints.map (·.2)).sum then return none
      return some (← (sigCoder P).encode (cTilde, cs1, some (hints.map (·.1)), ()))

/-- The rejection sampling loop. -/
def signLoop (h : Hashes) (fuel : Nat) (s : Signing) :
    (passes kappa : Nat) → Run Bytes
  | 0, _ => .error .outOfFuel
  | passes + 1, kappa => do
      match ← attempt P h fuel s kappa with
      | some res => return res
      | none => signLoop h fuel s passes (kappa + P.L)

/-- The message representative. -/
def messageOf (h : Hashes) (externalMu : Bool) (tr msg : Bytes) : Bytes :=
  if externalMu then msg else squeeze (h.shake256 (tr ++ msg)) CRH_BYTES

/-- The check of a message that is a representative itself. -/
def checkMu (externalMu : Bool) (msg : Bytes) : Run Unit :=
  if externalMu then abytes msg CRH_BYTES (js "mu") else .ok ()

/-- `internal.sign`. -/
def internalSign (h : Hashes) (fuel : Nat) (msg secretKey rnd : Bytes)
    (externalMu : Bool) : Run Bytes := do
  checkMu externalMu msg
  abytes rnd 32 (js "extraEntropy")
  let (rho, _K, tr, s1, s2, t0, _) ← (secretCoder P).decode secretKey
  let A ← (List.range P.K).mapM fun i => (List.range P.L).mapM fun j =>
    RejNTTPoly fuel (XOF128 h rho j i)
  let mu := messageOf h externalMu tr msg
  let rhoprime := squeeze (h.shake256 (_K ++ rnd ++ mu)) CRH_BYTES
  abytes rhoprime CRH_BYTES []
  signLoop P h fuel
    { A := A
      s1 := s1.map crystals.encode
      s2 := s2.map crystals.encode
      t0 := t0.map crystals.encode
      mu := mu
      rhoprime := rhoprime } fuel 0

/-- `internal.verify`. -/
def internalVerify (h : Hashes) (fuel : Nat) (sig msg publicKey : Bytes)
    (externalMu : Bool) : Run Bool := do
  checkMu externalMu msg
  let (rho, t1, _) ← (publicCoder P).decode publicKey
  let tr := squeeze (h.shake256 publicKey) TR_BYTES
  if sig.length ≠ (sigCoder P).bytesLen then return false
  let (cTilde, z, hints, _) ← (sigCoder P).decode sig
  match hints with
  | none => return false
  | some hints =>
      if z.any (polyChknorm · (P.GAMMA1 - P.BETA)) then return false
      let mu := messageOf h externalMu tr msg
      let c := crystals.encode (← SampleInBall P h fuel cTilde)
      let zNtt := z.map crystals.encode
      let wTick1 ← (List.range P.K).mapM fun i => do
        let ct12d := MultiplyNTTs (crystals.encode (polyShiftl (nth t1 i))) c
        let Az ← rowTimes P h fuel rho i zNtt
        let wApprox := crystals.decode (polySub Az ct12d)
        return polyUseHint P wApprox (nth hints i)
      let c2 := squeeze (h.shake256 (mu ++ (← (W1Vec P).encode wTick1)))
        P.C_TILDE_BYTES
      if hints.any fun t => !decide
          (((List.range N).map (get t)).sum ≤ (P.OMEGA : Int)) then
        return false
      if z.any (polyChknorm · (P.GAMMA1 - P.BETA)) then return false
      return equalBytes cTilde c2

-- ============================================================== public

/-- `sign`. -/
def sign (h : Hashes) (fuel : Nat) (msg secretKey context rnd : Bytes) :
    Run Bytes := do
  let M ← getMessage msg context
  internalSign P h fuel M secretKey rnd false

/-- `verify`. -/
def verify (h : Hashes) (fuel : Nat) (sig msg publicKey context : Bytes) :
    Run Bool := do
  internalVerify P h fuel sig (← getMessage msg context) publicKey false

end KxcoPostQuantum.Vendor.MlDsa
