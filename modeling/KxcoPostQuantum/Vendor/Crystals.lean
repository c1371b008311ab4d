/-
vendor/post-quantum/_crystals.js: what the two lattice schemes share.

`CrystalOpts` are the options of `genCrystals`, and the functions it
returns are functions of them. Polynomials are typed arrays of `N` slots,
of the element type that `newPoly` gives them.

An extendable-output function is the stream of bytes it makes of a message,
and a reader of it gives out one block a call. The readers of the source
share one buffer and one state; each is read to its end before the next is
asked for, so they are separate here.
-/
import KxcoPostQuantum.Vendor.Fft
import KxcoPostQuantum.Vendor.Utils

namespace KxcoPostQuantum.Vendor

open Lib (loop loopM)

-- =========================================================== arithmetic

/-- The options of `genCrystals`. -/
structure CrystalOpts where
  Q : Int
  F : Int
  ROOT_OF_UNITY : Nat
  brvBits : Nat
  isKyber : Bool

/-- `mod`. -/
def mod (a modulo : Int) : Int :=
  let result := toInt32 (a.tmod modulo)
  toInt32 (if 0 ≤ result then toInt32 result else toInt32 (modulo + result))

/-- `smod`. -/
def smod (a modulo : Int) : Int :=
  let r := toInt32 (mod a modulo)
  toInt32 (if shr modulo 1 < r then toInt32 (r - modulo) else r)

namespace CrystalOpts

variable (o : CrystalOpts) {ε : Type} [ArrayElement ε] {N : Nat}

/-- `getZettas`. -/
def getZettas (ε : Type) [ArrayElement ε] (N : Nat) : Vector ε N :=
  loop N
    (fun i out =>
      let b := reverseBits i.toUInt32 o.brvBits
      let p := ((o.ROOT_OF_UNITY ^ b : Nat) : Int) % o.Q
      set out i (toInt32 p))
    (zeros ε N)

/-- `field`. -/
def field : FieldOps :=
  if o.isKyber then
    { add := fun a b =>
        let r := toInt32 (a + b)
        if o.Q ≤ r then toInt32 (r - o.Q) else r
      sub := fun a b =>
        let r := toInt32 (a - b)
        if r < 0 then toInt32 (r + o.Q) else r
      mul := fun a b => toInt32 (mod (times (toInt32 a) (toInt32 b)) o.Q) }
  else
    { add := fun a b => toInt32 (mod (toInt32 a + toInt32 b) o.Q)
      sub := fun a b => toInt32 (mod (toInt32 a - toInt32 b) o.Q)
      mul := fun a b => toInt32 (mod (times (toInt32 a) (toInt32 b)) o.Q) }

/-- `nttOpts`, with the direction. -/
def nttOpts (ε : Type) [ArrayElement ε] (N : Nat) (dit : Bool) : CoreOpts ε N where
  roots := (o.getZettas ε N).toArray
  dit := dit
  invertButterflies := true
  skipStages := if o.isKyber then 1 else 0
  brp := false

/-- `NTT.encode`. -/
def encode (r : Vector ε N) : Vector ε N :=
  core o.field (o.nttOpts ε N false) r

/-- `NTT.decode`. -/
def decode (r : Vector ε N) : Vector ε N :=
  loop N (fun i r => set r i (mod (times o.F (get r i)) o.Q))
    (core o.field (o.nttOpts ε N true) r)

end CrystalOpts

-- ============================================================== packing

/-- How a coefficient becomes a word of a packing, and back. -/
structure CoefCoder where
  encode : Int → Run JsNumber
  decode : Int → Run Int

/-- The variables of a packing loop. -/
structure Packing (α : Type) (n : Nat) where
  out : Vector α n
  buf : Int := 0
  bufLen : Nat := 0
  pos : Nat := 0

/-- The inner loop of `encode`. -/
def flushBytes {n : Nat} (s : Packing UInt8 n) : Packing UInt8 n :=
  if 8 ≤ s.bufLen then
    flushBytes
      { out := set s.out s.pos (bitAnd s.buf 0xff)
        buf := shr s.buf 8
        bufLen := s.bufLen - 8
        pos := s.pos + 1 }
  else s
termination_by s.bufLen

section

variable {ε : Type} [ArrayElement ε] {N : Nat}

/-- The inner loop of `decode`, for words that have bits. -/
def flushWords (d : Nat) (c : CoefCoder) (s : Packing ε N) :
    Run (Packing ε N) :=
  if 0 < d ∧ d ≤ s.bufLen then do
    let word ← c.decode (bitAnd s.buf (lowMask d))
    flushWords d c
      { out := set s.out s.pos word
        buf := shr s.buf d
        bufLen := s.bufLen - d
        pos := s.pos + 1 }
  else .ok s
termination_by s.bufLen

/-- What `bitsCoder` returns. -/
def packed (d : Nat) (c : CoefCoder) : Coder (Vector ε N) where
  bytesLen := d * (N / 8)
  encode poly := do
    let s ← loopM N
      (fun i (s : Packing UInt8 (d * (N / 8))) => do
        let word ← c.encode (get poly i)
        let bits := bitAnd word.truncate (lowMask d)
        return flushBytes { s with
          buf := bitOr s.buf (shl bits s.bufLen)
          bufLen := s.bufLen + d })
      { out := zeros UInt8 _ }
    return s.out.toList
  decode bytes := do
    let s ← loopM bytes.length
      (fun i (s : Packing ε N) => flushWords d c { s with
        buf := bitOr s.buf (shl (bytes.getD i 0).toNat s.bufLen)
        bufLen := s.bufLen + 8 })
      { out := zeros ε N }
    return s.out

/-- `bitsCoder`, which validates the carry shape first. -/
def bitsCoder (d : Nat) (c : CoefCoder) : Run (Coder (Vector ε N)) := do
  let _ ← loopM N
    (fun _ (bufLen : Nat) => do
      let bufLen := bufLen + d
      if 32 < bufLen then
        let _ ← getMask bufLen
      return bufLen % 8)
    0
  let _ ← getMask d
  return packed d c

end

-- =============================================================== hashes

/-- The hash functions of the schemes, by what they make of a message. -/
structure Hashes where
  shake128 : Bytes → Nat → UInt8
  shake256 : Bytes → Nat → UInt8
  sha3_256 : Bytes → Vector UInt8 32
  sha3_512 : Bytes → Vector UInt8 64

/-- `shake128.blockLen` and `shake256.blockLen`. -/
def shake128BlockLen : Nat := 168

def shake256BlockLen : Nat := 136

/-- The first bytes of a stream. -/
def squeeze (stream : Nat → UInt8) (length : Nat) : Bytes :=
  (List.range length).map stream

@[simp] theorem length_squeeze (stream : Nat → UInt8) (length : Nat) :
    (squeeze stream length).length = length := by
  unfold squeeze
  rw [List.length_map, List.length_range]

/-- `createXofShake`: the block a reader of the coordinates `x` and `y`
gives out at a call. A block length of zero, or none, is read as that of
the hash; here it is the length that is meant. -/
def createXofShake (shake : Bytes → Nat → UInt8) (blockLen : Nat)
    (seed : Bytes) (x y call : Nat) : Bytes :=
  squeeze
    (fun i => shake (seed ++ [x.toUInt8, y.toUInt8]) (call * blockLen + i))
    blockLen

/-- `XOF128`. -/
def XOF128 (h : Hashes) (seed : Bytes) : (x y call : Nat) → Bytes :=
  createXofShake h.shake128 shake128BlockLen seed

/-- `XOF256`, with the length of the blocks. -/
def XOF256 (h : Hashes) (blockLen : Nat) (seed : Bytes) :
    (x y call : Nat) → Bytes :=
  createXofShake h.shake256 blockLen seed

end KxcoPostQuantum.Vendor
