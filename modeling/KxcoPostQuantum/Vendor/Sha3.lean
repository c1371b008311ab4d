/-
vendor/hashes/sha3.js: the permutation, and the sponge with its two
positions.

The code has the state twice, as bytes and as the words `state32` of the
same buffer. Here a word is read from its bytes and written to them, low
byte first, which is what `swap32IfBE` makes of it on any host.

`Options` are what the constructor is given, with the range of the block
length, which it checks, and that of the rounds, which `keccakP` checks and
throws outside of; what the module makes has 24. A `Keccak` carries that
`pos` is inside of a block. Whether `update` may read its argument by words
depends on where it is in its buffer, so that is an argument.
-/
import KxcoPostQuantum.Vendor.Utils
import KxcoPostQuantum.Lib.Loop

namespace KxcoPostQuantum.Vendor.Sha3

open Lib (loop load store)

-- ============================================================== tables

/-- The variables of the loop that makes the tables. -/
structure Tables where
  x : Nat := 1
  y : Nat := 0
  R : Nat := 1
  PI : List Nat := []
  ROTL : List Nat := []
  IOTA : List Nat := []

/-- The inner loop, which makes `t` of seven steps of the register. -/
def iota (R : Nat) : Nat × Nat :=
  loop 7
    (fun j (R, t) =>
      let R := ((R <<< 1) ^^^ ((R >>> 7) * 0x71)) % 256
      (R, if R &&& 2 ≠ 0 then t ^^^ (1 <<< ((1 <<< j) - 1)) else t))
    (R, 0)

def tables : Tables :=
  loop 24
    (fun round s =>
      let x := s.y
      let y := (2 * s.x + 3 * s.y) % 5
      {
        x := x
        y := y
        R := (iota s.R).1
        PI := s.PI ++ [2 * (5 * y + x)]
        ROTL := s.ROTL ++ [(round + 1) * (round + 2) / 2 % 64]
        IOTA := s.IOTA ++ [(iota s.R).2] })
    {}

def SHA3_PI (t : Nat) : Nat := tables.PI.getD t 0

def SHA3_ROTL (t : Nat) : Nat := tables.ROTL.getD t 0

/-- The halves of `split`, the low one first. -/
def SHA3_IOTA_H (round : Nat) : UInt32 := (tables.IOTA.getD round 0).toUInt32

def SHA3_IOTA_L (round : Nat) : UInt32 :=
  (tables.IOTA.getD round 0 >>> 32).toUInt32

-- ========================================================= permutation

/-- `state32`. -/
abbrev Words : Type := Vector UInt32 50

def rotlH (h l : UInt32) (s : Nat) : UInt32 :=
  if 32 < s then (l <<< (s - 32).toUInt32) ||| (h >>> (64 - s).toUInt32)
  else (h <<< s.toUInt32) ||| (l >>> (32 - s).toUInt32)

def rotlL (h l : UInt32) (s : Nat) : UInt32 :=
  if 32 < s then (h <<< (s - 32).toUInt32) ||| (l >>> (64 - s).toUInt32)
  else (l <<< s.toUInt32) ||| (h >>> (32 - s).toUInt32)

/-- `s[i] ^= w`. -/
def xorWord (s : Words) (i : Nat) (w : UInt32) : Words :=
  store s i (load s i ^^^ w)

def theta (s : Words) : Words :=
  let B : Vector UInt32 10 := Vector.ofFn fun x =>
    load s x ^^^ load s (x + 10) ^^^ load s (x + 20) ^^^ load s (x + 30)
      ^^^ load s (x + 40)
  loop 5
    (fun k s =>
      let x := 2 * k
      let idx1 := (x + 8) % 10
      let idx0 := (x + 2) % 10
      let B0 := load B idx0
      let B1 := load B (idx0 + 1)
      let Th := rotlH B0 B1 1 ^^^ load B idx1
      let Tl := rotlL B0 B1 1 ^^^ load B (idx1 + 1)
      loop 5
        (fun m s => xorWord (xorWord s (x + 10 * m) Th) (x + 10 * m + 1) Tl) s)
    s

def rhoPi (s : Words) : Words :=
  (loop 24
    (fun t (s, curH, curL) =>
      let shift := SHA3_ROTL t
      let Th := rotlH curH curL shift
      let Tl := rotlL curH curL shift
      let PI := SHA3_PI t
      (store (store s PI Th) (PI + 1) Tl, load s PI, load s (PI + 1)))
    (s, load s 2, load s 3)).1

def chi (s : Words) : Words :=
  loop 5
    (fun k s =>
      let y := 10 * k
      let b0 := load s y
      let b1 := load s (y + 1)
      let b2 := load s (y + 2)
      let b3 := load s (y + 3)
      -- the words behind are those of before where they are read
      let s := loop 6
        (fun i s => xorWord s (y + i)
          (~~~load s (y + i + 2) &&& load s (y + i + 4))) s
      let s := xorWord s (y + 6) (~~~load s (y + 8) &&& b0)
      let s := xorWord s (y + 7) (~~~load s (y + 9) &&& b1)
      let s := xorWord s (y + 8) (~~~b0 &&& b2)
      xorWord s (y + 9) (~~~b1 &&& b3))
    s

/-- `keccakP`, of rounds from 1 to 24. -/
def keccakP (s : Words) (rounds : Nat) : Words :=
  loop rounds
    (fun i s =>
      let round := 24 - rounds + i
      let s := chi (rhoPi (theta s))
      xorWord (xorWord s 0 (SHA3_IOTA_H round)) 1 (SHA3_IOTA_L round))
    s

-- =============================================================== state

abbrev State : Type := Vector UInt8 200

/-- A word of four bytes, the low one first. -/
def wordOf (b0 b1 b2 b3 : UInt8) : UInt32 :=
  ⟨b3.toBitVec ++ b2.toBitVec ++ b1.toBitVec ++ b0.toBitVec⟩

def byteOf (w : UInt32) (k : Nat) : UInt8 := ⟨w.toBitVec.extractLsb' (8 * k) 8⟩

/-- `state32[i]`. -/
def word (s : State) (i : Nat) : UInt32 :=
  wordOf (load s (4 * i)) (load s (4 * i + 1)) (load s (4 * i + 2))
    (load s (4 * i + 3))

/-- `state32[i] = w`. -/
def setWord (s : State) (i : Nat) (w : UInt32) : State :=
  loop 4 (fun k s => store s (4 * i + k) (byteOf w k)) s

/-- `state[i] ^= b`. -/
def xorByte (s : State) (i : Nat) (b : UInt8) : State :=
  store s i (load s i ^^^ b)

/-- The loop over the bytes that are taken. -/
def xorBytes (s : State) (i : Nat) : Bytes → State
  | [] => s
  | b :: rest => xorBytes (xorByte s i b) (i + 1) rest

/-- The loop over the words of a block. -/
def xorWords (s : State) (i : Nat) : Bytes → State
  | b0 :: b1 :: b2 :: b3 :: rest =>
      xorWords (setWord s i (word s i ^^^ wordOf b0 b1 b2 b3)) (i + 1) rest
  | _ => s

/-- What `keccak` makes of the state. -/
def permute (rounds : Nat) (s : State) : State :=
  let w := keccakP (Vector.ofFn fun i => word s i) rounds
  Vector.ofFn fun i => byteOf (load w (i / 4)) (i % 4)

-- ============================================================== sponge

/-- What the constructor is given, where it does not throw and the
permutation does not either. -/
structure Options where
  blockLen : Nat
  suffix : UInt8
  outputLen : Nat
  enableXOF : Bool
  rounds : Nat
  blockLen_range : 0 < blockLen ∧ blockLen < 200
  rounds_range : 1 ≤ rounds ∧ rounds ≤ 24

/-- The instances, those of `shake` with the length that is asked for. -/
def sha3_256 : Options where
  blockLen := 136
  suffix := 0x06
  outputLen := 32
  enableXOF := false
  rounds := 24
  blockLen_range := by decide
  rounds_range := by decide

def sha3_512 : Options where
  blockLen := 72
  suffix := 0x06
  outputLen := 64
  enableXOF := false
  rounds := 24
  blockLen_range := by decide
  rounds_range := by decide

def shake128 (dkLen : Nat) : Options where
  blockLen := 168
  suffix := 0x1f
  outputLen := dkLen
  enableXOF := true
  rounds := 24
  blockLen_range := by decide
  rounds_range := by decide

def shake256 (dkLen : Nat) : Options where
  blockLen := 136
  suffix := 0x1f
  outputLen := dkLen
  enableXOF := true
  rounds := 24
  blockLen_range := by decide
  rounds_range := by decide

/-- The class, with the options it has been made with. -/
structure Keccak (o : Options) where
  state : State
  pos : Nat
  posOut : Nat
  finished : Bool
  destroyed : Bool
  pos_lt : pos < o.blockLen

namespace Keccak

variable {o : Options}

def create (o : Options) : Keccak o where
  state := Vector.replicate 200 0
  pos := 0
  posOut := 0
  finished := false
  destroyed := false
  pos_lt := o.blockLen_range.1

/-- `keccak`, of a state that is to be permuted. -/
def keccak (c : Keccak o) (state : State) : Keccak o where
  state := permute o.rounds state
  pos := 0
  posOut := 0
  finished := c.finished
  destroyed := c.destroyed
  pos_lt := o.blockLen_range.1

/-- `aexists`. -/
def aexists (c : Keccak o) (checkFinished : Bool) : Run Unit :=
  if c.destroyed then raise (error (js "hash was destroyed"))
  else if checkFinished && c.finished then
    raise (error (js "digest() was already called"))
  else .ok ()

/-- Bytes have been taken into the block, which is permuted if it is
full. -/
def taken (c : Keccak o) (state : State) (take : Nat)
    (h : c.pos + take ≤ o.blockLen) : Keccak o :=
  if hfull : c.pos + take = o.blockLen then c.keccak state
  else {
    state := state
    pos := c.pos + take
    posOut := c.posOut
    finished := c.finished
    destroyed := c.destroyed
    pos_lt := by omega }

/-- The loop of `update`, of what is left of the data at `pos`. -/
def updateLoop (canUseU32 : Bool) (pos : Nat) (rest : Bytes) (c : Keccak o) :
    Keccak o :=
  if hrest : rest.length = 0 then c
  else if canUseU32 ∧ c.pos = 0 ∧ pos % 4 = 0 ∧ o.blockLen ≤ rest.length then
    updateLoop canUseU32 (pos + o.blockLen) (rest.drop o.blockLen)
      (c.keccak (xorWords c.state 0 (rest.take o.blockLen)))
  else
    let take := min (o.blockLen - c.pos) rest.length
    have htake : c.pos + take ≤ o.blockLen := by
      have := c.pos_lt
      omega
    have hpos : 0 < take := by
      have := c.pos_lt
      omega
    updateLoop canUseU32 (pos + take) (rest.drop take)
      (c.taken (xorBytes c.state c.pos (rest.take take)) take htake)
termination_by rest.length
decreasing_by
  all_goals
    have := o.blockLen_range.1
    rw [List.length_drop]
    omega

/-- `update`, of data that is at a multiple of four or not. -/
def update (c : Keccak o) (data : Bytes) (aligned : Bool) : Run (Keccak o) := do
  c.aexists true
  return updateLoop (decide (o.blockLen % 4 = 0) && aligned) 0 data c

def finish (c : Keccak o) : Keccak o :=
  if c.finished then c
  else
    let state := xorByte c.state c.pos o.suffix
    let state :=
      if o.suffix &&& 0x80 ≠ 0 ∧ c.pos = o.blockLen - 1 then
        permute o.rounds state
      else state
    { c.keccak (xorByte state (o.blockLen - 1) 0x80) with finished := true }

/-- The state is permuted where all of it has been read. -/
def ready (c : Keccak o) : Keccak o :=
  if o.blockLen ≤ c.posOut then c.keccak c.state else c

theorem ready_posOut (c : Keccak o) : c.ready.posOut < o.blockLen := by
  unfold ready
  split
  next => exact o.blockLen_range.1
  next h => exact not_le.mp h

/-- `posOut` behind what has been read. -/
def advance (c : Keccak o) (take : Nat) : Keccak o where
  state := c.state
  pos := c.pos
  posOut := c.posOut + take
  finished := c.finished
  destroyed := c.destroyed
  pos_lt := c.pos_lt

/-- The loop of `writeInto`, of `len` bytes that are left. -/
def writeLoop (len : Nat) (c : Keccak o) : Bytes × Keccak o :=
  if hlen : len = 0 then ([], c)
  else
    let take := min (o.blockLen - c.ready.posOut) len
    have htake : 0 < take := by
      have := c.ready_posOut
      omega
    let r := writeLoop (len - take) (c.ready.advance take)
    ((List.range take).map (fun i => load c.ready.state (c.ready.posOut + i))
      ++ r.1, r.2)
termination_by len

/-- `writeInto`, of an array of the length. -/
def writeInto (c : Keccak o) (len : Nat) : Run (Bytes × Keccak o) := do
  c.aexists false
  return writeLoop len c.finish

/-- `xofInto`, and `xof`. -/
def xofInto (c : Keccak o) (len : Nat) : Run (Bytes × Keccak o) :=
  if !o.enableXOF then raise (error (js "XOF is not enabled"))
  else c.writeInto len

def destroy (c : Keccak o) : Keccak o where
  state := Vector.replicate 200 0
  pos := c.pos
  posOut := c.posOut
  finished := c.finished
  destroyed := true
  pos_lt := c.pos_lt

/-- `digest`, whose array has the length `digestInto` asks for. -/
def digest (c : Keccak o) : Run (Bytes × Keccak o) := do
  if c.finished then raise (error (js "digest() was already called"))
  else
    let (out, c) ← c.writeInto o.outputLen
    return (out, c.destroy)

end Keccak

end KxcoPostQuantum.Vendor.Sha3
