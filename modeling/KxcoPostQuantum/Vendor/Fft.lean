/-
vendor/curves/abstract/fft.js: the loop every transform runs through.

# What is modelled

Arrays are typed arrays of integers, and the operations of the field come
from the caller (`FieldOps`). What `FFTCore` checks of its options before
it returns the loop, and the error it throws, is `FFTCore`; the loop is
`core`. Arguments that `checkU32` rejects are not of their type here.

# The loop

`core` runs its stages from the nearest pairs to the farthest or the other
way round, as `dit` says, and may leave out those of the nearest. In a
stage a `butterfly` reads two slots and writes them again; `pair` is the numbers
it writes, in each of the three forms of the source. The slots of a stage
are disjoint, so their order shows nowhere; which root belongs to which is
an index into the table, bit-reversed or not (`root`).
-/
import KxcoPostQuantum.Js.Int32

namespace KxcoPostQuantum.Vendor

open Lib (loop)

-- =============================================================== indices

/-- `isPowerOfTwo`. -/
def isPowerOfTwo (x : Nat) : Bool := x &&& (x - 1) == 0 && x != 0

/-- `reverseBits`. -/
def reverseBits (n : UInt32) (bits : Nat) : Nat :=
  (loop bits
    (fun _ (s : UInt32 × UInt32) =>
      (s.1 <<< 1 ||| s.2 &&& 1, s.2 >>> 1)) (0, n)).1.toNat

/-- `log2`, of a number that is not zero. -/
def log2 (n : Nat) : Nat := n.log2

section

variable {ε : Type} [ArrayElement ε] {N : Nat}

/-- `bitReversalInplace`. -/
def bitReversalInplace (values : Vector ε N) : Vector ε N :=
  loop N
    (fun i values =>
      let j := reverseBits i.toUInt32 (log2 N)
      if i < j then
        let tmp := get values i
        set (set values i (get values j)) j tmp
      else values)
    values

-- ================================================================= loop

/-- The operations of a field. -/
structure FieldOps where
  add : Int → Int → Int
  sub : Int → Int → Int
  mul : Int → Int → Int

/-- The options of a transform of size `N`. -/
structure CoreOpts (ε : Type) (N : Nat) where
  roots : Array ε
  dit : Bool
  invertButterflies : Bool := false
  skipStages : Nat := 0
  brp : Bool := true

/-- `roots[i]`. -/
def CoreOpts.root (o : CoreOpts ε N) (i : Nat) : Int :=
  ArrayElement.number (o.roots.getD i default)

/-- What a butterfly makes of `values[i0]` and `values[i1]`. -/
def CoreOpts.pair (F : FieldOps) (o : CoreOpts ε N) (omega a b : Int) :
    Int × Int :=
  let isDit := o.dit != o.invertButterflies
  if isDit then
    let t := F.mul b omega
    (F.add a t, F.sub a t)
  else if o.invertButterflies then
    (F.add b a, F.mul (F.sub b a) omega)
  else
    (F.add a b, F.mul (F.sub a b) omega)

/-- The innermost pass, on two slots. -/
def butterfly (F : FieldOps) (o : CoreOpts ε N) (omega : Int) (i0 i1 : Nat)
    (values : Vector ε N) : Vector ε N :=
  let b := get values i1
  let a := get values i0
  let (x, y) := o.pair F omega a b
  set (set values i0 x) i1 y

/-- The passes of stage `i`, with the counter `g` of butterfly groups. -/
def stage (F : FieldOps) (o : CoreOpts ε N) (i : Nat)
    (state : Nat × Vector ε N) : Nat × Vector ε N :=
  let s := if o.dit then i + 1 + o.skipStages else log2 N - i
  let m := 2 ^ s
  let m2 := m / 2
  let stride := N / 2 ^ s
  loop (N / m)
    (fun block (g, values) =>
      let k := block * m
      let grp := g
      (g + 1,
        loop m2
          (fun j values =>
            let rootPos := if o.invertButterflies then
              (if o.dit then N - grp else grp) else j * stride
            butterfly F o (o.root rootPos) (k + j) (k + j + m2) values)
          values))
    state

/-- The function `FFTCore` returns. -/
def core (F : FieldOps) (o : CoreOpts ε N) (values : Vector ε N) :
    Vector ε N :=
  let values := if o.dit && o.brp then bitReversalInplace values else values
  let values := (loop (log2 N - o.skipStages) (stage F o) (1, values)).2
  if !o.dit && o.brp then bitReversalInplace values else values

/-- `FFTCore`. -/
def FFTCore (F : FieldOps) (o : CoreOpts ε N) :
    Except JsError (Vector ε N → Vector ε N) :=
  let bits := log2 N
  if !isPowerOfTwo N then
    .error (error (js "FFT: Polynomial size should be power of two"))
  else
    let maxSkipStages := if bits = 0 then 0 else bits - 1
    if maxSkipStages < o.skipStages then
      .error (error (js "FFT: wrong skipStages: expected 0 <= skipStages <= "
        ++ decimal maxSkipStages))
    else if o.roots.size ≠ N then
      .error (error (js "FFT: wrong roots length: expected "
        ++ decimal N ++ js ", got " ++ decimal o.roots.size))
    else .ok (core F o)

end

end KxcoPostQuantum.Vendor
