/-
Arrays of a fixed length that a loop fills.

A buffer begins as `List.replicate n z`. Filling it index by index makes
the list of what was written (`foldl_set_range`); copying piece behind
piece makes what was copied so far, with the rest of the buffer as it was
(`copyAt_front`).
-/
import Mathlib.Data.List.Range

namespace Lib.Buffer

variable {α : Type}

-- ======================================================== index by index

/-- The first `k` turns of the loop have set the first `k` elements, and the
others are as they were. By induction over the turns. -/
theorem foldl_set_prefix (f : Nat → α) (z : α) (k n : Nat) :
    (List.range k).foldl (fun b i => b.set i (f i))
        (List.replicate (k + n) z)
      = (List.range k).map f ++ List.replicate n z := by
  induction k generalizing n with
  | zero => rw [Nat.zero_add, List.range_zero, List.map_nil]; rfl
  | succ k ih =>
      have hlength : ((List.range k).map f).length = k := by simp
      rw [List.range_succ, List.foldl_append,
        show k + 1 + n = k + (n + 1) by omega, ih, List.replicate_succ,
        List.foldl_cons, List.foldl_nil, List.map_append]
      rw [List.set_append_right k _ hlength.le, hlength, Nat.sub_self,
        List.set_cons_zero, List.append_assoc]
      rfl

/-- **A loop over every index** leaves nothing of what was there. -/
theorem foldl_set_range (f : Nat → α) (z : α) (n : Nat) :
    (List.range n).foldl (fun b i => b.set i (f i)) (List.replicate n z)
      = (List.range n).map f := by
  have h := foldl_set_prefix f z n 0
  rwa [Nat.add_zero, List.replicate_zero, List.append_nil] at h

-- ======================================================== piece by piece

/-- `piece` written over a buffer from `offset` on. -/
def copyAt (buffer : List α) (offset : Nat) (piece : List α) : List α :=
  buffer.take offset ++ piece ++ buffer.drop (offset + piece.length)

/-- Behind what was copied so far. -/
theorem copyAt_front (front piece : List α) (z : α) (n : Nat) :
    copyAt (front ++ List.replicate (piece.length + n) z) front.length piece
      = (front ++ piece) ++ List.replicate n z := by
  unfold copyAt
  rw [List.take_left, ← List.drop_drop, List.drop_left, List.drop_replicate,
    Nat.add_sub_cancel_left]

end Lib.Buffer
