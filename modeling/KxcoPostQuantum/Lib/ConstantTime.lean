/-
Comparing two sequences of words without an early exit.

The loop gathers, by `or`, the differences of the words that stand in one
place. What it has gathered is zero over equal sequences only
(`gathered_eq_zero`), so behind a check of the lengths the comparison is
equality (`compared_iff`).
-/
import Mathlib.Logic.Basic

namespace Lib.ConstantTime

/-- `or` and `xor` are zero where those of machine words are. -/
class DiffWord (α : Type) [OrOp α] [XorOp α] [OfNat α 0] : Prop where
  or_eq_zero (x y : α) : x ||| y = 0 ↔ x = 0 ∧ y = 0
  xor_eq_zero (x y : α) : x ^^^ y = 0 ↔ x = y

instance : DiffWord UInt8 where
  or_eq_zero _ _ := UInt8.or_eq_zero_iff
  xor_eq_zero _ _ := UInt8.xor_eq_zero_iff

instance : DiffWord UInt16 where
  or_eq_zero _ _ := UInt16.or_eq_zero_iff
  xor_eq_zero _ _ := UInt16.xor_eq_zero_iff

variable {α : Type} [OrOp α] [XorOp α] [OfNat α 0] [DiffWord α] {a b : List α}

/-- The difference stays zero over equal words only: a bit that is set once
stays set, since the words are joined by `or`. -/
theorem gathered_eq_zero {diff : α} (hlength : a.length = b.length) :
    (a.zip b).foldl (fun diff x => diff ||| (x.1 ^^^ x.2)) diff = 0
      ↔ diff = 0 ∧ a = b := by
  induction a generalizing b diff with
  | nil =>
      obtain rfl := List.length_eq_zero_iff.mp hlength.symm
      exact (and_iff_left rfl).symm
  | cons x a ih =>
      cases b with
      | nil => cases hlength
      | cons y b =>
          rw [List.zip_cons_cons, List.foldl_cons,
            ih (Nat.succ.inj hlength), DiffWord.or_eq_zero,
            DiffWord.xor_eq_zero, List.cons.injEq, and_assoc]

/-- Behind a check of the lengths the comparison is equality. -/
theorem compared_iff {same : Bool}
    (hsame : same = true ↔
      (a.zip b).foldl (fun diff x => diff ||| (x.1 ^^^ x.2)) 0 = 0) :
    (if a.length ≠ b.length then false else same) = true ↔ a = b := by
  by_cases hlength : a.length = b.length
  · rw [if_neg (not_not_intro hlength), hsame, gathered_eq_zero hlength,
      and_iff_right rfl]
  · rw [if_pos hlength]
    apply iff_of_false Bool.false_ne_true
    rintro rfl
    exact hlength rfl

end Lib.ConstantTime
