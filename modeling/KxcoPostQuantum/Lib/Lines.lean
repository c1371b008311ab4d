/-
A stream cut into lines.

`cut sep` takes a text apart into its complete lines, each ended by a
separator, and the rest after the last separator. A reader that keeps the
rest and puts the next chunk behind it sees the lines of the whole stream
(`cut_append`): the lines do not depend on where the chunks end.

`firstLine` is one turn of a reader's loop, which takes the first line off
its buffer; it unrolls `cut` (`cut_of_some`).
-/
import Mathlib.Data.List.Basic

namespace Lib

variable {α : Type} [DecidableEq α] (sep : α)

/-- The complete lines of a text and the rest. -/
def cut : List α → List (List α) × List α
  | [] => ([], [])
  | c :: rest =>
      if c = sep then ([] :: (cut rest).1, (cut rest).2)
      else
        match (cut rest).1 with
        | [] => ([], c :: (cut rest).2)
        | line :: lines => ((c :: line) :: lines, (cut rest).2)

/-- The first line, and what stands behind its separator. -/
def firstLine : List α → Option (List α × List α)
  | [] => none
  | c :: rest =>
      if c = sep then some ([], rest)
      else (firstLine rest).map fun l => (c :: l.1, l.2)

variable {sep}

theorem firstLine_length {text line rest : List α}
    (h : firstLine sep text = some (line, rest)) :
    rest.length < text.length := by
  induction text generalizing line with
  | nil => cases h
  | cons c text ih =>
      rw [firstLine] at h
      split at h
      next =>
        cases h
        exact Nat.lt_succ_self _
      next =>
        obtain ⟨⟨line', rest'⟩, htail, heq⟩ := Option.map_eq_some_iff.mp h
        cases heq
        exact Nat.lt_succ_of_lt (ih htail)

theorem cut_of_none {text : List α} (h : firstLine sep text = none) :
    cut sep text = ([], text) := by
  induction text with
  | nil => rfl
  | cons c text ih =>
      rw [firstLine] at h
      split at h
      next => cases h
      next hc => rw [cut, if_neg hc, ih (Option.map_eq_none_iff.mp h)]

/-- Taking the first line off unrolls the cut: the line, and then the cut of
what is behind it. -/
theorem cut_of_some {text line rest : List α}
    (h : firstLine sep text = some (line, rest)) :
    cut sep text = (line :: (cut sep rest).1, (cut sep rest).2) := by
  induction text generalizing line with
  | nil => cases h
  | cons c text ih =>
      rw [firstLine] at h
      split at h
      next hc =>
        cases h
        rw [cut, if_pos hc]
      next hc =>
        obtain ⟨⟨line', rest'⟩, htail, heq⟩ := Option.map_eq_some_iff.mp h
        cases heq
        rw [cut, if_neg hc, ih htail]

/-- **Cutting a stream.** The lines of two chunks are those of the first
and those of its rest with the second. -/
theorem cut_append (a b : List α) :
    cut sep (a ++ b)
      = ((cut sep a).1 ++ (cut sep ((cut sep a).2 ++ b)).1,
        (cut sep ((cut sep a).2 ++ b)).2) := by
  induction a with
  | nil => rfl
  | cons c a ih =>
      rw [List.cons_append, cut]
      conv_rhs => rw [cut]
      split
      next =>
        rw [ih]
        rfl
      next hc =>
        rw [ih]
        cases hlines : (cut sep a).1 with
        | nil =>
            simp only [List.nil_append, List.cons_append]
            conv_rhs => rw [cut, if_neg hc]
        | cons line lines => rfl

end Lib
