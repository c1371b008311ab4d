/-
A sponge: a state that symbols are put into one after another, and permuted
whenever a block of `rate` of them is full; symbols are read from it in the
same way.

Symbols are put in one by one, so it makes no difference how what is
absorbed has been cut up (`absorb_append`). A part of a block that is put in
at once is what its symbols are one by one (`absorb_short`, `absorb_full`).
What is read is a stream, the symbol `i` of which is the symbol `i % rate` of
the state behind `i / rate` permutations (`stream_add`).
-/
import Mathlib.Logic.Function.Iterate

namespace Lib

/-- A permutation, and how symbols are put into a state and read from it. -/
structure Sponge (σ α : Type) where
  rate : Nat
  rate_pos : 0 < rate
  permute : σ → σ
  inject : σ → Nat → α → σ
  read : σ → Nat → α

namespace Sponge

variable {σ α : Type} (S : Sponge σ α)

-- =========================================================== absorbing

/-- A symbol is put in at the position, which goes on to the next. -/
def put (s : σ × Nat) (a : α) : σ × Nat :=
  if s.2 + 1 = S.rate then (S.permute (S.inject s.1 s.2 a), 0)
  else (S.inject s.1 s.2 a, s.2 + 1)

def absorb (s : σ × Nat) (l : List α) : σ × Nat := l.foldl S.put s

/-- Symbols put in from a position on, inside of one block. -/
def injectAll (s : σ) (i : Nat) : List α → σ
  | [] => s
  | a :: l => injectAll (S.inject s i a) (i + 1) l

variable {s : σ} {i : Nat} {l l' : List α} {a : α}

theorem absorb_append (t : σ × Nat) :
    S.absorb t (l ++ l') = S.absorb (S.absorb t l) l' :=
  List.foldl_append

theorem absorb_short (h : i + l.length < S.rate) :
    S.absorb (s, i) l = (S.injectAll s i l, i + l.length) := by
  induction l generalizing s i with
  | nil => rfl
  | cons a l ih =>
      rw [List.length_cons] at h
      have hput : S.put (s, i) a = (S.inject s i a, i + 1) := if_neg (by omega)
      show S.absorb (S.put (s, i) a) l = _
      rw [hput, ih (by omega), List.length_cons, Nat.add_right_comm, Nat.add_assoc]
      rfl

theorem absorb_full (h : i + l.length = S.rate) (hi : i < S.rate) :
    S.absorb (s, i) l = (S.permute (S.injectAll s i l), 0) := by
  induction l generalizing s i with
  | nil => exact absurd h (Nat.ne_of_lt hi)
  | cons a l ih =>
      rw [List.length_cons] at h
      show S.absorb (S.put (s, i) a) l = _
      by_cases hlast : i + 1 = S.rate
      · obtain rfl : l = [] := List.length_eq_zero_iff.mp (by omega)
        show S.put (s, i) a = _
        unfold put
        rw [if_pos hlast]
        rfl
      · have hput : S.put (s, i) a = (S.inject s i a, i + 1) := if_neg hlast
        rw [hput, ih (by omega) (by omega)]
        rfl

theorem absorb_pos {t : σ × Nat} (ht : t.2 < S.rate) :
    (S.absorb t l).2 = (t.2 + l.length) % S.rate := by
  induction l generalizing t with
  | nil => exact (Nat.mod_eq_of_lt ht).symm
  | cons a l ih =>
      show (S.absorb (S.put t a) l).2 = _
      unfold put
      rw [List.length_cons, show t.2 + (l.length + 1) = t.2 + 1 + l.length by omega]
      split
      next h =>
        rw [ih S.rate_pos, h, Nat.zero_add, Nat.add_mod_left]
      next h => rw [ih (show t.2 + 1 < S.rate by omega)]

-- ============================================================ squeezing

/-- What is read of a state, over all its permutations. -/
def stream (s : σ) (i : Nat) : α :=
  S.read (S.permute^[i / S.rate] s) (i % S.rate)

theorem stream_add {k : Nat} (hi : i < S.rate) :
    S.stream s (k * S.rate + i) = S.read (S.permute^[k] s) i := by
  unfold stream
  rw [Nat.mul_comm, Nat.mul_add_div S.rate_pos, Nat.div_eq_of_lt hi, Nat.add_zero,
    Nat.mul_add_mod, Nat.mod_eq_of_lt hi]

end Sponge

end Lib
