/-
What a computation that may throw can throw.

`OnlyThrows P x` says that `x` returns, or throws an error of the kind
`P`. It is the postcondition of the error path alone, and like a weakest
precondition it is exact: each combinator has an equation, so the errors
of a sequence of checks reduce to conditions on what is checked. A part
all of whose errors are outside `P` cannot be passed without returning
(`onlyThrows_bind_of_never`).
-/
import Mathlib.Tactic.Common

namespace Lib

variable {ε α β : Type} {P : ε → Prop}

/-- The computation returns or throws an error of a kind. -/
def OnlyThrows (P : ε → Prop) (x : Except ε α) : Prop :=
  ∀ e, x = .error e → P e

@[simp] theorem onlyThrows_ok {a : α} :
    OnlyThrows P (.ok a : Except ε α) := by
  intro e h
  cases h

@[simp] theorem onlyThrows_pure {a : α} :
    OnlyThrows P (pure a : Except ε α) := onlyThrows_ok

@[simp] theorem onlyThrows_error {e : ε} :
    OnlyThrows P (.error e : Except ε α) ↔ P e := by
  constructor
  · intro h
    exact h e rfl
  · intro h e' he
    cases he
    exact h

@[simp] theorem onlyThrows_throw {e : ε} :
    OnlyThrows P (throw e : Except ε α) ↔ P e := onlyThrows_error

@[simp] theorem onlyThrows_ok_bind {a : α} {f : α → Except ε β} :
    OnlyThrows P (.ok a >>= f) ↔ OnlyThrows P (f a) := Iff.rfl

/-- A sequence throws what its first part throws, and what the rest
throws on what that returns. -/
theorem onlyThrows_bind {x : Except ε α} {f : α → Except ε β} :
    OnlyThrows P (x >>= f)
      ↔ OnlyThrows P x ∧ ∀ a, x = .ok a → OnlyThrows P (f a) := by
  cases x with
  | error e =>
      have herror : OnlyThrows P (.error e >>= f) ↔ P e :=
        onlyThrows_error
      rw [herror, onlyThrows_error]
      refine (and_iff_left ?_).symm
      intro a h
      cases h
  | ok a =>
      have hok : (.ok a >>= f) = f a := rfl
      rw [hok, and_iff_right onlyThrows_ok]
      constructor
      · intro h b hb
        cases hb
        exact h
      · intro h
        exact h a rfl

theorem onlyThrows_ite {c : Prop} [Decidable c] {x y : Except ε α} :
    OnlyThrows P (if c then x else y)
      ↔ (c → OnlyThrows P x) ∧ (¬c → OnlyThrows P y) := by
  split
  next h => simp [h]
  next h => simp [h]

/-- Past a part whose every error is outside the kind is past its
return. -/
theorem onlyThrows_bind_of_never {x : Except ε α} {f : α → Except ε β}
    (hx : ∀ e, x = .error e → ¬P e) :
    OnlyThrows P (x >>= f) ↔ ∃ a, x = .ok a ∧ OnlyThrows P (f a) := by
  rw [onlyThrows_bind]
  cases x with
  | error e =>
      refine iff_of_false ?_ ?_
      · intro h
        exact hx e rfl (onlyThrows_error.mp h.1)
      · intro h
        obtain ⟨a, ha, -⟩ := h
        cases ha
  | ok a => simp

end Lib
