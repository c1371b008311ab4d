/-
What can be reached from some roots, found with a worklist.

`next a` says what `a` leads to, or fails. A round takes the first of the
list that was not seen before, and puts what it leads to in front of the
rest; the end is an empty list. What is found so is what `Reached` says
(`mem_closure`), each once, whatever cycles there are.

Only some `a` lead anywhere without a failure, those of `domain`, and a
round takes one of them out: with a round more than these there is no way
not to come to an end (`run_isSome`), and `closure` needs no bound.
-/
import Mathlib.Data.List.Nodup
import Mathlib.Data.List.TakeWhile

namespace Lib.Worklist

variable {α ε : Type} (next : α → Except ε (List α))

/-- What the roots lead to, over any number of steps. -/
inductive Reached (roots : List α) : α → Prop
  | root {a : α} (h : a ∈ roots) : Reached roots a
  | step {a b : α} {found : List α} (h : Reached roots a)
      (hnext : next a = .ok found) (hb : b ∈ found) : Reached roots b

variable {next}

-- ============================================================ invariant

/-- What is seen or to be looked at is reached; the roots are, and what
the seen ones lead to. -/
structure Inv (next : α → Except ε (List α)) (roots seen todo : List α) :
    Prop where
  nodup : seen.Nodup
  reached : ∀ a ∈ seen ++ todo, Reached next roots a
  roots : ∀ a ∈ roots, a ∈ seen ++ todo
  closed : ∀ a ∈ seen, ∃ found, next a = .ok found
    ∧ ∀ b ∈ found, b ∈ seen ++ todo

theorem inv_start (roots : List α) : Inv next roots [] roots where
  nodup := List.nodup_nil
  reached _ ha := .root ha
  roots _ ha := ha
  closed _ ha := absurd ha List.not_mem_nil

theorem Inv.round {roots seen rest found : List α} {a : α}
    (h : Inv next roots seen (a :: rest)) (ha : a ∉ seen)
    (hnext : next a = .ok found) :
    Inv next roots (seen ++ [a]) (found ++ rest) := by
  have hmoved {b : α} (hb : b ∈ seen ++ a :: rest) :
      b ∈ seen ++ [a] ++ (found ++ rest) := by
    simp only [List.mem_append, List.mem_cons, List.not_mem_nil, or_false]
      at hb ⊢
    tauto
  refine ⟨?_, fun b hb => ?_, fun b hb => hmoved (h.roots b hb),
    fun b hb => ?_⟩
  · exact List.concat_eq_append ▸ List.Nodup.concat ha h.nodup
  · have hreached := h.reached a (by simp)
    simp only [List.mem_append, List.mem_singleton] at hb
    rcases hb with (hb | rfl) | hb | hb
    · exact h.reached b (List.mem_append_left _ hb)
    · exact hreached
    · exact .step hreached hnext hb
    · exact h.reached b (by simp [hb])
  · rcases List.mem_append.mp hb with hb | hb
    · obtain ⟨found', hnext', hfound⟩ := h.closed b hb
      exact ⟨found', hnext', fun c hc => hmoved (hfound c hc)⟩
    · rw [List.mem_singleton.mp hb]
      exact ⟨found, hnext, fun c hc => by simp [hc]⟩

section

variable [DecidableEq α]

-- ================================================================= run

/-- At most `fuel` rounds; none if there are more to be done. -/
def run (next : α → Except ε (List α)) :
    (fuel : Nat) → (seen todo : List α) → Option (Except ε (List α))
  | 0, _, _ => none
  | fuel + 1, seen, todo =>
      match todo.dropWhile (· ∈ seen) with
      | [] => some (.ok seen)
      | a :: rest =>
          match next a with
          | .error e => some (.error e)
          | .ok found => run next fuel (seen ++ [a]) (found ++ rest)

theorem unseen_of_dropWhile {seen todo rest : List α} {a : α}
    (h : todo.dropWhile (· ∈ seen) = a :: rest) : a ∉ seen := by
  have hhead := List.head?_dropWhile_not (· ∈ seen) todo
  rw [h] at hhead
  simpa using hhead

/-- A round leaves less to be seen. -/
theorem unseen_lt {domain seen : List α} {a : α} (ha : a ∈ domain)
    (hseen : a ∉ seen) :
    (domain.filter (· ∉ seen ++ [a])).length
      < (domain.filter (· ∉ seen)).length := by
  have hfilter : domain.filter (· ∉ seen ++ [a])
      = (domain.filter (· ∉ seen)).filter (· ≠ a) := by
    rw [List.filter_filter]
    refine List.filter_congr fun b _ => ?_
    by_cases hb : b = a <;> simp [hb, hseen]
  rw [hfilter, List.length_filter_lt_length_iff_exists]
  exact ⟨a, List.mem_filter.mpr ⟨ha, decide_eq_true hseen⟩, by simp⟩

theorem run_isSome {domain : List α}
    (hdomain : ∀ a found, next a = .ok found → a ∈ domain) {fuel : Nat}
    {seen todo : List α}
    (hfuel : (domain.filter (· ∉ seen)).length < fuel) :
    (run next fuel seen todo).isSome = true := by
  induction fuel generalizing seen todo with
  | zero => exact absurd hfuel (Nat.not_lt_zero _)
  | succ fuel ih =>
      rw [run]
      split
      next => rfl
      next a rest hrest =>
        cases hnext : next a with
        | error e => rfl
        | ok found =>
            have hseen := unseen_of_dropWhile hrest
            have hlt := unseen_lt (hdomain a found hnext) hseen
            exact ih (Nat.lt_of_lt_of_le hlt (Nat.lt_succ_iff.mp hfuel))

/-- All that is reached from the roots, in the order it was found. -/
def closure (next : α → Except ε (List α)) (domain : List α)
    (hdomain : ∀ a found, next a = .ok found → a ∈ domain)
    (roots : List α) : Except ε (List α) :=
  (run next (domain.length + 1) [] roots).get
    (run_isSome hdomain (Nat.lt_succ_of_le (List.length_filter_le _ _)))

/-- What is left out of the list was seen. -/
theorem mem_of_dropWhile {seen todo : List α} {a : α}
    (ha : a ∈ seen ++ todo) : a ∈ seen ++ todo.dropWhile (· ∈ seen) := by
  rw [List.mem_append] at ha ⊢
  refine ha.elim Or.inl fun ha => ?_
  rw [← List.takeWhile_append_dropWhile (p := fun b => decide (b ∈ seen))
    (l := todo), List.mem_append] at ha
  refine ha.imp_left fun ha => ?_
  simpa using List.mem_takeWhile_imp ha

theorem Inv.drop {roots seen todo : List α} (h : Inv next roots seen todo) :
    Inv next roots seen (todo.dropWhile (· ∈ seen)) where
  nodup := h.nodup
  reached a ha := by
    apply h.reached a
    rw [List.mem_append] at ha ⊢
    exact ha.imp_right fun ha => (List.dropWhile_suffix _).subset ha
  roots a ha := mem_of_dropWhile (h.roots a ha)
  closed a ha := by
    obtain ⟨found, hnext, hfound⟩ := h.closed a ha
    exact ⟨found, hnext, fun b hb => mem_of_dropWhile (hfound b hb)⟩

theorem Inv.run {roots seen todo found : List α} {fuel : Nat}
    (h : Inv next roots seen todo)
    (hrun : run next fuel seen todo = some (.ok found)) :
    Inv next roots found [] := by
  induction fuel generalizing seen todo with
  | zero => cases hrun
  | succ fuel ih =>
      have hdrop := h.drop
      rw [Worklist.run] at hrun
      split at hrun
      next hnil =>
        rw [hnil] at hdrop
        cases hrun
        exact hdrop
      next a rest hrest =>
        have ha := unseen_of_dropWhile hrest
        rw [hrest] at hdrop
        cases hnext : next a with
        | error e =>
            rw [hnext] at hrun
            cases hrun
        | ok l =>
            rw [hnext] at hrun
            exact ih (hdrop.round ha hnext) hrun

-- ============================================================== result

variable {domain roots found : List α}
  {hdomain : ∀ a found, next a = .ok found → a ∈ domain}

theorem inv_closure (h : closure next domain hdomain roots = .ok found) :
    Inv next roots found [] := by
  have hrun : run next (domain.length + 1) [] roots = some (.ok found) := by
    rw [← h, closure, Option.some_get]
  exact (inv_start roots).run hrun

/-- **The closure** is what is reached, no more and no less. -/
theorem mem_closure (h : closure next domain hdomain roots = .ok found)
    {a : α} : a ∈ found ↔ Reached next roots a := by
  have hinv := inv_closure h
  constructor
  · exact fun ha => hinv.reached a (List.mem_append_left _ ha)
  · intro ha
    have hfound {b : α} (hb : b ∈ found ++ []) : b ∈ found := by
      rwa [List.append_nil] at hb
    induction ha with
    | root ha => exact hfound (hinv.roots _ ha)
    | step _ hnext hb ih =>
        obtain ⟨l, hl, hsub⟩ := hinv.closed _ ih
        rw [hnext] at hl
        cases hl
        exact hfound (hsub _ hb)

theorem next_of_mem (h : closure next domain hdomain roots = .ok found)
    {a : α} (ha : a ∈ found) :
    ∃ l, next a = .ok l ∧ ∀ b ∈ l, b ∈ found := by
  obtain ⟨l, hnext, hl⟩ := (inv_closure h).closed a ha
  exact ⟨l, hnext, fun b hb => List.append_nil found ▸ hl b hb⟩

theorem nodup_closure (h : closure next domain hdomain roots = .ok found) :
    found.Nodup :=
  (inv_closure h).nodup

end

end Lib.Worklist
