/-
Rejection sampling, as a prefix of what is accepted.

The samplers of both schemes draw blocks, take candidates out of each, and
store those they accept until an array is full. Whatever their blocks and
their tests, the array ends up with the first candidates that are accepted
of all that is drawn, and drawing ends as soon as there are enough
(`sample_exact`): where a block ends makes no difference.

A stream may hold too few candidates for any number of blocks, so what is
drawn is a `Run`, which returns after some number of rounds or never. A
stream that repeats one good block does return, which is what the small
examples of both schemes draw from (`counting`, `returns_of_isOk`).
-/
import KxcoPostQuantum.Vendor.Utils
import Mathlib.Data.List.GetD

namespace KxcoPostQuantum.Vendor

variable {ε : Type} [ArrayElement ε] {N : ℕ}

-- ============================================================== storing

/-- Store a candidate, if there is room. -/
def keep (s : ℕ × Vector ε N) (x : ℤ) : ℕ × Vector ε N :=
  if s.1 < N then (s.1 + 1, set s.2 s.1 x) else s

/-- Store candidates one after another. -/
def fill (l : List ℤ) (s : ℕ × Vector ε N) : ℕ × Vector ε N := l.foldl keep s

/-- Candidates may be stored in two parts. -/
theorem fill_append (l l' : List ℤ) (s : ℕ × Vector ε N) :
    fill (l ++ l') s = fill l' (fill l s) := List.foldl_append

/-- A full array takes no more. -/
theorem fill_full {s : ℕ × Vector ε N} (h : N ≤ s.1) (l : List ℤ) :
    fill l s = s := by
  induction l with
  | nil => rfl
  | cons x l ih =>
      show fill l (keep s x) = s
      unfold keep
      rw [if_neg (not_lt.mpr h), ih]

/-- The array holds the first of the candidates. -/
structure Filled (l : List ℤ) (s : ℕ × Vector ε N) : Prop where
  count : s.1 = min l.length N
  slots : ∀ i < N, get s.2 i = l.getD i 0

/-- A new array holds none. -/
theorem filled_start : Filled [] ((0, zeros ε N) : ℕ × Vector ε N) :=
  ⟨(Nat.zero_min N).symm, fun _ _ => get_zeros⟩

/-- The array filled with one candidate more, if there is a slot for it. -/
theorem Filled.keep {l : List ℤ} {s : ℕ × Vector ε N} (h : Filled l s) {x : ℤ}
    (hx : Keeps ε x) : Filled (l ++ [x]) (keep s x) := by
  obtain ⟨hcount, hslots⟩ := h
  have hlength : (l ++ [x]).length = l.length + 1 := List.length_append
  unfold Vendor.keep
  by_cases hroom : s.1 < N
  · have hend : s.1 = l.length := by omega
    rw [if_pos hroom]
    refine ⟨by dsimp only; omega, ?_⟩
    intro i hi
    dsimp only
    by_cases heq : s.1 = i
    · subst heq
      rw [get_set hi hx, hend, List.getD_append_right _ _ _ _ le_rfl,
        Nat.sub_self]
      rfl
    · rw [get_set_of_ne heq, hslots i hi]
      rcases lt_or_gt_of_ne heq with hlt | hlt
      · rw [List.getD_eq_default _ _ (by omega),
          List.getD_eq_default _ _ (by omega)]
      · rw [List.getD_append _ _ _ _ (by omega)]
  · rw [if_neg hroom]
    refine ⟨by omega, ?_⟩
    intro i hi
    rw [hslots i hi, List.getD_append _ _ _ _ (by omega)]

/-- The array filled with several candidates more, by induction over
them. -/
theorem Filled.fill {l l' : List ℤ} {s : ℕ × Vector ε N} (h : Filled l s)
    (hl : ∀ x ∈ l', Keeps ε x) : Filled (l ++ l') (fill l' s) := by
  induction l' generalizing l s with
  | nil =>
      rw [List.append_nil]
      exact h
  | cons x l' ih =>
      have hnext := ih (h.keep (hl x List.mem_cons_self))
        fun y hy => hl y (List.mem_cons_of_mem x hy)
      rwa [List.append_assoc] at hnext

-- ============================================================== drawing

section

variable {cands : Bytes → List ℤ} {xof : ℕ → Bytes}
  {gather : Bytes → ℕ × Vector ε N → Run (ℕ × Vector ε N)}

/-- What is accepted of the first blocks. -/
def accepted (cands : Bytes → List ℤ) (xof : ℕ → Bytes) (n : ℕ) : List ℤ :=
  (List.range n).flatMap fun i => cands (xof i)

/-- A sampler that stores what it accepts of a block has stored, in the end,
what it accepts of all the blocks. Blocks behind the one that fills the
array would change nothing. -/
theorem sample_fill
    (hgather : ∀ call s, gather (xof call) s = .ok (fill (cands (xof call)) s))
    {fuel call : ℕ} {s t : ℕ × Vector ε N} :
    sample (fun s => decide (N ≤ s.1)) gather xof fuel call s = .ok t
      ↔ t = fill ((List.range' call fuel).flatMap fun i => cands (xof i)) s
        ∧ N ≤ t.1 := by
  induction fuel generalizing call s with
  | zero =>
      unfold sample
      by_cases hfull : N ≤ s.1
      · rw [if_pos (decide_eq_true hfull), Except.ok.injEq]
        constructor
        · rintro rfl
          exact ⟨rfl, hfull⟩
        · exact fun h => h.1.symm
      · rw [if_neg (by simpa using hfull)]
        constructor
        · intro h
          cases h
        · rintro ⟨rfl, h⟩
          exact absurd h hfull
  | succ fuel ih =>
      unfold sample
      by_cases hfull : N ≤ s.1
      · rw [if_pos (decide_eq_true hfull), Except.ok.injEq, fill_full hfull]
        constructor
        · rintro rfl
          exact ⟨rfl, hfull⟩
        · exact fun h => h.1.symm
      · rw [if_neg (by simpa using hfull), hgather, List.range'_succ,
          List.flatMap_cons, fill_append]
        exact ih

/-- **A sampler returns the first candidates it accepts**, once it has drawn
enough of them. -/
theorem sample_exact
    (hgather : ∀ call s, gather (xof call) s = .ok (fill (cands (xof call)) s))
    (hkeeps : ∀ b, ∀ x ∈ cands b, Keeps ε x) {fuel : ℕ} {p : Vector ε N} :
    (∃ t, sample (fun s => decide (N ≤ s.1)) gather xof fuel 0 (0, zeros ε N)
        = .ok t ∧ t.2 = p)
      ↔ N ≤ (accepted cands xof fuel).length
        ∧ ∀ i < N, get p i = (accepted cands xof fuel).getD i 0 := by
  have hall : ∀ x ∈ accepted cands xof fuel, Keeps ε x := by
    intro x hx
    obtain ⟨i, -, hx⟩ := List.mem_flatMap.mp hx
    exact hkeeps _ x hx
  have hfilled := (filled_start (ε := ε) (N := N)).fill hall
  rw [List.nil_append] at hfilled
  have hrun := @sample_fill _ _ _ _ xof _ hgather fuel 0 (0, zeros ε N)
  rw [← List.range_eq_range'] at hrun
  constructor
  · rintro ⟨t, ht, rfl⟩
    obtain ⟨rfl, hfull⟩ := hrun.mp ht
    have hcount := hfilled.count
    refine ⟨?_, hfilled.slots⟩
    unfold accepted at hcount ⊢
    omega
  · rintro ⟨hlength, hslots⟩
    have hcount := hfilled.count
    refine ⟨_, hrun.mpr ⟨rfl, ?_⟩, ?_⟩
    · unfold accepted at hcount hlength
      omega
    · apply ext_get
      intro i hi
      rw [hslots i hi]
      exact hfilled.slots i hi

end

-- ============================================================ instances

/-- A run that is found not to end in an error returns something. -/
theorem returns_of_isOk {α : Type} {r : Run α} (h : r.isOk = true) :
    ∃ a, r = .ok a := by
  cases r with
  | ok a => exact ⟨a, rfl⟩
  | error e => cases h

/-- The bytes 0, 1, 2 and so on. -/
def counting (n : ℕ) : Bytes := (List.range n).map Nat.toUInt8

/-- There are as many as are asked for. -/
theorem length_counting (n : ℕ) : (counting n).length = n := by
  unfold counting
  rw [List.length_map, List.length_range]

/-- The sum of some bytes. -/
def weight (data : Bytes) : ℕ := (data.map UInt8.toNat).sum

end KxcoPostQuantum.Vendor
