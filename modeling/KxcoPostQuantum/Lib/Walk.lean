/-
A loop that reads records off a cursor.

`walk` reads the record at the cursor, moves the cursor to the end of the
record and goes on until the cursor has reached a bound. Where a record
ends is up to the record: it may end before it starts, or nowhere (none),
which ends the loop. A walk need not come to an end; its fuel runs out
then.

The records are `Placed` when each ends behind its start and the next one
starts there. `Comes` are the positions the cursor comes to, without the
loop. The loop ends with its records placed exactly when the record at
every such position ends behind it (`walk_placed_iff`).
-/
import Mathlib.Data.List.Chain

namespace Lib

variable {E : Type}

section

variable (read : Int → E) (after : E → Option Int) (stop : Int)

/-- The records from the cursor on; none is running out of fuel. -/
def walk : (fuel : Nat) → (cursor : Option Int) → Option (List E)
  | 0, _ => none
  | _ + 1, none => some []
  | fuel + 1, some i =>
      if i < stop then
        (walk fuel (after (read i))).map fun rest => read i :: rest
      else some []

/-- The positions the cursor comes to. -/
inductive Comes (first : Int) : Int → Prop
  | first : Comes first first
  | next {i j : Int} (h : Comes first i) (hlt : i < stop)
      (hend : after (read i) = some j) : Comes first j

end

section

variable (start : E → Int) (after : E → Option Int)

/-- Every record ends behind its start, where the next one starts. -/
structure Placed (records : List E) : Prop where
  forward : ∀ e ∈ records, ∃ j, after e = some j ∧ start e < j
  joined : records.IsChain fun e e' => after e = some (start e')

end

variable {read : Int → E} {start : E → Int} {after : E → Option Int}
  {stop : Int}

/-- The first turn of a walk that comes to an end. -/
theorem walk_inv {fuel : Nat} {i : Int} {records : List E}
    (h : walk read after stop fuel (some i) = some records) :
    ¬i < stop ∧ records = []
      ∨ i < stop ∧ ∃ fuel' rest, records = read i :: rest
        ∧ walk read after stop fuel' (after (read i)) = some rest := by
  cases fuel with
  | zero => cases h
  | succ fuel =>
      rw [walk] at h
      split at h
      next hlt =>
        obtain ⟨rest, hrest, rfl⟩ := Option.map_eq_some_iff.mp h
        exact Or.inr ⟨hlt, fuel, rest, rfl, hrest⟩
      next hlt =>
        cases h
        exact Or.inl ⟨hlt, rfl⟩

theorem walk_head (hread : ∀ i, start (read i) = i) {fuel : Nat} {i : Int}
    {e : E} {rest : List E}
    (h : walk read after stop fuel (some i) = some (e :: rest)) :
    start e = i := by
  rcases walk_inv h with ⟨-, hnil⟩ | ⟨-, fuel', rest', hcons, -⟩
  · cases hnil
  · cases hcons
    exact hread i

/-- The first position but one is the first of the rest of the walk. -/
theorem Comes.tail {first i j : Int} (hlt : first < stop)
    (hend : after (read first) = some j)
    (h : Comes read after stop j i) : Comes read after stop first i := by
  induction h with
  | first => exact .next .first hlt hend
  | next _ hlt' hend' ih => exact .next ih hlt' hend'

/-- A cursor that moves forward wherever it comes to reaches the bound, in
at most as many steps as there are places. What it does behind the bound is
not asked. -/
theorem walk_forward (hread : ∀ i, start (read i) = i) (first : Int)
    (h : ∀ i, Comes read after stop first i → i < stop →
      ∃ j, after (read i) = some j ∧ i < j) :
    ∃ fuel records, walk read after stop fuel (some first) = some records
      ∧ Placed start after records := by
  by_cases hlt : first < stop
  · obtain ⟨j, hend, hj⟩ := h first .first hlt
    obtain ⟨fuel, rest, hwalk, hplaced⟩ := walk_forward hread j
      fun i hi => h i (hi.tail hlt hend)
    refine ⟨fuel + 1, read first :: rest, ?_, ?_, ?_⟩
    · rw [walk, if_pos hlt, hend, hwalk]
      rfl
    · refine List.forall_mem_cons.mpr ⟨⟨j, hend, ?_⟩, hplaced.forward⟩
      rw [hread]
      exact hj
    · cases rest with
      | nil => exact .singleton _
      | cons e rest =>
          refine .cons_cons ?_ hplaced.joined
          rw [hend, walk_head hread hwalk]
  · refine ⟨1, [], by rw [walk, if_neg hlt], ?_, .nil⟩
    exact fun e he => absurd he List.not_mem_nil
  termination_by (stop - first).toNat
  decreasing_by omega

/-- A walk with its records placed goes through every position the cursor
comes to. -/
theorem walk_comes {fuel : Nat} {first i : Int} {records : List E}
    (hwalk : walk read after stop fuel (some first) = some records)
    (hplaced : Placed start after records)
    (h : Comes read after stop first i) :
    ∃ fuel' rest, walk read after stop fuel' (some i) = some rest
      ∧ Placed start after rest := by
  induction h with
  | first => exact ⟨fuel, records, hwalk, hplaced⟩
  | next _ hlt hend ih =>
      obtain ⟨fuel', rest, hwalk', hplaced'⟩ := ih
      rcases walk_inv hwalk' with ⟨hnot, -⟩ | ⟨-, fuel'', rest', rfl, hrest⟩
      · exact absurd hlt hnot
      · rw [hend] at hrest
        exact ⟨fuel'', rest', hrest,
          fun e he => hplaced'.forward e (List.mem_cons_of_mem _ he),
          hplaced'.joined.tail⟩

/-- **The loop ends.** It does so with its records placed exactly when the
record at every position the cursor comes to ends behind it. -/
theorem walk_placed_iff (hread : ∀ i, start (read i) = i) (first : Int) :
    (∃ fuel records, walk read after stop fuel (some first) = some records
        ∧ Placed start after records)
      ↔ ∀ i, Comes read after stop first i → i < stop →
        ∃ j, after (read i) = some j ∧ i < j := by
  refine ⟨fun h i hi hlt => ?_, walk_forward hread first⟩
  obtain ⟨fuel, records, hwalk, hplaced⟩ := h
  obtain ⟨fuel', rest, hwalk', hplaced'⟩ := walk_comes hwalk hplaced hi
  rcases walk_inv hwalk' with ⟨hnot, -⟩ | ⟨-, fuel'', rest', rfl, -⟩
  · exact absurd hlt hnot
  · have hforward := hplaced'.forward _ List.mem_cons_self
    rwa [hread] at hforward

/-- The positions are those of any reader whose records end at the same
places. -/
theorem Comes.of_end {E' : Type} {read' : Int → E'}
    {after' : E' → Option Int} {first i : Int}
    (hend : ∀ i, after (read i) = after' (read' i))
    (h : Comes read after stop first i) :
    Comes read' after' stop first i := by
  induction h with
  | first => exact .first
  | next _ hlt hnext ih => exact .next ih hlt ((hend _).symm.trans hnext)

end Lib
