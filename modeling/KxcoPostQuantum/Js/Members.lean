/-
What `JSON.parse(JSON.stringify(v))` keeps of an object.

An object without a `toJSON` of its own comes back with the same names,
each with the round trip of its value; a name whose value has no data is
gone (`get_roundTrip`). The order of the names, which enumeration
changes, does not show in it: the names are distinct, so a list of
members is as good as the set of them.

# Order

First the names: what setting and enumerating members does to them. Then
`toJSON`, which is looked up by name like any other member, and the data
of an object, member by member.
-/
import KxcoPostQuantum.Js.Json

namespace KxcoPostQuantum

open Lib

-- ============================================================= names

/-- The names of members. -/
def names {α : Type} (own : List (JsString × α)) : List JsString :=
  own.map (·.1)

section

variable {α : Type} {own : List (JsString × α)} {k : JsString} {v w : α}

/-- A name has one value. -/
theorem value_unique (hnd : (names own).Nodup) (hv : (k, v) ∈ own)
    (hw : (k, w) ∈ own) : v = w :=
  congrArg Prod.snd (List.inj_on_of_nodup_map hnd hv hw rfl)

/-- A new name goes to the end. -/
theorem assign_of_notMem (h : k ∉ names own) :
    assign own k v = own ++ [(k, v)] := by
  induction own with
  | nil => rfl
  | cons m own ih =>
      rw [names, List.map_cons, List.mem_cons, not_or] at h
      rw [assign, if_neg (Ne.symm h.1), ih h.2]
      rfl

/-- Setting a name that is there leaves the names as they are. -/
theorem names_assign_of_mem (h : k ∈ names own) :
    names (assign own k v) = names own := by
  induction own with
  | nil => cases h
  | cons m own ih =>
      rw [assign]
      split
      next hm =>
        rw [names, List.map_cons, ← hm]
        rfl
      next hm =>
        have htail := (List.mem_cons.mp h).resolve_left (Ne.symm hm)
        rw [names, List.map_cons]
        exact congrArg _ (ih htail)

/-- Setting a member keeps the names apart. -/
theorem nodup_assign (hnd : (names own).Nodup) :
    (names (assign own k v)).Nodup := by
  by_cases h : k ∈ names own
  · rw [names_assign_of_mem h]
    exact hnd
  · rw [assign_of_notMem h, names, List.map_append, List.map_singleton]
    apply List.Nodup.append hnd (List.nodup_singleton k)
    rw [List.disjoint_singleton]
    exact h

/-- Members of distinct names are created as they are, one behind the other,
since none is there before it is set. -/
theorem foldl_assign_of_nodup {members : List (JsString × α)}
    (hnd : (names (own ++ members)).Nodup) :
    members.foldl (fun own m => assign own m.1 m.2) own = own ++ members := by
  induction members generalizing own with
  | nil => exact (List.append_nil own).symm
  | cons m members ih =>
      have hsplit : own ++ m :: members = own ++ [m] ++ members := by simp
      have hm : m.1 ∉ names own := by
        intro hmem
        rw [names, List.map_append, List.nodup_append] at hnd
        exact hnd.2.2 m.1 hmem m.1 List.mem_cons_self rfl
      rw [List.foldl_cons, assign_of_notMem hm, hsplit]
      exact ih (hsplit ▸ hnd)

/-- Nothing was set again where the names are apart. -/
theorem distinct_of_nodup (hnd : (names own).Nodup) : distinct own = own := by
  induction own with
  | nil => rfl
  | cons m own ih =>
      rw [names, List.map_cons, List.nodup_cons] at hnd
      rw [distinct, ih hnd.2]
      refine congrArg _ (List.filter_eq_self.mpr fun m' hm' => ?_)
      apply decide_eq_true
      intro heq
      exact hnd.1 (List.mem_map.mpr ⟨m', hm', heq⟩)

/-- Enumeration reorders. -/
theorem enumerate_perm (hnd : (names own).Nodup) :
    (enumerate own).Perm own := by
  have hsplit := List.filter_append_perm
    (fun m : JsString × α => (arrayIndex m.1).isSome) own
  simp only [Option.not_isSome] at hsplit
  rw [enumerate, distinct_of_nodup hnd]
  exact ((List.perm_insertionSort _ _).append_right _).trans hsplit

variable (own)

/-- Afterwards the names are apart. -/
theorem nodup_distinct : (names (distinct own)).Nodup := by
  induction own with
  | nil => exact List.nodup_nil
  | cons m own ih =>
      rw [distinct, names, List.map_cons, List.nodup_cons]
      constructor
      · intro h
        obtain ⟨m', hm', heq⟩ := List.mem_map.mp h
        have hne := of_decide_eq_true (List.mem_filter.mp hm').2
        exact hne heq
      · exact ((List.filter_sublist).map _).nodup ih

/-- What enumeration drops does not count. -/
theorem enumerate_distinct : enumerate (distinct own) = enumerate own := by
  rw [enumerate, distinct_of_nodup (nodup_distinct own), enumerate]

/-- No name is enumerated twice. -/
theorem nodup_enumerate : (names (enumerate own)).Nodup := by
  have hnd := nodup_distinct own
  rw [← enumerate_distinct]
  exact ((enumerate_perm hnd).map _).nodup_iff.mpr hnd

end

/-- Reading a name is finding its member. -/
theorem lookup_iff {own : List (JsString × JsVal)}
    (hnd : (names own).Nodup) {k : JsString} {v : JsVal} :
    JsVal.lookup k own = some v ↔ (k, v) ∈ own := by
  refine ⟨lookup_mem, fun h => ?_⟩
  cases hk : JsVal.lookup k own with
  | some w => rw [value_unique hnd h (lookup_mem hk)]
  | none =>
      exfalso
      induction own with
      | nil => cases h
      | cons m own ih =>
          rw [JsVal.lookup] at hk
          split at hk
          next => cases hk
          next hne =>
            have htail := (List.mem_cons.mp h).resolve_left
              fun heq => hne (congrArg Prod.fst heq).symm
            exact ih (List.nodup_cons.mp hnd).2 htail hk

/-- The members in front are looked through first. -/
theorem lookup_append (k : JsString) (l l' : List (JsString × JsVal)) :
    JsVal.lookup k (l ++ l') = (JsVal.lookup k l).or (JsVal.lookup k l') := by
  induction l with
  | nil => rfl
  | cons m l ih =>
      rw [List.cons_append, JsVal.lookup, JsVal.lookup]
      split
      next => rfl
      next => exact ih

/-- A name that finds nothing is not there. -/
theorem lookup_none_iff {own : List (JsString × JsVal)} {k : JsString} :
    JsVal.lookup k own = none ↔ k ∉ names own := by
  induction own with
  | nil => simp [names, JsVal.lookup]
  | cons m own ih =>
      rw [JsVal.lookup, names, List.map_cons, List.mem_cons, not_or]
      split
      next h =>
        exact iff_of_false (Option.some_ne_none _) fun h' => h'.1 h.symm
      next h => exact ih.trans (and_iff_right (Ne.symm h)).symm

/-- Reading after an assignment: the new value under its own name, whether
the member was there or is added at the end, and what was there before under
any other. -/
theorem lookup_assign {own : List (JsString × JsVal)} {k k' : JsString}
    {v : JsVal} :
    JsVal.lookup k (assign own k' v)
      = if k = k' then some v else JsVal.lookup k own := by
  induction own with
  | nil =>
      rw [assign, JsVal.lookup]
      exact ite_congr (propext eq_comm) (fun _ => rfl) fun _ => rfl
  | cons m own ih =>
      obtain ⟨l, w⟩ := m
      rw [assign]
      by_cases hl : l = k'
      · subst hl
        rw [if_pos rfl, JsVal.lookup, JsVal.lookup]
        by_cases hk : l = k
        · rw [if_pos hk, if_pos hk.symm]
        · rw [if_neg hk, if_neg (Ne.symm hk), if_neg hk]
      · rw [if_neg hl, JsVal.lookup, JsVal.lookup, ih]
        by_cases hk : l = k
        · rw [if_pos hk, if_neg (hk ▸ hl), if_pos hk]
        · rw [if_neg hk, if_neg hk]

/-- Dropping the members of another name does not change what a name
finds. -/
theorem lookup_filter {own : List (JsString × JsVal)} {k k' : JsString}
    (h : k ≠ k') :
    JsVal.lookup k (own.filter fun m => m.1 ≠ k') = JsVal.lookup k own := by
  induction own with
  | nil => rfl
  | cons m own ih =>
      obtain ⟨l, w⟩ := m
      by_cases hl : l = k'
      · subst hl
        rw [List.filter_cons_of_neg (by simp), ih, JsVal.lookup,
          if_neg (Ne.symm h)]
      · rw [List.filter_cons_of_pos (by simpa using hl), JsVal.lookup,
          JsVal.lookup, ih]

/-- The first member of a name is the one that counts. -/
theorem lookup_distinct (own : List (JsString × JsVal)) (k : JsString) :
    JsVal.lookup k (distinct own) = JsVal.lookup k own := by
  induction own with
  | nil => rfl
  | cons m own ih =>
      obtain ⟨l, w⟩ := m
      rw [distinct, JsVal.lookup, JsVal.lookup]
      by_cases hl : l = k
      · rw [if_pos hl, if_pos hl]
      · rw [if_neg hl, if_neg hl, lookup_filter (Ne.symm hl), ih]

/-- Enumeration finds the same members. -/
theorem lookup_enumerate (own : List (JsString × JsVal)) (k : JsString) :
    JsVal.lookup k (enumerate own) = JsVal.lookup k own := by
  rw [← lookup_distinct own, ← enumerate_distinct]
  have hnd := nodup_distinct own
  have hperm := enumerate_perm hnd
  have hnd' : (names (enumerate (distinct own))).Nodup :=
    (hperm.map _).nodup_iff.mpr hnd
  apply Option.ext
  intro v
  rw [lookup_iff hnd, lookup_iff hnd', hperm.mem_iff]

/-- A loop that returns, round by round. -/
theorem mapM_ok {α β : Type} {f : α → Except JsError β} {l : List α}
    {bs : List β} (h : l.mapM f = .ok bs) : l.map f = bs.map .ok := by
  induction l generalizing bs with
  | nil =>
      cases h
      rfl
  | cons a l ih =>
      simp only [List.mapM_cons, bind_eq_ok, pure_eq_ok] at h
      obtain ⟨b, hb, bs', hbs, rfl⟩ := h
      rw [List.map_cons, hb, ih hbs]
      rfl

/-- No round of a loop that returns throws. -/
theorem round_ok {α β : Type} {f : α → Except JsError β} {l : List α}
    {bs : List β} (h : l.mapM f = .ok bs) {a : α} (ha : a ∈ l) :
    ∃ b, f a = .ok b := by
  have hround : f a ∈ l.map f := List.mem_map_of_mem ha
  rw [mapM_ok h] at hround
  obtain ⟨b, -, hb⟩ := List.mem_map.mp hround
  exact ⟨b, hb.symm⟩

/-- What `...v` copies of an object none of whose members throws. -/
theorem spread_object {rt : Runtime}
    {own inherited members : List (JsString × JsVal)}
    (h : spread rt (.object own inherited) = .ok members) :
    members = enumerate own := by
  rw [spread] at h
  generalize enumerate own = l at h
  induction l generalizing members with
  | nil =>
      cases h
      rfl
  | cons m l ih =>
      simp only [List.mapM_cons, bind_eq_ok, pure_eq_ok] at h
      obtain ⟨m', hm, members', hmembers, rfl⟩ := h
      rw [ih hmembers]
      congr 1
      split at hm
      next => cases hm
      next => exact (Except.ok.inj hm).symm

/-- The own member of a name, of a value that is an object. -/
def JsVal.own? (v : JsVal) (k : JsString) : Option JsVal :=
  match v with
  | .object own _ => JsVal.lookup k own
  | _ => none

/-- `hasOwn` asks for an own member. -/
theorem hasOwn_eq (v : JsVal) (k : JsString) :
    v.hasOwn k = (v.own? k).isSome := by
  cases v <;> rfl

/-- Elements are named by distinct numbers. -/
theorem names_indexed {α : Type} (elems : List α) :
    names (indexed elems) = (List.range elems.length).map decimal := by
  rw [names, indexed, List.map_map, List.range_eq_range',
    ← List.zipIdx_map_snd 0 elems, List.map_map]
  rfl

/-- Two numbers have different decimals. -/
theorem decimal_injective : Function.Injective decimal := by
  intro m n h
  rw [← foldl_decimal m, h, foldl_decimal]

/-- The indices of an array are apart. -/
theorem nodup_indexed {α : Type} (elems : List α) :
    (names (indexed elems)).Nodup := by
  rw [names_indexed]
  exact List.nodup_range.map decimal_injective

/-- A name that is not a number is not the name of an element. -/
theorem lookup_indexed {elems : List JsVal} {k : JsString} {c : UInt16}
    (hc : c ∈ k) (hdigit : Json.isDigit c = false) :
    JsVal.lookup k (indexed elems) = none := by
  rw [lookup_none_iff, names_indexed]
  intro hk
  obtain ⟨n, -, rfl⟩ := List.mem_map.mp hk
  rw [isDigit_decimal n c hc] at hdigit
  cases hdigit

/-- What `...v` copies: no name twice, and under a name that is not a
number the value's own member of that name. -/
theorem spread_ok {rt : Runtime} {v : JsVal}
    {members : List (JsString × JsVal)} (h : spread rt v = .ok members) :
    (names members).Nodup
      ∧ ∀ k c, c ∈ k → Json.isDigit c = false →
        JsVal.lookup k members = v.own? k := by
  have hindexed : ∀ {elems : List JsVal},
      (.ok (indexed elems) : Except JsError _) = .ok members →
      (names members).Nodup ∧ ∀ k c, c ∈ k → Json.isDigit c = false →
        JsVal.lookup k members = none := by
    intro elems helems
    cases helems
    refine ⟨nodup_indexed elems, ?_⟩
    intro k c hc hdigit
    exact lookup_indexed hc hdigit
  cases v with
  | object own inherited =>
      rw [spread_object h]
      refine ⟨nodup_enumerate own, ?_⟩
      intro k c _ _
      exact lookup_enumerate own k
  | array elems => exact hindexed h
  | string s => exact hindexed h
  | uint8Array b => exact hindexed h
  | view kind b => exact hindexed h
  | _ =>
      cases h
      exact ⟨List.nodup_nil, fun _ _ _ _ => rfl⟩

/-- A member that throws when it is read is not copied. -/
theorem spread_ne_raises {rt : Runtime} {v : JsVal} {k : JsString}
    {members : List (JsString × JsVal)} {e : JsError}
    (h : spread rt v = .ok members) : v.own? k ≠ some (.raises e) := by
  intro hown
  cases v with
  | object own inherited =>
      have hmem : (k, .raises e) ∈ enumerate own :=
        lookup_mem ((lookup_enumerate own k).trans hown)
      rw [spread] at h
      obtain ⟨m, hm⟩ := round_ok h hmem
      cases hm
  | _ => cases hown

-- ============================================================ toJSON

/-- What a `toJSON` member does. -/
def toJsonOf (rt : Runtime) : JsVal → Option Serialized
  | .func result => some (serialize rt result true)
  | .raises e => some (.error e)
  | _ => none

/-- A `toJSON` is found by its name. -/
theorem toJson_eq (rt : Runtime) (own : List (JsString × JsVal)) :
    toJson rt own = (JsVal.lookup (js "toJSON") own).map (toJsonOf rt) := by
  induction own with
  | nil =>
      rw [toJson]
      rfl
  | cons m own ih =>
      obtain ⟨k, v⟩ := m
      unfold toJson
      rw [JsVal.lookup]
      split
      next => cases v <;> rfl
      next => exact ih

-- ============================================================== data

/-- The data of one member. -/
def memberData (m : JsString × Serialized) :
    Except JsError (Option (JsString × Json)) := do
  return (← m.2).map fun j => (m.1, j)

/-- A member is data where its value is, or is left out. -/
theorem memberData_ok {m : JsString × Serialized}
    {e : Option (JsString × Json)} :
    memberData m = .ok e
      ↔ ∃ d, m.2 = .ok d ∧ e = d.map fun j => (m.1, j) := by
  simp only [memberData, bind_eq_ok, pure_eq_ok]
  exact exists_congr fun d => and_congr_right fun _ => eq_comm

/-- The members that are data are those whose value is. -/
theorem mem_memberData {l : List (JsString × Serialized)} {k : JsString}
    {j : Json} :
    .ok (some (k, j)) ∈ l.map memberData ↔ (k, .ok (some j)) ∈ l := by
  rw [List.mem_map]
  constructor
  · intro h
    obtain ⟨⟨k', r⟩, hm, hdata⟩ := h
    obtain ⟨d, rfl, hd⟩ := memberData_ok.mp hdata
    cases d with
    | none => cases hd
    | some j' =>
        cases hd
        exact hm
  · intro h
    exact ⟨_, h, rfl⟩

/-- Members whose data comes from a loop keep their names. -/
theorem names_sublist {l : List (JsString × Serialized)}
    {ds : List (Option (JsString × Json))}
    (h : l.map memberData = ds.map .ok) :
    (names (ds.filterMap id)).Sublist (names l) := by
  induction l generalizing ds with
  | nil =>
      rw [List.map_nil, eq_comm, List.map_eq_nil_iff] at h
      rw [h]
      exact List.Sublist.refl _
  | cons m l ih =>
      cases ds with
      | nil => cases h
      | cons e ds =>
          rw [List.map_cons, List.map_cons, List.cons.injEq] at h
          obtain ⟨d, -, rfl⟩ := memberData_ok.mp h.1
          cases d with
          | none => exact (ih h.2).cons m.1
          | some j => exact (ih h.2).cons_cons m.1

/-- The data of members of distinct names: those that have data, in the
order they stand in. A member without data is left out; one that throws
would be the error of the whole. -/
theorem objectData_ok {members : List (JsString × Serialized)}
    (hnd : (names members).Nodup) {d : Option Json}
    (h : objectData members = .ok d) :
    ∃ ms, d = some (.object ms) ∧ (names ms).Nodup
      ∧ (∀ k j, (k, j) ∈ ms ↔ (k, .ok (some j)) ∈ members)
      ∧ ∀ m ∈ members, ∃ e, m.2 = .ok e := by
  simp only [objectData, bind_eq_ok, pure_eq_ok] at h
  obtain ⟨ds, hds, rfl⟩ := h
  have hrounds : (enumerate members).map memberData = ds.map .ok :=
    mapM_ok hds
  have hperm := enumerate_perm hnd
  refine ⟨ds.filterMap id, rfl, ?_, ?_, ?_⟩
  · apply (names_sublist hrounds).nodup
    exact (hperm.map _).nodup_iff.mpr hnd
  · intro k j
    calc (k, j) ∈ ds.filterMap id
        ↔ .ok (some (k, j)) ∈ ds.map Except.ok := by simp
      _ ↔ .ok (some (k, j)) ∈ (enumerate members).map memberData := by
          rw [hrounds]
      _ ↔ (k, .ok (some j)) ∈ enumerate members := mem_memberData
      _ ↔ (k, .ok (some j)) ∈ members := hperm.mem_iff
  · intro m hm
    have hround := List.mem_map_of_mem (f := memberData)
      (hperm.mem_iff.mpr hm)
    rw [hrounds] at hround
    obtain ⟨e, -, he⟩ := List.mem_map.mp hround
    obtain ⟨d, hd, -⟩ := memberData_ok.mp he.symm
    exact ⟨d, hd⟩

-- ======================================================== round trip

/-- The members of an object are read one by one. -/
theorem toMembers_eq (rt : Runtime) (ms : List (JsString × Json)) :
    toMembers rt ms = ms.map fun m => (m.1, toValue rt m.2) := by
  induction ms with
  | nil => rw [toMembers, List.map_nil]
  | cons m ms ih => rw [toMembers, List.map_cons, ih]

/-- Parsed data of distinct names, as members. -/
theorem toValue_object (rt : Runtime) {ms : List (JsString × Json)}
    (hnd : (names ms).Nodup) :
    toValue rt (.object ms)
        = .object (ms.map fun m => (m.1, toValue rt m.2)) []
      ∧ (names (ms.map fun m => (m.1, toValue rt m.2))).Nodup := by
  have hnames : (names (ms.map fun m => (m.1, toValue rt m.2))).Nodup := by
    rw [names, List.map_map]
    exact hnd
  refine ⟨?_, hnames⟩
  rw [toValue, toMembers_eq, objectOf, @foldl_assign_of_nodup _ [] _ hnames,
    List.nil_append]

/-- The members of parsed data of distinct names: a name that is not among
them reads as `undefined`, and one that is reads as its own data. -/
theorem get_toValue (rt : Runtime) {ms : List (JsString × Json)}
    (hnd : (names ms).Nodup) (k : JsString) :
    ((∀ j, (k, j) ∉ ms) →
        (toValue rt (.object ms)).get k = .ok .undefined)
      ∧ ∀ j, (k, j) ∈ ms →
        (toValue rt (.object ms)).get k = .ok (toValue rt j) := by
  obtain ⟨hvalue, hnames⟩ := toValue_object rt hnd
  rw [hvalue, JsVal.get, show JsVal.lookup k [] = none from rfl,
    Option.or_none]
  constructor
  · intro h
    cases hk : JsVal.lookup k (ms.map fun m => (m.1, toValue rt m.2)) with
    | none => rfl
    | some v =>
        obtain ⟨m, hm, heq⟩ := List.mem_map.mp (lookup_mem hk)
        cases heq
        exact absurd hm (h m.2)
  · intro j h
    have hmem := List.mem_map_of_mem
      (f := fun m : JsString × Json => (m.1, toValue rt m.2)) h
    rw [(lookup_iff hnames).mpr hmem]
    have hplain := plain_toValue rt j
    generalize toValue rt j = v at hplain
    cases hplain <;> rfl

/-- Data is never `undefined`. -/
theorem elim_toValue {rt : Runtime} {e : Option Json} :
    e.elim .undefined (toValue rt) = .undefined ↔ e = none := by
  cases e with
  | none => exact iff_of_true rfl rfl
  | some j =>
      refine iff_of_false (fun h => ?_) nofun
      have hplain := plain_toValue rt j
      rw [show toValue rt j = .undefined from h] at hplain
      cases hplain

/-- The JSON round trip of an object with no `toJSON` to call: each
name has the round trip of its value. -/
theorem get_roundTrip (rt : Runtime) {own : List (JsString × JsVal)}
    (hnd : (names own).Nodup)
    (hcode : ∀ r, toJson rt own ≠ some (some r)) {d : Option Json}
    (hd : serialize rt (.object own []) false = .ok d) :
    ∃ ms, d = some (.object ms)
      ∧ (∀ k, JsVal.lookup k own = none →
        (toValue rt (.object ms)).get k = .ok .undefined)
      ∧ ∀ k v, JsVal.lookup k own = some v →
        ∃ e, serialize rt v false = .ok e
          ∧ (toValue rt (.object ms)).get k
            = .ok (e.elim .undefined (toValue rt)) := by
  have hcode' : ∀ r, (toJson rt own).or (toJson rt []) ≠ some (some r) := by
    intro r
    rw [show toJson rt [] = none by rw [toJson], Option.or_none]
    exact hcode r
  rw [serialize_object rt hcode', serializeMembers_eq] at hd
  have hnames : (names (own.map fun m =>
      (m.1, serialize rt m.2 false))).Nodup := by
    rw [names, List.map_map]
    exact hnd
  obtain ⟨ms, rfl, hms, hmem, hok⟩ := objectData_ok hnames hd
  have hdata : ∀ {k v j}, (k, v) ∈ own →
      ((k, j) ∈ ms ↔ serialize rt v false = .ok (some j)) := by
    intro k v j hv
    have hv' := List.mem_map_of_mem
      (f := fun m : JsString × JsVal => (m.1, serialize rt m.2 false)) hv
    rw [hmem]
    constructor
    · intro h
      exact value_unique hnames hv' h
    · intro h
      rw [← h]
      exact hv'
  refine ⟨ms, rfl, ?_, ?_⟩
  · intro k hk
    apply (get_toValue rt hms k).1
    intro j hj
    obtain ⟨⟨k', v⟩, hm, heq⟩ := List.mem_map.mp ((hmem k j).mp hj)
    obtain rfl : k' = k := congrArg Prod.fst heq
    rw [(lookup_iff hnd).mpr hm] at hk
    cases hk
  · intro k v hk
    have hv := lookup_mem hk
    obtain ⟨e, he⟩ := hok _ (List.mem_map_of_mem hv)
    refine ⟨e, he, ?_⟩
    cases e with
    | none =>
        apply (get_toValue rt hms k).1
        intro j hj
        cases he.symm.trans ((hdata hv).mp hj)
    | some j => exact (get_toValue rt hms k).2 j ((hdata hv).mpr he)

end KxcoPostQuantum
