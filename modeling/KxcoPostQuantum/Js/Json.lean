/-
`JSON.stringify` and `JSON.parse` on JavaScript values, and the own
members of an object in the order they are enumerated.

# Two steps each

`JSON.stringify` runs in two steps here: `serialize` finds the JSON data
a value stands for, which is where the value's own code runs, and
`Lib.Json.print` writes it. `JSON.parse` is `Lib.Json.parse` followed by
`toValue`, which creates the members of an object one after another.

# What a value can do

Serialising a value may call its `toJSON`, read a member that throws, or
find that it has no data, as a function or `undefined`; in an array such a
value is `null`, and as a member it is left out. A big integer throws. How
deep a value may be nested before the engine runs out of stack is no part
of the language, and not modelled.
-/
import KxcoPostQuantum.Js.Value
import KxcoPostQuantum.Lib.JsonIndent
import Mathlib.Data.List.Sort

namespace KxcoPostQuantum

open Lib

-- =========================================================== members

/-- `own[k] = v`: the member of that name is overwritten in its place, or
a new one is created. -/
def assign {α : Type} (own : List (JsString × α)) (k : JsString) (v : α) :
    List (JsString × α) :=
  match own with
  | [] => [(k, v)]
  | (k', v') :: rest =>
      if k' = k then (k, v) :: rest else (k', v') :: assign rest k v

/-- `o[k] = s` on a plain object, of a string: a string is no prototype, so
writing `__proto__` has no effect. -/
def assignString (own : List (JsString × JsVal)) (k s : JsString) :
    List (JsString × JsVal) :=
  if k = js "__proto__" then own else assign own k (.string s)

/-- The array index a name is the decimal text of. -/
def arrayIndex (k : JsString) : Option Nat :=
  let n := k.foldl (fun n c => n * 10 + (c.toNat - 48)) 0
  if k.all (fun c => Json.isDigit c) && k.length ≤ 10 && n < 2 ^ 32 - 1
      && (k.head? ≠ some 48 || k.length = 1) && !k.isEmpty then some n
  else none

/-- The members that count: the first of each name. -/
def distinct {α : Type} : List (JsString × α) → List (JsString × α)
  | [] => []
  | m :: rest => m :: (distinct rest).filter fun m' => m'.1 ≠ m.1

/-- The members in the order they are enumerated: array indices
ascending, then the other names in creation order. -/
def enumerate {α : Type} (own : List (JsString × α)) :
    List (JsString × α) :=
  let own := distinct own
  let indexed := own.filter fun m => (arrayIndex m.1).isSome
  indexed.insertionSort (fun a b =>
      (arrayIndex a.1).getD 0 ≤ (arrayIndex b.1).getD 0)
    ++ own.filter fun m => (arrayIndex m.1).isNone

/-- Elements as members, named by their indices. -/
def indexed {α : Type} (elems : List α) : List (JsString × α) :=
  elems.zipIdx.map fun e => (decimal e.2, e.1)

/-- The members `...v` copies. -/
def spread (rt : Runtime) (v : JsVal) :
    Except JsError (List (JsString × JsVal)) :=
  match v with
  | .object own _ =>
      (enumerate own).mapM fun m =>
        match m.2 with
        | .raises e => .error e
        | w => .ok (m.1, w)
  | .array elems => .ok (indexed elems)
  | .string s => .ok (indexed (s.map fun u => .string [u]))
  | .uint8Array b => .ok (indexed (b.map fun n => .number (.finite n.toNat)))
  | .view k b => .ok (indexed (rt.elements k b))
  | _ => .ok []

/-- An object made of members created one after another. -/
def objectOf (members : List (JsString × JsVal)) : JsVal :=
  .object (members.foldl (fun own m => assign own m.1 m.2) []) []

-- ==================================================== JSON.stringify

/-- What serializing a value gives: no data for a value JSON leaves
out. -/
abbrev Serialized : Type := Except JsError (Option Json)

/-- An array's data; what JSON leaves out is `null` in it. -/
def arrayData (elems : List Serialized) : Serialized := do
  let es ← elems.mapM fun (r : Serialized) => do return (← r).getD .null
  return some (.array es)

/-- An object's data. -/
def objectData (members : List (JsString × Serialized)) : Serialized := do
  let ms ← (enumerate members).mapM fun m => do
    return (← m.2).map fun j => (m.1, j)
  return some (.object (ms.filterMap id))

mutual

/-- `SerializeJSONProperty`: the data of a value; its `toJSON` is called
unless `replaced` says that it has been. -/
def serialize (rt : Runtime) : JsVal → (replaced : Bool) → Serialized
  | .undefined, _ | .symbol, _ | .func _, _ => .ok none
  | .null, _ => .ok (some .null)
  | .bool b, _ => .ok (some (.bool b))
  | .number (.finite q), _ => .ok (some (.number (rt.numberToString q)))
  | .number _, _ => .ok (some .null)
  | .bigint _, _ =>
      .error (typeError (js "Do not know how to serialize a BigInt"))
  | .string s, _ => .ok (some (.string s))
  | .uint8Array b, _ => .ok (some (rt.binaryJson (.uint8Array b)))
  | .view k b, _ => .ok (some (rt.binaryJson (.view k b)))
  | .arrayBuffer b, _ => .ok (some (rt.binaryJson (.arrayBuffer b)))
  | .array elems, _ => arrayData (serializeElements rt elems)
  | .object own inherited, replaced =>
      match replaced, (toJson rt own).or (toJson rt inherited) with
      | false, some (some r) => r
      | _, _ => objectData (serializeMembers rt own)
  | .raises e, _ => .error e

/-- The elements of an array. -/
def serializeElements (rt : Runtime) : List JsVal → List Serialized
  | [] => []
  | v :: rest => serialize rt v false :: serializeElements rt rest

/-- The members of an object, as yet in creation order. -/
def serializeMembers (rt : Runtime) :
    List (JsString × JsVal) → List (JsString × Serialized)
  | [] => []
  | (k, v) :: rest => (k, serialize rt v false) :: serializeMembers rt rest

/-- A `toJSON` among the members, and what the data is if it is a
function or reading it throws. -/
def toJson (rt : Runtime) :
    List (JsString × JsVal) → Option (Option Serialized)
  | [] => none
  | (k, v) :: rest =>
      if k = js "toJSON" then
        some (match v with
          | .func result => some (serialize rt result true)
          | .raises e => some (.error e)
          | _ => none)
      else toJson rt rest

end

/-- `JSON.stringify(v)`; none is `undefined`. -/
def stringify (rt : Runtime) (v : JsVal) : Except JsError (Option JsString) :=
  (serialize rt v false).map fun d => d.map Json.print

/-- `JSON.stringify(v, null, 2)`; none is `undefined`. -/
def stringifyIndented (rt : Runtime) (v : JsVal) :
    Except JsError (Option JsString) :=
  (serialize rt v false).map fun d => d.map (Json.indented (js "  ") [])

/-- The text of a value is its data, written. -/
theorem stringify_ok {rt : Runtime} {v : JsVal} {text : Option JsString} :
    stringify rt v = .ok text
      ↔ ∃ d, serialize rt v false = .ok d ∧ d.map Json.print = text := by
  rw [stringify]
  cases serialize rt v false with
  | error e =>
      refine iff_of_false (fun h => ?_) fun h => ?_
      · cases h
      · obtain ⟨d, hd, -⟩ := h
        cases hd
  | ok d => simp [Except.map]

-- ======================================================== JSON.parse

mutual

/-- The value of JSON data. -/
def toValue (rt : Runtime) : Json → JsVal
  | .null => .null
  | .bool b => .bool b
  | .number literal => .number (rt.literalValue literal)
  | .string s => .string s
  | .array elems => .array (toElements rt elems)
  | .object members => objectOf (toMembers rt members)

/-- The values of the elements of an array. -/
def toElements (rt : Runtime) : List Json → List JsVal
  | [] => []
  | j :: rest => toValue rt j :: toElements rt rest

/-- The values of the members of an object, in the order of the text. -/
def toMembers (rt : Runtime) :
    List (JsString × Json) → List (JsString × JsVal)
  | [] => []
  | (k, j) :: rest => (k, toValue rt j) :: toMembers rt rest

end

/-- `JSON.parse(text)`. -/
def jsonParse (rt : Runtime) (text : JsString) : Except JsError JsVal :=
  match Json.parse text with
  | some j => .ok (toValue rt j)
  | none =>
      .error { name := .syntaxError, message := rt.syntaxMessage text }

-- ============================================================ members

/-- Setting a member adds no other. -/
theorem mem_assign {α : Type} {own : List (JsString × α)} {k : JsString}
    {v : α} {m : JsString × α} (h : m ∈ assign own k v) :
    m ∈ own ∨ m = (k, v) := by
  induction own with
  | nil => exact Or.inr (List.mem_singleton.mp h)
  | cons m' own ih =>
      obtain ⟨k', v'⟩ := m'
      rw [assign] at h
      split at h
      next =>
        rcases List.mem_cons.mp h with h | h
        · exact Or.inr h
        · exact Or.inl (List.mem_cons_of_mem _ h)
      next =>
        rcases List.mem_cons.mp h with h | h
        · exact Or.inl (h ▸ List.mem_cons_self)
        · exact (ih h).imp_left (List.mem_cons_of_mem _)

/-- Nor does setting several. -/
theorem mem_foldl_assign {α : Type} {members own : List (JsString × α)}
    {m : JsString × α}
    (h : m ∈ members.foldl (fun own m => assign own m.1 m.2) own) :
    m ∈ own ∨ m ∈ members := by
  induction members generalizing own with
  | nil => exact Or.inl h
  | cons m' members ih =>
      rcases ih h with h | h
      · rcases mem_assign h with h | h
        · exact Or.inl h
        · rw [h]
          exact Or.inr List.mem_cons_self
      · exact Or.inr (List.mem_cons_of_mem _ h)

/-- Dropping what was set again adds none. -/
theorem mem_distinct {α : Type} {own : List (JsString × α)}
    {m : JsString × α} (h : m ∈ distinct own) : m ∈ own := by
  induction own with
  | nil => exact h
  | cons m' own ih =>
      rcases List.mem_cons.mp h with h | h
      · exact h ▸ List.mem_cons_self
      · exact List.mem_cons_of_mem _ (ih (List.mem_of_mem_filter h))

/-- Nor does reading them in order. -/
theorem mem_enumerate {α : Type} {own : List (JsString × α)}
    {m : JsString × α} (h : m ∈ enumerate own) : m ∈ own := by
  rcases List.mem_append.mp h with h | h
  · rw [List.mem_insertionSort] at h
    exact mem_distinct (List.mem_of_mem_filter h)
  · exact mem_distinct (List.mem_of_mem_filter h)

/-- What a name has is among the members. -/
theorem lookup_mem {k : JsString} {own : List (JsString × JsVal)}
    {v : JsVal} (h : JsVal.lookup k own = some v) : (k, v) ∈ own := by
  induction own with
  | nil => cases h
  | cons m own ih =>
      obtain ⟨k', v'⟩ := m
      rw [JsVal.lookup] at h
      split at h
      next hk =>
        rw [← hk, ← Option.some.inj h]
        exact List.mem_cons_self
      next => exact List.mem_cons_of_mem _ (ih h)

-- ========================================================= plain data

/-- A value `JSON.parse` can make. -/
inductive Plain : JsVal → Prop
  | null : Plain .null
  | bool (b : Bool) : Plain (.bool b)
  | number (n : JsNumber) : Plain (.number n)
  | string (s : JsString) : Plain (.string s)
  | array {elems : List JsVal} (h : ∀ v ∈ elems, Plain v) :
      Plain (.array elems)
  | object {own : List (JsString × JsVal)} (h : ∀ m ∈ own, Plain m.2) :
      Plain (.object own [])

mutual

/-- A value that was parsed is plain. -/
theorem plain_toValue (rt : Runtime) : ∀ j, Plain (toValue rt j)
  | .null => .null
  | .bool b => .bool b
  | .number literal => .number (rt.literalValue literal)
  | .string s => .string s
  | .array elems => .array (plain_toElements rt elems)
  | .object members => .object fun _ hm =>
      (mem_foldl_assign hm).elim nofun (plain_toMembers rt members _)

/-- So are the elements of an array. -/
theorem plain_toElements (rt : Runtime) :
    ∀ elems, ∀ v ∈ toElements rt elems, Plain v
  | [] => nofun
  | j :: rest => List.forall_mem_cons.mpr
      ⟨plain_toValue rt j, plain_toElements rt rest⟩

/-- And the members of an object. -/
theorem plain_toMembers (rt : Runtime) :
    ∀ members, ∀ m ∈ toMembers rt members, Plain m.2
  | [] => nofun
  | (_, j) :: rest => List.forall_mem_cons.mpr
      ⟨plain_toValue rt j, plain_toMembers rt rest⟩

end

/-- A member of plain data is plain, or it is not there, and reading it does
not throw. -/
theorem Plain.get {own : List (JsString × JsVal)}
    (h : Plain (.object own [])) (k : JsString) :
    ∃ v, (JsVal.object own []).get k = .ok v
      ∧ (v = .undefined ∨ Plain v) := by
  cases h with
  | object h =>
      rw [JsVal.get, show JsVal.lookup k [] = none from rfl, Option.or_none]
      cases hk : JsVal.lookup k own with
      | none => exact ⟨_, rfl, Or.inl rfl⟩
      | some v =>
          have hv := h _ (lookup_mem hk)
          refine ⟨v, ?_, Or.inr hv⟩
          cases hv <;> rfl

/-- The elements are serialised one by one. -/
theorem serializeElements_eq (rt : Runtime) (elems : List JsVal) :
    serializeElements rt elems = elems.map fun v => serialize rt v false := by
  induction elems with
  | nil => rw [serializeElements, List.map_nil]
  | cons v rest ih => rw [serializeElements, List.map_cons, ih]

/-- The members are, too. -/
theorem serializeMembers_eq (rt : Runtime)
    (own : List (JsString × JsVal)) :
    serializeMembers rt own
      = own.map fun m => (m.1, serialize rt m.2 false) := by
  induction own with
  | nil => rw [serializeMembers, List.map_nil]
  | cons m rest ih => rw [serializeMembers, List.map_cons, ih]

/-- A loop none of whose rounds throws returns. -/
theorem mapM_returns {α β : Type} {f : α → Except JsError β} {l : List α}
    (h : ∀ a ∈ l, ∃ b, f a = .ok b) : ∃ bs, l.mapM f = .ok bs := by
  induction l with
  | nil => exact ⟨[], rfl⟩
  | cons a l ih =>
      rw [List.forall_mem_cons] at h
      obtain ⟨b, hb⟩ := h.1
      obtain ⟨bs, hbs⟩ := ih h.2
      exact ⟨b :: bs, by rw [List.mapM_cons, hb, hbs]; rfl⟩

/-- A `toJSON` in plain data is not a function. -/
theorem toJson_plain (rt : Runtime) {own : List (JsString × JsVal)}
    (h : ∀ m ∈ own, Plain m.2) :
    toJson rt own = none ∨ toJson rt own = some none := by
  induction own with
  | nil => exact Or.inl (by rw [toJson])
  | cons m own ih =>
      obtain ⟨k, v⟩ := m
      rw [List.forall_mem_cons] at h
      unfold toJson
      split
      next =>
        refine Or.inr ?_
        have hv : Plain v := h.1
        cases hv <;> rfl
      next => exact ih h.2

/-- An object without a `toJSON` function is its members. -/
theorem serialize_object (rt : Runtime)
    {own inherited : List (JsString × JsVal)}
    (h : ∀ r, (toJson rt own).or (toJson rt inherited) ≠ some (some r)) :
    serialize rt (.object own inherited) false
      = objectData (serializeMembers rt own) := by
  unfold serialize
  split
  next r _ hr => exact absurd hr (h r)
  next => rfl

/-- An object has data when its members have, or are left out. -/
theorem objectData_returns {members : List (JsString × Serialized)}
    (h : ∀ m ∈ members, ∃ d, m.2 = .ok d) :
    ∃ ms, objectData members = .ok (some (.object ms)) := by
  have hrounds : ∀ m ∈ enumerate members,
      ∃ d : Option (JsString × Json),
        (do return (← m.2).map fun j => (m.1, j)
          : Except JsError _) = .ok d := by
    intro m hm
    obtain ⟨d, hd⟩ := h m (mem_enumerate hm)
    exact ⟨d.map fun j => (m.1, j), by simp only [hd]; rfl⟩
  obtain ⟨ms, hms⟩ := mapM_returns hrounds
  exact ⟨ms.filterMap id, by rw [objectData, hms]; rfl⟩

/-- Plain data serializes: no member of it throws when it is read, and none
has a `toJSON` that could. By induction over the data. -/
theorem Plain.serialize (rt : Runtime) {v : JsVal} (h : Plain v) :
    ∃ j, KxcoPostQuantum.serialize rt v false = .ok (some j) := by
  induction h with
  | null => exact ⟨_, by rw [KxcoPostQuantum.serialize]⟩
  | bool b => exact ⟨_, by rw [KxcoPostQuantum.serialize]⟩
  | number n =>
      cases n with
      | finite q => exact ⟨_, by rw [KxcoPostQuantum.serialize]⟩
      | nan => exact ⟨_, by rw [KxcoPostQuantum.serialize]; nofun⟩
      | posInf => exact ⟨_, by rw [KxcoPostQuantum.serialize]; nofun⟩
      | negInf => exact ⟨_, by rw [KxcoPostQuantum.serialize]; nofun⟩
  | string s => exact ⟨_, by rw [KxcoPostQuantum.serialize]⟩
  | @array elems _ ih =>
      have hreturns : ∀ r ∈ serializeElements rt elems, ∃ j : Json,
          (do return (← r).getD .null : Except JsError Json) = .ok j := by
        intro r hr
        rw [serializeElements_eq] at hr
        obtain ⟨v, hv, rfl⟩ := List.mem_map.mp hr
        obtain ⟨j, hj⟩ := ih v hv
        exact ⟨j, by rw [hj]; rfl⟩
      obtain ⟨es, hes⟩ := mapM_returns hreturns
      exact ⟨.array es, by
        rw [KxcoPostQuantum.serialize, arrayData, hes]; rfl⟩
  | @object own hown ih =>
      have hmembers : ∀ m ∈ serializeMembers rt own,
          ∃ d, m.2 = .ok d := by
        intro m hm
        rw [serializeMembers_eq] at hm
        obtain ⟨m', hm', rfl⟩ := List.mem_map.mp hm
        obtain ⟨j, hj⟩ := ih m' hm'
        exact ⟨some j, hj⟩
      obtain ⟨ms, hdata⟩ := objectData_returns hmembers
      refine ⟨.object ms, ?_⟩
      rw [← hdata]
      refine serialize_object rt fun r => ?_
      rw [show toJson rt [] = none by rw [toJson], Option.or_none]
      rcases toJson_plain rt hown with h | h
      · rw [h]
        nofun
      · rw [h]
        nofun

/-- Plain data has a text. -/
theorem Plain.stringify (rt : Runtime) {v : JsVal} (h : Plain v) :
    ∃ text, KxcoPostQuantum.stringify rt v = .ok (some text) := by
  obtain ⟨j, hj⟩ := h.serialize rt
  exact ⟨j.print, by rw [KxcoPostQuantum.stringify, hj]; rfl⟩

-- ========================================================= valid data

/-- A loop that returns has done so for every element. -/
theorem forall₂_of_mapM {α β : Type} {f : α → Except JsError β}
    {l : List α} {bs : List β} (h : l.mapM f = .ok bs) :
    List.Forall₂ (fun a b => f a = .ok b) l bs := by
  induction l generalizing bs with
  | nil =>
      cases h
      exact .nil
  | cons a l ih =>
      simp only [List.mapM_cons, bind_eq_ok, pure_eq_ok] at h
      obtain ⟨b, hb, bs', hbs, rfl⟩ := h
      exact .cons hb (ih hbs)

/-- What a loop returns comes from its rounds. -/
theorem mem_of_mapM {α β : Type} {f : α → Except JsError β} {l : List α}
    {bs : List β} (h : l.mapM f = .ok bs) :
    ∀ b ∈ bs, ∃ a ∈ l, f a = .ok b := by
  have hall := forall₂_of_mapM h
  clear h
  induction hall with
  | nil => exact fun b hb => absurd hb List.not_mem_nil
  | @cons a b l bs hab _ ih =>
      intro b' hb'
      rcases List.mem_cons.mp hb' with rfl | hb'
      · exact ⟨a, List.mem_cons_self, hab⟩
      · obtain ⟨a', ha', hfa⟩ := ih b' hb'
        exact ⟨a', List.mem_cons_of_mem a ha', hfa⟩

/-- Each round of a loop that returns does. -/
theorem returns_of_mapM {α β : Type} {f : α → Except JsError β}
    {l : List α} {bs : List β} (h : l.mapM f = .ok bs) :
    ∀ a ∈ l, ∃ b ∈ bs, f a = .ok b := by
  have hall := forall₂_of_mapM h
  clear h
  induction hall with
  | nil => exact fun a ha => absurd ha List.not_mem_nil
  | @cons a b l bs hab _ ih =>
      intro a' ha'
      rcases List.mem_cons.mp ha' with rfl | ha'
      · exact ⟨b, List.mem_cons_self, hab⟩
      · obtain ⟨b', hb', hfa⟩ := ih a' ha'
        exact ⟨b', List.mem_cons_of_mem b hb', hfa⟩

/-- The data, if there is any, is valid. -/
def Serialized.Valid (r : Serialized) : Prop := ∀ j, r = .ok (some j) → j.Valid

/-- An array of valid values is valid. -/
theorem arrayData_valid {elems : List Serialized}
    (h : ∀ r ∈ elems, Serialized.Valid r) : (arrayData elems).Valid := by
  intro j hj
  simp only [arrayData, bind_eq_ok, pure_eq_ok, Option.some_inj] at hj
  obtain ⟨es, hes, rfl⟩ := hj
  refine .array fun e he => ?_
  obtain ⟨r, hr, hre⟩ := mem_of_mapM hes e he
  simp only [bind_eq_ok, pure_eq_ok] at hre
  obtain ⟨d, hd, rfl⟩ := hre
  cases d with
  | none => exact .null
  | some j => exact h r hr j hd

/-- An object of valid values is valid. -/
theorem objectData_valid {members : List (JsString × Serialized)}
    (h : ∀ m ∈ members, Serialized.Valid m.2) :
    (objectData members).Valid := by
  intro j hj
  simp only [objectData, bind_eq_ok, pure_eq_ok, Option.some_inj] at hj
  obtain ⟨ms, hms, rfl⟩ := hj
  refine .object fun m hm => ?_
  obtain ⟨d, hd, hdm⟩ := List.mem_filterMap.mp hm
  obtain ⟨m', hm', hround⟩ := mem_of_mapM hms d hd
  simp only [bind_eq_ok, pure_eq_ok] at hround
  obtain ⟨d', hd', rfl⟩ := hround
  cases d' with
  | none => cases hdm
  | some j =>
      cases hdm
      exact h m' (mem_enumerate hm') j hd'

mutual

/-- What a lawful host serializes is valid, whether or not a `toJSON` has
already been asked. The strings of a value are any strings; its numbers are
literals, which is where the host comes in. -/
theorem serialize_valid {rt : Runtime} (hrt : rt.Lawful) :
    ∀ v replaced, (serialize rt v replaced).Valid
  | .undefined, _ | .symbol, _ | .func _, _ => by
      intro j h
      rw [serialize] at h
      cases h
  | .null, _ => by
      intro j h
      rw [serialize] at h
      cases h
      exact .null
  | .bool b, _ => by
      intro j h
      rw [serialize] at h
      cases h
      exact .bool b
  | .number n, _ => by
      intro j h
      cases n with
      | finite q =>
          rw [serialize] at h
          cases h
          exact .number (hrt.number q)
      | nan | posInf | negInf =>
          rw [serialize] at h
          · cases h
            exact .null
          · nofun
  | .bigint _, _ | .raises _, _ => by
      intro j h
      rw [serialize] at h
      cases h
  | .string s, _ => by
      intro j h
      rw [serialize] at h
      cases h
      exact .string s
  | .uint8Array b, _ => by
      intro j h
      rw [serialize] at h
      cases h
      exact hrt.binary _
  | .view k b, _ => by
      intro j h
      rw [serialize] at h
      cases h
      exact hrt.binary _
  | .arrayBuffer b, _ => by
      intro j h
      rw [serialize] at h
      cases h
      exact hrt.binary _
  | .array elems, _ => by
      rw [serialize]
      exact arrayData_valid (serializeElements_valid hrt elems)
  | .object own inherited, replaced => by
      unfold serialize
      split
      next hr =>
        rcases Option.or_eq_some_iff.mp hr with h | ⟨-, h⟩
        · exact toJson_valid hrt own _ h
        · exact toJson_valid hrt inherited _ h
      next => exact objectData_valid (serializeMembers_valid hrt own)

/-- Every element comes out valid. -/
theorem serializeElements_valid {rt : Runtime} (hrt : rt.Lawful) :
    ∀ elems, ∀ r ∈ serializeElements rt elems, Serialized.Valid r
  | [] => by
      rw [serializeElements]
      nofun
  | v :: rest => by
      rw [serializeElements]
      exact List.forall_mem_cons.mpr
        ⟨serialize_valid hrt v false, serializeElements_valid hrt rest⟩

/-- Every member does. -/
theorem serializeMembers_valid {rt : Runtime} (hrt : rt.Lawful) :
    ∀ own, ∀ m ∈ serializeMembers rt own, Serialized.Valid m.2
  | [] => by
      rw [serializeMembers]
      nofun
  | (k, v) :: rest => by
      rw [serializeMembers]
      exact List.forall_mem_cons.mpr
        ⟨serialize_valid hrt v false, serializeMembers_valid hrt rest⟩

/-- And so does what `toJSON` returns. -/
theorem toJson_valid {rt : Runtime} (hrt : rt.Lawful) :
    ∀ own r, toJson rt own = some (some r) → r.Valid
  | [], r, h => by
      rw [toJson] at h
      cases h
  | (k, v) :: rest, r, h => by
      unfold toJson at h
      split at h
      next =>
        cases v with
        | func result =>
            cases h
            exact serialize_valid hrt result true
        | raises e =>
            cases h
            nofun
        | _ => cases h
      next => exact toJson_valid hrt rest r h

end

end KxcoPostQuantum
