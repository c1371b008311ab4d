/-
Trees of directories and files, over any names and contents.

A path is the list of names from the root down. `walk` lists every file
with its path, the way a recursive reading of the directories meets them;
`find` looks one path up. In a tree whose directories name each entry
once the two agree (`mem_walk`), so a walk is a listing of the map from
paths to contents that `find` is. `put` writes a file in the root
directory, and changes that map at one path (`findIn_put`).
-/
import Mathlib.Data.List.Nodup

namespace Lib

/-- A file, or a directory by its entries. -/
inductive FileTree (ν α : Type)
  | file (content : α)
  | directory (entries : List (ν × FileTree ν α))

namespace FileTree

variable {ν α : Type}

/-- What a directory holds. -/
abbrev Entries (ν α : Type) : Type := List (ν × FileTree ν α)

-- ============================================================== walk

mutual

/-- The files of a tree that is at `path`, with their paths. -/
def walk (path : List ν) : FileTree ν α → List (List ν × α)
  | .file c => [(path, c)]
  | .directory es => walkIn path es

/-- The files below the entries of the directory at `path`. -/
def walkIn (path : List ν) : Entries ν α → List (List ν × α)
  | [] => []
  | (n, t) :: es => walk (path ++ [n]) t ++ walkIn path es

end

-- ============================================================== find

section

variable [DecidableEq ν]

mutual

/-- The content of the file at a path. -/
def find : FileTree ν α → List ν → Option α
  | .file c, [] => some c
  | .file _, _ :: _ => none
  | .directory es, path => findIn es path

/-- The content of the file at a path in a directory. -/
def findIn : Entries ν α → List ν → Option α
  | [], _ => none
  | _ :: _, [] => none
  | (n, t) :: es, m :: path =>
      if n = m then find t path else findIn es (m :: path)

end

theorem findIn_root (es : Entries ν α) : findIn es [] = none := by
  cases es with
  | nil => rw [findIn]
  | cons e es => rw [findIn]

end

-- ============================================================= sound

/-- Every directory names each of its entries once, and by a name. -/
inductive Sound (Name : ν → Prop) : FileTree ν α → Prop
  | file (c : α) : Sound Name (.file c)
  | directory {es : Entries ν α} (names : ∀ e ∈ es, Name e.1)
      (distinct : (es.map (·.1)).Nodup)
      (entries : ∀ e ∈ es, Sound Name e.2) :
      Sound Name (.directory es)

section

variable [DecidableEq ν] {Name : ν → Prop}

/-- A path that begins with no name of the directory leads nowhere. -/
theorem findIn_notMem {es : Entries ν α} {m : ν} {path : List ν}
    (h : m ∉ es.map (·.1)) : findIn es (m :: path) = none := by
  induction es with
  | nil => rw [findIn]
  | cons e es ih =>
      obtain ⟨n, t⟩ := e
      rw [List.map_cons, List.mem_cons, not_or] at h
      rw [findIn, if_neg (Ne.symm h.1)]
      exact ih h.2

/-- Walking some entries, given what walking each of them lists: a path is
listed if its first name is an entry's and the rest leads to a file below
it. The names have to be distinct, or `find` would not see the second of
two. -/
theorem mem_walkIn {es : Entries ν α} (distinct : (es.map (·.1)).Nodup)
    (h : ∀ e ∈ es, ∀ path p c,
      (p, c) ∈ walk path e.2 ↔ ∃ q, p = path ++ q ∧ find e.2 q = some c)
    {path p : List ν} {c : α} :
    (p, c) ∈ walkIn path es ↔ ∃ q, p = path ++ q ∧ findIn es q = some c := by
  induction es with
  | nil => simp [walkIn, findIn]
  | cons e es ih =>
      obtain ⟨n, t⟩ := e
      rw [List.forall_mem_cons] at h
      rw [List.map_cons, List.nodup_cons] at distinct
      rw [walkIn, List.mem_append, h.1, ih distinct.2 h.2]
      constructor
      · intro hp
        rcases hp with ⟨q, rfl, hq⟩ | ⟨q, rfl, hq⟩
        · refine ⟨n :: q, by simp, ?_⟩
          rw [findIn, if_pos rfl]
          exact hq
        · refine ⟨q, rfl, ?_⟩
          cases q with
          | nil =>
              rw [findIn_root] at hq
              cases hq
          | cons m q =>
              -- the name is in the rest, so it is not the first one
              have hne : n ≠ m := by
                intro hnm
                rw [findIn_notMem (hnm ▸ distinct.1)] at hq
                cases hq
              rw [findIn, if_neg hne]
              exact hq
      · intro hp
        obtain ⟨q, rfl, hq⟩ := hp
        cases q with
        | nil =>
            rw [findIn_root] at hq
            cases hq
        | cons m q =>
            rw [findIn] at hq
            split at hq
            next hnm =>
              exact Or.inl ⟨q, by rw [hnm]; simp, hq⟩
            next => exact Or.inr ⟨m :: q, rfl, hq⟩

/-- **A walk lists what is found**: each file at its path, and nothing
else. -/
theorem mem_walk {t : FileTree ν α} (ht : Sound Name t) :
    ∀ path p c,
      (p, c) ∈ walk path t ↔ ∃ q, p = path ++ q ∧ find t q = some c := by
  induction ht with
  | file d =>
      intro path p c
      rw [walk, List.mem_singleton, Prod.mk.injEq]
      constructor
      · intro h
        obtain ⟨rfl, rfl⟩ := h
        exact ⟨[], (List.append_nil p).symm, by rw [find]⟩
      · intro h
        obtain ⟨q, rfl, hq⟩ := h
        cases q with
        | nil =>
            rw [find, Option.some_inj] at hq
            exact ⟨List.append_nil path, hq.symm⟩
        | cons n q =>
            rw [find] at hq
            cases hq
  | @directory es _ distinct _ ih =>
      intro path p c
      simp only [walk, find]
      exact mem_walkIn distinct ih

/-- The path of a file is made of names. In a sound tree every entry has
one, and a path is followed entry by entry. -/
theorem names_of_find {t : FileTree ν α} (ht : Sound Name t) :
    ∀ {path : List ν} {c : α}, find t path = some c → ∀ n ∈ path, Name n := by
  induction ht with
  | file d =>
      intro path c h
      cases path with
      | nil => simp
      | cons n path =>
          rw [find] at h
          cases h
  | @directory es names distinct entries ih =>
      intro path c h
      clear distinct entries
      rw [find] at h
      induction es with
      | nil =>
          rw [findIn] at h
          cases h
      | cons e es ihes =>
          obtain ⟨n, t⟩ := e
          rw [List.forall_mem_cons] at names ih
          cases path with
          | nil =>
              rw [findIn] at h
              cases h
          | cons m path =>
              rw [findIn] at h
              split at h
              next hnm =>
                intro k hk
                rcases List.mem_cons.mp hk with rfl | hk
                · exact hnm ▸ names.1
                · exact ih.1 h k hk
              next => exact ihes names.2 ih.2 h

-- =============================================================== put

/-- It is a file. -/
def isFile : FileTree ν α → Bool
  | .file _ => true
  | .directory _ => false

/-- A file of that name is written in a directory, over an older one. A
directory of that name is in the way. -/
def put (name : ν) (content : α) : Entries ν α → Option (Entries ν α)
  | [] => some [(name, .file content)]
  | (n, t) :: es =>
      if n = name then
        if t.isFile then some ((name, .file content) :: es) else none
      else (put name content es).map ((n, t) :: ·)

/-- What a write does to the entries from the first one on. -/
theorem put_cons {name n : ν} {content : α} {t : FileTree ν α}
    {es es' : Entries ν α} (h : put name content ((n, t) :: es) = some es') :
    (n = name ∧ (∃ c, t = .file c) ∧ es' = (name, .file content) :: es)
      ∨ (n ≠ name
        ∧ ∃ rest, put name content es = some rest ∧ es' = (n, t) :: rest) := by
  rw [put] at h
  split at h
  next hn =>
    cases t with
    | directory _ => cases h
    | file c => exact Or.inl ⟨hn, ⟨c, rfl⟩, (Option.some.inj h).symm⟩
  next hn =>
    obtain ⟨rest, hrest, heq⟩ := Option.map_eq_some_iff.mp h
    exact Or.inr ⟨hn, rest, hrest, heq.symm⟩

/-- The entries of a directory after a write, and that nothing but the
written file is new. -/
theorem mem_put {name : ν} {content : α} {es es' : Entries ν α}
    (h : put name content es = some es') :
    ∀ e ∈ es', e ∈ es ∨ e = (name, .file content) := by
  induction es generalizing es' with
  | nil =>
      cases h
      exact fun e he => Or.inr (List.mem_singleton.mp he)
  | cons e es ih =>
      intro e' he'
      rcases put_cons h with ⟨-, -, rfl⟩ | ⟨-, rest, hrest, rfl⟩
      · rcases List.mem_cons.mp he' with rfl | he'
        · exact Or.inr rfl
        · exact Or.inl (List.mem_cons_of_mem _ he')
      · rcases List.mem_cons.mp he' with rfl | he'
        · exact Or.inl List.mem_cons_self
        · exact (ih hrest e' he').imp_left (List.mem_cons_of_mem _)

/-- A write succeeds when no directory is in the way, whether or not there
is a file of that name. -/
theorem put_returns {name : ν} (content : α) {es : Entries ν α}
    (h : ∀ e ∈ es, e.1 = name → e.2.isFile) :
    ∃ es', put name content es = some es' := by
  induction es with
  | nil => exact ⟨_, rfl⟩
  | cons e es ih =>
      obtain ⟨n, t⟩ := e
      rw [List.forall_mem_cons] at h
      rw [put]
      split
      next hn => exact ⟨_, if_pos (h.1 hn)⟩
      next =>
        obtain ⟨rest, hrest⟩ := ih h.2
        exact ⟨_, by rw [hrest]; rfl⟩

/-- A write changes the map from paths to contents at one path. It fails
where the name is a directory's, so no path below that is lost. -/
theorem findIn_put {name : ν} {content : α} {es es' : Entries ν α}
    (h : put name content es = some es') (path : List ν) :
    findIn es' path
      = if path = [name] then some content else findIn es path := by
  cases path with
  | nil => rw [findIn_root, findIn_root, if_neg (List.cons_ne_nil _ _).symm]
  | cons m path =>
      induction es generalizing es' with
      | nil =>
          cases h
          by_cases hm : name = m
          · subst hm
            cases path with
            | nil => simp [findIn, find]
            | cons k path => simp [findIn, find]
          · simp [findIn, hm, Ne.symm hm]
      | cons e es ih =>
          obtain ⟨n, t⟩ := e
          rcases put_cons h with ⟨rfl, ⟨c, rfl⟩, rfl⟩ | ⟨hn, rest, hrest, rfl⟩
          · by_cases hm : n = m
            · subst hm
              cases path with
              | nil => simp [findIn, find]
              | cons k path => simp [findIn, find]
            · simp [findIn, hm, Ne.symm hm]
          · rw [findIn, findIn]
            by_cases hm : n = m
            · subst hm
              simp [hn]
            · rw [if_neg hm, if_neg hm]
              exact ih hrest

/-- A write of a name keeps a directory sound: the name is replaced where it
stands, or added behind the others, which it is none of. -/
theorem Sound.put {name : ν} {content : α} {es es' : Entries ν α}
    (hes : Sound Name (.directory es)) (hname : Name name)
    (h : FileTree.put name content es = some es') :
    Sound Name (.directory es') := by
  cases hes with
  | directory names distinct entries =>
      refine .directory ?_ ?_ ?_
      · intro e he
        rcases mem_put h e he with he | rfl
        · exact names e he
        · exact hname
      · clear names entries
        induction es generalizing es' with
        | nil =>
            cases h
            exact List.nodup_singleton name
        | cons e es ih =>
            obtain ⟨n, t⟩ := e
            rcases put_cons h with ⟨rfl, -, rfl⟩ | ⟨hn, rest, hrest, rfl⟩
            · exact distinct
            · rw [List.map_cons, List.nodup_cons] at distinct ⊢
              refine ⟨?_, ih hrest distinct.2⟩
              intro hmem
              obtain ⟨e, he, hen⟩ := List.mem_map.mp hmem
              rcases mem_put hrest e he with he | rfl
              · exact distinct.1 (List.mem_map.mpr ⟨e, he, hen⟩)
              · exact hn hen.symm
      · intro e he
        rcases mem_put h e he with he | rfl
        · exact entries e he
        · exact .file content

end

end FileTree
end Lib
