/-
How the script moves a file.

A package keeps its place below `vendor`, so the way from one file to
another is the same between their copies (`Placed.relative`), and its text
leads to the copy as a specifier (`newSpecifier_eq`, `resolve_specifierOf`).
The text of a copy is that of the file, cut at what the expression finds
and filled with the new specifiers (`rewrite_eq`), and the loops of the
script put each copy at its path (`addCode_copies`).
-/
import KxcoPostQuantum.Fips.Proofs.Integrity
import KxcoPostQuantum.Lib.Ecma.Declarations
import KxcoPostQuantum.Scripts.Vendor

namespace KxcoPostQuantum.Scripts.Vendor

open Lib Lib.Ecma

-- =============================================================== paths

/-- A file of a package of `@noble`, by its names from there. -/
structure Placed (env : Env) (file : Path) (names : List JsString) : Prop where
  eq : file = MODULES env ++ js "@noble" :: names
  isFileName : ∀ n ∈ names, IsFileName n
  deep : 2 ≤ names.length

/-- A file name moves neither up nor nowhere. -/
theorem isName_of_isFileName {n : JsString} (h : IsFileName n) :
    Posix.IsName (js "..") stays n := by
  obtain ⟨hempty, hdot, hup, -⟩ := h
  exact ⟨by rw [stays]; simp [hempty, hdot], hup⟩

/-- The directory of a file inside a directory is inside it. -/
theorem dirname_append {dir names : Path} (h : names ≠ []) :
    dirname (dir ++ names) = dir ++ dirname names :=
  List.dropLast_append_of_ne_nil h

/-- The way from one path to another does not depend on what both begin
with. -/
theorem relative_append (dir source target : Path) :
    relative (dir ++ source) (dir ++ target) = relative source target :=
  Posix.relative_append dir

namespace Placed

variable {env : Env} {file target : Path} {names names' : List JsString}

/-- A placed file has a name. -/
theorem ne_nil (h : Placed env file names) : names ≠ [] := by
  rintro rfl
  exact absurd h.deep (by decide)

/-- A package keeps its place below `vendor`. -/
theorem vendorPath (h : Placed env file names) :
    Vendor.vendorPath env file = .ok (VENDOR env ++ names) := by
  obtain ⟨pkg, rest, rfl⟩ := List.exists_cons_of_ne_nil h.ne_nil
  have hrel : Vendor.relative (MODULES env)
      (MODULES env ++ js "@noble" :: pkg :: rest)
        = js "@noble" :: pkg :: rest := by
    have happend := relative_append (MODULES env) []
      (js "@noble" :: pkg :: rest)
    rwa [List.append_nil] at happend
  rw [Vendor.vendorPath, h.eq, hrel]
  exact congrArg Except.ok
    (Posix.resolve_names fun n hn => isName_of_isFileName (h.isFileName n hn))

/-- Two files of the packages are copied to two places. -/
theorem vendorPath_inj {file' : Path} (h : Placed env file names)
    (h' : Placed env file' names')
    (heq : Vendor.vendorPath env file = Vendor.vendorPath env file') :
    file = file' := by
  rw [h.vendorPath, h'.vendorPath, Except.ok.injEq] at heq
  rw [h.eq, h'.eq, List.append_cancel_left heq]

/-- The way from one file to another is the same between the copies. -/
theorem relative (h : Placed env file names) (h' : Placed env target names') :
    Vendor.relative (dirname (VENDOR env ++ names)) (VENDOR env ++ names')
      = Vendor.relative (dirname file) target := by
  have hbelow (ns : List JsString) : MODULES env ++ js "@noble" :: ns
      = MODULES env ++ [js "@noble"] ++ ns := by
    rw [List.append_assoc]
    rfl
  rw [h.eq, h'.eq, hbelow names, hbelow names', dirname_append h.ne_nil,
    dirname_append h.ne_nil, relative_append, relative_append]

/-- It leads to the copy. -/
theorem resolve (h : Placed env file names) (h' : Placed env target names') :
    Vendor.resolve (dirname (VENDOR env ++ names))
        (Vendor.relative (dirname file) target)
      = VENDOR env ++ names' := by
  rw [← h.relative h', dirname_append h.ne_nil, relative_append]
  exact Posix.resolve_relative (by decide)
    fun n hn => isName_of_isFileName (h'.isFileName n hn)

/-- Its segments are names and ways up. -/
theorem segments (h : Placed env file names) (h' : Placed env target names') :
    ∀ n ∈ Vendor.relative (dirname file) target,
      n = js ".." ∨ n ∈ names' := by
  intro n hn
  rw [← h.relative h', dirname_append h.ne_nil, relative_append] at hn
  exact Posix.mem_relative hn

end Placed

-- ========================================================== specifiers

/-- A relative specifier begins with one dot or two, as a segment. -/
def IsRelative (spec : JsString) : Prop :=
  (splitUnit 47 spec).head? = some (js ".")
    ∨ (splitUnit 47 spec).head? = some (js "..")

/-- The text of segments, as a specifier. -/
def specifierOf (segments : List JsString) : JsString :=
  if (joinUnit 47 segments).head? = some 46 then joinUnit 47 segments
  else js "./" ++ joinUnit 47 segments

/-- The new specifier of a file of the packages is the way to the other file
as it was before the move. -/
theorem newSpecifier_eq {env : Env} {file target : Path}
    {names names' : List JsString} {s : JsString}
    (h : Placed env file names) (h' : Placed env target names')
    (hs : sourcePath env s file = .ok target) :
    newSpecifier env file s
      = .ok (specifierOf (relative (dirname file) target)) := by
  rw [newSpecifier, h.vendorPath, hs]
  show (do
    let target ← vendorPath env target
    let rel := joinUnit 47 (relative (dirname (VENDOR env ++ names)) target)
    return if rel.head? = some 46 then rel else js "./" ++ rel) = _
  rw [h'.vendorPath, ← h.relative h']
  rfl

section

variable {segments : List JsString}

/-- A segment of a text. -/
def IsSegment (n : JsString) : Prop := n ≠ [] ∧ 47 ∉ n

/-- Joining segments and cutting them again changes nothing. -/
theorem splitUnit_joinUnit (h : ∀ n ∈ segments, IsSegment n)
    (hne : segments ≠ []) : splitUnit 47 (joinUnit 47 segments) = segments :=
  List.splitOn_intercalate 47 (fun n hn => (h n hn).2) hne

/-- `./` is a segment of its own. -/
theorem splitUnit_dot (s : JsString) :
    splitUnit 47 (js "./" ++ s) = js "." :: splitUnit 47 s := by
  have h := List.splitOn_append_cons_self (a := 47) (js ".") s
  exact h

/-- The text of segments leads where the segments do. A specifier that would
not begin with a dot is written with `./` in front, which leads nowhere
else. -/
theorem resolve_specifierOf (h : ∀ n ∈ segments, IsSegment n) (dir : Path) :
    resolve dir (splitUnit 47 (specifierOf segments))
      = resolve dir segments := by
  rw [specifierOf]
  split
  next hdot =>
    rw [splitUnit_joinUnit h]
    rintro rfl
    cases hdot
  next =>
    have hstay : resolve dir (js "." :: splitUnit 47 (joinUnit 47 segments))
        = resolve dir (splitUnit 47 (joinUnit 47 segments)) := rfl
    rw [splitUnit_dot, hstay]
    cases segments with
    | nil => rfl
    | cons n segments => rw [splitUnit_joinUnit h (List.cons_ne_nil _ _)]

/-- It is a relative specifier, if the first segment is `..` or begins with
no dot. -/
theorem isRelative_specifierOf (h : ∀ n ∈ segments, IsSegment n)
    (hdots : ∀ n, segments.head? = some n →
      n = js ".." ∨ n.head? ≠ some 46) :
    IsRelative (specifierOf segments) := by
  rw [specifierOf]
  split
  next hdot =>
    cases segments with
    | nil => cases hdot
    | cons n segments =>
        obtain ⟨c, n, rfl⟩ := List.exists_cons_of_ne_nil
          (h n List.mem_cons_self).1
        have hhead : (joinUnit 47 ((c :: n) :: segments)).head? = some c := by
          cases segments <;> rfl
        have hc : c = 46 := Option.some.inj (hhead.symm.trans hdot)
        rw [IsRelative, splitUnit_joinUnit h (List.cons_ne_nil _ _)]
        refine Or.inr ((hdots _ rfl).elim (fun hup => ?_) fun hno => ?_)
        · rw [hup]
          rfl
        · rw [hc] at hno
          exact absurd rfl hno
  next =>
    rw [IsRelative, splitUnit_dot]
    exact Or.inl rfl

end

-- ========================================================== plain text

/-- Text that needs no escape, in whatever quotes. -/
structure IsPlain (s : JsString) : Prop where
  wellFormed : Utf8.WellFormed s
  units : ∀ c ∈ s, isQuote c = false ∧ c ≠ backslash ∧ c ≠ 10 ∧ c ≠ 13

instance (s : JsString) : Decidable (IsPlain s) :=
  have := List.decidableBAll
    (fun c => isQuote c = false ∧ c ≠ backslash ∧ c ≠ 10 ∧ c ≠ 13) s
  decidable_of_iff (Utf8.WellFormed s ∧ ∀ c ∈ s,
      isQuote c = false ∧ c ≠ backslash ∧ c ≠ 10 ∧ c ≠ 13)
    ⟨fun h => ⟨h.1, h.2⟩, fun h => ⟨h.1, h.2⟩⟩

/-- A joined text holds the separator and the units of its parts. -/
theorem mem_joinUnit {sep c : UInt16} {parts : List JsString} :
    c ∈ joinUnit sep parts → c = sep ∨ ∃ n ∈ parts, c ∈ n := by
  induction parts with
  | nil => exact fun h => absurd h List.not_mem_nil
  | cons n parts ih =>
      intro h
      cases parts with
      | nil =>
          rw [joinUnit, List.intercalate_singleton] at h
          exact Or.inr ⟨n, List.mem_cons_self, h⟩
      | cons n' parts =>
          rw [joinUnit, List.intercalate_cons_cons, List.mem_append,
            List.mem_append, List.mem_singleton] at h
          rcases h with (h | h) | h
          · exact Or.inr ⟨n, List.mem_cons_self, h⟩
          · exact Or.inl h
          · obtain hsep | ⟨n'', hn'', hc⟩ := ih h
            · exact Or.inl hsep
            · exact Or.inr ⟨n'', List.mem_cons_of_mem n hn'', hc⟩

/-- The units of a part are units of the whole. -/
theorem mem_of_mem_splitUnit {sep c : UInt16} {s n : JsString}
    (hn : n ∈ splitUnit sep s) (hc : c ∈ n) : c ∈ s := by
  have hjoin (parts : List JsString) (hn : n ∈ parts) :
      c ∈ [sep].intercalate parts := by
    induction parts with
    | nil => cases hn
    | cons n' parts ih =>
        cases parts with
        | nil =>
            rw [List.intercalate_singleton]
            exact List.mem_singleton.mp hn ▸ hc
        | cons n'' parts =>
            rw [List.intercalate_cons_cons, List.mem_append, List.mem_append]
            rcases List.mem_cons.mp hn with rfl | hn
            · exact Or.inl (Or.inl hc)
            · exact Or.inr (ih hn)
  have hmem := hjoin _ hn
  rwa [splitUnit, List.intercalate_splitOn] at hmem

/-- A slash is no half of a surrogate pair. -/
theorem isLead_slash : ¬Utf8.isLead 47 := by decide

/-- Neither of the halves. -/
theorem isTrail_slash : ¬Utf8.isTrail 47 := by decide

/-- Well-formed segments make a well-formed text. -/
theorem wellFormed_joinUnit {parts : List JsString}
    (h : ∀ n ∈ parts, Utf8.WellFormed n) :
    Utf8.WellFormed (joinUnit 47 parts) := by
  induction parts with
  | nil => exact .nil
  | cons n parts ih =>
      rw [List.forall_mem_cons] at h
      cases parts with
      | nil =>
          rw [joinUnit, List.intercalate_singleton]
          exact h.1
      | cons n' parts =>
          rw [joinUnit, List.intercalate_cons_cons, List.append_assoc]
          exact h.1.append (.unit isLead_slash isTrail_slash (ih h.2))

/-- The parts of well-formed text are well-formed. -/
theorem wellFormed_splitUnit {s n : JsString} (h : Utf8.WellFormed s)
    (hn : n ∈ splitUnit 47 s) : Utf8.WellFormed n := by
  have hjoin (parts : List JsString)
      (h : Utf8.WellFormed ([47].intercalate parts)) (hn : n ∈ parts) :
      Utf8.WellFormed n := by
    induction parts with
    | nil => cases hn
    | cons n' parts ih =>
        cases parts with
        | nil =>
            rw [List.intercalate_singleton] at h
            exact List.mem_singleton.mp hn ▸ h
        | cons n'' parts =>
            rw [List.intercalate_cons_cons, List.append_assoc] at h
            obtain ⟨hn', hparts⟩ := h.split isLead_slash isTrail_slash
            rcases List.mem_cons.mp hn with rfl | hn
            · exact hn'
            · exact ih hparts hn
  exact hjoin (splitUnit 47 s) (by
    rwa [splitUnit, List.intercalate_splitOn]) hn

section

variable {env : Env} {file target : Path} {s : JsString}

/-- The names below the modules, of what a specifier leads to: they are the
file's own or the specifier's segments, and both are plain. -/
theorem plain_sourcePath (h : sourcePath env s file = .ok target)
    (hs : IsPlain s)
    (hfile : ∀ n ∈ file.drop (MODULES env).length, IsPlain n) :
    ∀ n ∈ target.drop (MODULES env).length, IsPlain n := by
  have hsegments (n : JsString) (hn : n ∈ splitUnit 47 s) : IsPlain n :=
    ⟨wellFormed_splitUnit hs.wellFormed hn,
      fun c hc => hs.units c (mem_of_mem_splitUnit hn hc)⟩
  intro n hn
  rw [sourcePath] at h
  split at h
  next =>
    cases h
    rcases Posix.mem_drop_resolve hn with hn | hn
    · rw [dirname, List.dropLast_eq_take, List.drop_take] at hn
      exact hfile n (List.mem_of_mem_take hn)
    · exact hsegments n hn
  next =>
    split at h
    next hsplit =>
      cases h
      rcases Posix.mem_drop_resolve hn with hn | hn
      · rw [List.drop_length] at hn
        cases hn
      · exact hsegments n (hsplit ▸ hn)
    next => cases h

/-- The entries of the script are plain. -/
theorem plain_entries : ∀ e ∈ ENTRIES, IsPlain e := by
  decide

/-- The specifier of a copy needs no escape, if the names that it is made of
need none. -/
theorem plain_specifierOf {segments : List JsString}
    (h : ∀ n ∈ segments, IsPlain n) : IsPlain (specifierOf segments) := by
  have hjoin : IsPlain (joinUnit 47 segments) := by
    refine ⟨wellFormed_joinUnit fun n hn => (h n hn).wellFormed,
      fun c hc => ?_⟩
    rcases mem_joinUnit hc with rfl | ⟨n, hn, hc⟩
    · decide
    · exact (h n hn).units c hc
  have hhere : IsPlain (js "./") := by decide
  rw [specifierOf]
  split
  next => exact hjoin
  next =>
    refine ⟨hhere.wellFormed.append hjoin.wellFormed, fun c hc => ?_⟩
    exact (List.mem_append.mp hc).elim (hhere.units c) (hjoin.units c)

/-- A plain text is the body of a string in either quotes. -/
theorem IsPlain.stringBody {quote : UInt16} (h : IsPlain s)
    (hquote : quote = 34 ∨ quote = 39) : stringBody quote s = true := by
  have hescape : backslash ∉ s := fun hmem => (h.units _ hmem).2.1 rfl
  rw [stringBody_iff hescape]
  intro c hc
  obtain ⟨hno, -, hends⟩ := h.units c hc
  refine ⟨?_, hends⟩
  rintro rfl
  rcases hquote with rfl | rfl <;> cases hno

end

-- ============================================================= matches

/-- The parts of a piece of a text. -/
def pieceParts : Piece UInt16 Statement → List Part
  | .unit c => [.unit c]
  | .found m _ => m.head.map .unit ++ (.specifier m.spec :: m.tail.map .unit)

/-- What the expression cuts a text into. -/
def matchedParts (text : JsString) : List Part :=
  (scan SPECIFIER none 0 text).flatMap pieceParts

/-- The expression finds no specifier with a quote. -/
theorem spec_of_SPECIFIER {before : Option UInt16} {text : JsString}
    {m : Statement} {n : Nat} (h : SPECIFIER before text = some (m, n)) :
    ∀ c ∈ m.spec, isQuote c = false := by
  rw [SPECIFIER] at h
  split at h
  next =>
    obtain ⟨rest, -, h⟩ := Option.bind_eq_some_iff.mp h
    simp only [Option.ite_none_right_eq_some] at h
    obtain ⟨-, h⟩ := h
    cases h
    intro c hc
    simpa using List.mem_takeWhile_imp hc
  next => cases h

/-- The specifiers of a piece are the one it has matched. -/
theorem mem_pieceParts {p : Piece UInt16 Statement} {s : JsString} :
    .specifier s ∈ pieceParts p ↔ ∃ m, p.result? = some m ∧ m.spec = s := by
  cases p with
  | unit c => simp [pieceParts, Piece.result?]
  | found m t => simp [pieceParts, Piece.result?, eq_comm]

/-- The specifiers among the parts are those of the matches. -/
theorem mem_matchedParts {text s : JsString} :
    .specifier s ∈ matchedParts text
      ↔ ∃ m ∈ matchAll SPECIFIER text, m.spec = s := by
  simp only [matchedParts, matchAll, List.mem_flatMap, List.mem_filterMap,
    mem_pieceParts]
  constructor
  · rintro ⟨p, hp, m, hm, hs⟩
    exact ⟨m, ⟨p, hp, hm⟩, hs⟩
  · rintro ⟨m, ⟨p, hp, hm⟩, hs⟩
    exact ⟨p, hp, m, hm, hs⟩

/-- No specifier that the expression finds holds a quote. -/
theorem quote_of_matchedParts {text s : JsString}
    (h : .specifier s ∈ matchedParts text) : ∀ c ∈ s, isQuote c = false := by
  obtain ⟨m, hm, rfl⟩ := mem_matchedParts.mp h
  obtain ⟨p, hp, hresult⟩ := List.mem_filterMap.mp hm
  cases p with
  | unit c => cases hresult
  | found m' t =>
      cases hresult
      obtain ⟨before, text', n, hmatch⟩ := found_of_scan hp
      exact spec_of_SPECIFIER hmatch

-- ============================================================= rewrite

section

variable {env : Env} {tree : Directory} {file : Path}

/-- The new specifier for an old one. -/
def newOf (env : Env) (file : Path) (s : JsString) : JsString :=
  (newSpecifier env file s).toOption.getD []

/-- A rewritten piece is the piece with its new specifier filled in. -/
theorem rewritePiece_eq {p : Piece UInt16 Statement} {r : JsString}
    (h : rewritePiece env file p = .ok r) :
    r = (pieceParts p).flatMap (Part.fill (newOf env file)) := by
  cases p with
  | unit c =>
      cases h
      rfl
  | found m t =>
      obtain ⟨rel, hrel, h⟩ := bind_eq_ok.mp h
      cases h
      rw [pieceParts, List.flatMap_append, List.flatMap_cons, fill_units,
        fill_units, Part.fill, newOf, hrel]
      rfl

/-- The copy of a file is its parts, with other specifiers: what no match
covers is copied as it stands, and in a match only what is between the
quotation marks is replaced. -/
theorem rewrite_eq {src : Bytes} {body : JsString}
    (hsrc : readFileSync env tree file = .ok src)
    (h : rewrite env tree file = .ok body) :
    body = (matchedParts (utf8Text src)).flatMap
      (Part.fill (newOf env file)) := by
  obtain ⟨out, -, hread⟩ := bind_eq_ok.mp h
  obtain ⟨src', hsrc', hmap⟩ := bind_eq_ok.mp hread
  obtain rfl : src = src' := Except.ok.inj (hsrc.symm.trans hsrc')
  obtain ⟨pieces, hpieces, hbody⟩ := bind_eq_ok.mp hmap
  cases hbody
  have hall := forall₂_of_mapM hpieces
  rw [matchedParts]
  generalize scan SPECIFIER none 0 (utf8Text src) = l at hall ⊢
  clear hpieces hmap hread h
  induction hall with
  | nil => rfl
  | cons hp _ ih =>
      rw [List.flatten_cons, ih, rewritePiece_eq hp, List.flatMap_cons,
        List.flatMap_append]

end

-- =============================================================== files

section

variable {files files' : List (Path × JsString)} {path : Path}
  {body : JsString} {f : Path × JsString}

/-- A file set is the only one that is new. -/
theorem mem_setFile (h : f ∈ setFile files path body) :
    f ∈ files ∨ f = (path, body) := by
  induction files with
  | nil => exact Or.inr (List.mem_singleton.mp h)
  | cons f' files ih =>
      rw [setFile] at h
      split at h
      next =>
        rcases List.mem_cons.mp h with rfl | h
        · exact Or.inr rfl
        · exact Or.inl (List.mem_cons_of_mem _ h)
      next =>
        rcases List.mem_cons.mp h with rfl | h
        · exact Or.inl List.mem_cons_self
        · exact (ih h).imp_left (List.mem_cons_of_mem _)

/-- It is there. -/
theorem mem_setFile_self : (path, body) ∈ setFile files path body := by
  induction files with
  | nil => exact List.mem_singleton_self _
  | cons f' files ih =>
      rw [setFile]
      split
      next => exact List.mem_cons_self
      next => exact List.mem_cons_of_mem _ ih

/-- The files of other paths stay. -/
theorem mem_setFile_of_ne (h : f ∈ files) (hne : f.1 ≠ path) :
    f ∈ setFile files path body := by
  induction files with
  | nil => cases h
  | cons f' files ih =>
      rw [setFile]
      split
      next hpath =>
        rcases List.mem_cons.mp h with rfl | h
        · exact absurd hpath hne
        · exact List.mem_cons_of_mem _ h
      next =>
        rcases List.mem_cons.mp h with rfl | h
        · exact List.mem_cons_self
        · exact List.mem_cons_of_mem _ (ih h)

/-- Each path still has one file. -/
theorem nodup_setFile (h : (files.map (·.1)).Nodup) :
    ((setFile files path body).map (·.1)).Nodup := by
  induction files with
  | nil => exact List.nodup_singleton path
  | cons f' files ih =>
      rw [List.map_cons, List.nodup_cons] at h
      rw [setFile]
      split
      next hpath =>
        rw [List.map_cons, List.nodup_cons]
        exact ⟨hpath ▸ h.1, h.2⟩
      next hpath =>
        rw [List.map_cons, List.nodup_cons]
        refine ⟨fun hmem => ?_, ih h.2⟩
        obtain ⟨f, hf, hfst⟩ := List.mem_map.mp hmem
        rcases mem_setFile hf with hf | rfl
        · exact h.1 (List.mem_map.mpr ⟨f, hf, hfst⟩)
        · exact hpath hfst.symm

variable {env : Env} {tree : Directory} {pkgs : List JsString}
  {versions versions' sources sources' : List (JsString × JsVal)}

/-- The loop over the packages sets their licences, one path for each
package, and a path that is set twice still has one file. -/
theorem addPackages_files
    (h : addPackages env tree files versions pkgs = .ok (files', versions'))
    (hnd : (files.map (·.1)).Nodup) :
    (files'.map (·.1)).Nodup
      ∧ ∀ f ∈ files', f ∈ files ∨ ∃ pkg ∈ pkgs, f.1 = licensePath env pkg := by
  induction pkgs generalizing files versions with
  | nil =>
      cases h
      exact ⟨hnd, fun f hf => Or.inl hf⟩
  | cons pkg pkgs ih =>
      obtain ⟨json, -, h⟩ := bind_eq_ok.mp h
      obtain ⟨package, -, h⟩ := bind_eq_ok.mp h
      obtain ⟨version, -, h⟩ := bind_eq_ok.mp h
      obtain ⟨license, -, h⟩ := bind_eq_ok.mp h
      obtain ⟨hnd', hmem⟩ := ih h (nodup_setFile hnd)
      refine ⟨hnd', fun f hf => ?_⟩
      rcases hmem f hf with hf | ⟨pkg', hpkg', hpath⟩
      · rcases mem_setFile hf with hf | rfl
        · exact Or.inl hf
        · exact Or.inr ⟨pkg, List.mem_cons_self, rfl⟩
      · exact Or.inr ⟨pkg', List.mem_cons_of_mem _ hpkg', hpath⟩

variable {code : List Path} {file : Path}

/-- One round of the loop over the closure. -/
theorem addCode_cons {r : List (Path × JsString) × List (JsString × JsVal)}
    (h : addCode env tree files sources (file :: code) = .ok r) :
    ∃ out body sources', vendorPath env file = .ok out
      ∧ rewrite env tree file = .ok body
      ∧ addCode env tree (setFile files out body) sources' code = .ok r := by
  obtain ⟨out, hout, h⟩ := bind_eq_ok.mp h
  obtain ⟨body, hbody, h⟩ := bind_eq_ok.mp h
  obtain ⟨src, -, h⟩ := bind_eq_ok.mp h
  exact ⟨out, body, _, hout, hbody, h⟩

/-- The loop over the closure sets the copies, and nothing else: a file
whose path is no copy's stays as it was. -/
theorem addCode_files
    (h : addCode env tree files sources code = .ok (files', sources'))
    (hnd : (files.map (·.1)).Nodup) :
    (files'.map (·.1)).Nodup
      ∧ (∀ f ∈ files', f ∈ files
        ∨ ∃ file ∈ code, vendorPath env file = .ok f.1)
      ∧ ∀ f ∈ files, (∀ file ∈ code, vendorPath env file ≠ .ok f.1) →
        f ∈ files' := by
  induction code generalizing files sources with
  | nil =>
      cases h
      exact ⟨hnd, fun f hf => Or.inl hf, fun f hf _ => hf⟩
  | cons file code ih =>
      obtain ⟨out, body, sources₁, hout, -, h⟩ := addCode_cons h
      obtain ⟨hnd', hmem, hkeep⟩ := ih h (nodup_setFile hnd)
      refine ⟨hnd', fun f hf => ?_, fun f hf hother => ?_⟩
      · rcases hmem f hf with hf | ⟨file', hfile', hpath⟩
        · rcases mem_setFile hf with hf | rfl
          · exact Or.inl hf
          · exact Or.inr ⟨file, List.mem_cons_self, hout⟩
        · exact Or.inr ⟨file', List.mem_cons_of_mem _ hfile', hpath⟩
      · rw [List.forall_mem_cons] at hother
        refine hkeep f (mem_setFile_of_ne hf fun hpath => ?_) hother.2
        exact hother.1 (hpath ▸ hout)

/-- Each copy is among the files, if no two have the same path: it is set in
its own turn, and no later turn sets that path again. -/
theorem addCode_copies
    (h : addCode env tree files sources code = .ok (files', sources'))
    (hnd : (files.map (·.1)).Nodup) (hcode : code.Nodup)
    (hinj : ∀ file ∈ code, ∀ file' ∈ code,
      vendorPath env file = vendorPath env file' → file = file') :
    ∀ file ∈ code, ∃ out body, vendorPath env file = .ok out
      ∧ rewrite env tree file = .ok body ∧ (out, body) ∈ files' := by
  induction code generalizing files sources with
  | nil => exact fun file hfile => absurd hfile List.not_mem_nil
  | cons file code ih =>
      obtain ⟨out, body, sources₁, hout, hbody, hrest⟩ := addCode_cons h
      rw [List.nodup_cons] at hcode
      intro file' hfile'
      rcases List.mem_cons.mp hfile' with rfl | hfile'
      · refine ⟨out, body, hout, hbody, ?_⟩
        obtain ⟨-, -, hkeep⟩ := addCode_files hrest (nodup_setFile hnd)
        refine hkeep _ mem_setFile_self fun file hfile hpath => ?_
        have heq := hinj file' List.mem_cons_self file
          (List.mem_cons_of_mem _ hfile) (hout.trans hpath.symm)
        exact hcode.1 (heq ▸ hfile)
      · exact ih hrest (nodup_setFile hnd) hcode.2 (fun f hf g hg =>
          hinj f (List.mem_cons_of_mem _ hf) g (List.mem_cons_of_mem _ hg))
          file' hfile'

end

end KxcoPostQuantum.Scripts.Vendor
