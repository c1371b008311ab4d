/-
The vendored files are closed under their imports.

# The condition

The expression of the script takes each statement for an import that
begins a line and has a `from`; it does not see `import './x.js'`
(`vendor_misses`). `Legible` says of a file that the expression finds the
declarations it has and nothing else, and that its path is one the script
can move: below a package of `@noble`, and with no name in the way that
begins with a dot.

# Order

What the closure lists is what the declarations reach (`reached_of_mem`),
so the new specifier of each leads to a copy (`newOf_spec`), and a copy is
its file with other specifiers (`copy_eq`). The other way round, nothing
that the declarations reach may be missing from the list of a closed
directory (`listed_of_closed`). The sample is a repository of which one
file imports another, with a `from` or without.
-/
import KxcoPostQuantum.Scripts.Proofs.Moves

namespace KxcoPostQuantum.Scripts.Vendor

open Lib Lib.Ecma

-- ========================================================== statements

section

variable (env : Env) (tree : Directory) (tokens : Path → List Token)

/-- The files that the import and re-export declarations lead to. -/
inductive Reached : Path → Prop
  | entry {e : JsString} {file : Path} (he : e ∈ ENTRIES)
      (h : sourcePath env e [] = .ok file) : Reached file
  | declared {file target : Path} {s : JsString} (h : Reached file)
      (hs : s ∈ specifiers .start (tokens file))
      (htarget : sourcePath env s file = .ok target) : Reached target

/-- The script sees a file and its declarations as what they are. -/
structure Legible (file : Path) : Prop where
  /-- The file is UTF-8, and read as the tokens. -/
  lexes : ∃ text, Utf8.WellFormed text
    ∧ tree.find file = some (Utf8.textEncode text)
    ∧ Lexes text (tokens file)
    ∧ matchedParts text = parts .start (tokens file)
  /-- No specifier has an escape. -/
  escapes : ∀ s ∈ specifiers .start (tokens file), backslash ∉ s
  /-- It is a file of a package of `@noble`. -/
  package : ∃ pkg name rest,
    file = MODULES env ++ js "@noble" :: pkg :: name :: rest
  /-- No declaration leads down to a name that begins with a dot. -/
  dots : ∀ s ∈ specifiers .start (tokens file), ∀ target,
    sourcePath env s file = .ok target →
    ∀ n, (relative (dirname file) target).head? = some n →
      n = js ".." ∨ n.head? ≠ some 46

/-- The vendored files are closed: each is a source file with relative
specifiers, each of which leads to the copy of the file that the original
one leads to. -/
structure Closed (code : List Path) (files : List (Path × JsString)) :
    Prop where
  copies : ∀ file ∈ code, ∃ (out : Path) (new : JsString → JsString),
    vendorPath env file = .ok out
    ∧ tree.find file = some (Utf8.textEncode (textOf (tokens file)))
    ∧ (out, textOf (rename new .start (tokens file))) ∈ files
    ∧ Utf8.WellFormed (textOf (rename new .start (tokens file)))
    ∧ Lexes (textOf (rename new .start (tokens file)))
        (rename new .start (tokens file))
    ∧ ∀ s ∈ specifiers .start (tokens file), IsRelative (new s)
      ∧ ∃ target ∈ code, sourcePath env s file = .ok target
        ∧ vendorPath env target
          = .ok (resolve (dirname out) (splitUnit 47 (new s)))
  distinct : ∀ file ∈ code, ∀ file' ∈ code,
    vendorPath env file = vendorPath env file' → file = file'
  /-- A path is written once. -/
  once : (files.map (·.1)).Nodup
  /-- What is no copy is a licence or the record. -/
  others : ∀ f ∈ files, (∃ file ∈ code, vendorPath env file = .ok f.1)
    ∨ f.1 = recordPath env
    ∨ ∃ pkg ∈ PACKAGES, f.1 = licensePath env pkg

end

-- ============================================================= legible

/-- Text that was encoded is decoded as it was. -/
theorem utf8Text_textEncode {text : JsString} (h : Utf8.WellFormed text) :
    utf8Text (Utf8.textEncode text) = text := by
  rw [utf8Text, Utf8.decode_textEncode h, h.units_scalars]

section

variable {env : Env} {tree : Directory} {tokens : Path → List Token}
  {file : Path}

/-- What is read is in the tree. -/
theorem find_of_readFileSync {src : Bytes}
    (h : readFileSync env tree file = .ok src) : tree.find file = some src := by
  rw [readFileSync] at h
  split at h
  next hfind =>
    cases h
    exact hfind
  next => cases h

/-- What is read of a legible file. -/
theorem Legible.read {src : Bytes} (h : Legible env tree tokens file)
    (hsrc : readFileSync env tree file = .ok src) :
    Utf8.WellFormed (textOf (tokens file))
      ∧ src = Utf8.textEncode (textOf (tokens file))
      ∧ Lexes (utf8Text src) (tokens file)
      ∧ matchedParts (utf8Text src) = parts .start (tokens file) := by
  obtain ⟨text, hwf, hfind, hlexes, hparts⟩ := h.lexes
  rw [find_of_readFileSync hsrc, Option.some.injEq] at hfind
  rw [hfind, utf8Text_textEncode hwf, hlexes.text_eq]
  exact ⟨hwf, rfl, hlexes, hparts⟩

/-- What the expression finds are the specifiers of the declarations. -/
theorem Legible.mem_specifiers {src : Bytes} {s : JsString}
    (h : Legible env tree tokens file)
    (hsrc : readFileSync env tree file = .ok src) :
    s ∈ specifiers .start (tokens file)
      ↔ ∃ m ∈ matchAll SPECIFIER (utf8Text src), m.spec = s := by
  obtain ⟨-, -, -, hparts⟩ := h.read hsrc
  rw [← mem_parts, ← hparts, mem_matchedParts]

/-- A specifier of a legible file is plain. -/
theorem Legible.isPlain {src : Bytes} {s : JsString}
    (h : Legible env tree tokens file)
    (hsrc : readFileSync env tree file = .ok src)
    (hs : s ∈ specifiers .start (tokens file)) : IsPlain s := by
  obtain ⟨hwf, -, hlexes, hparts⟩ := h.read hsrc
  have hquote := quote_of_matchedParts (hparts ▸ mem_parts.mpr hs)
  obtain ⟨quote, hbody⟩ := stringBody_of_mem hlexes.lexed hs
  refine ⟨wellFormed_specifier (x := []) hlexes.lexed hwf hs, fun c hc => ?_⟩
  have hunits := (stringBody_iff (h.escapes s hs)).mp hbody c hc
  refine ⟨hquote c hc, ?_, hunits.2⟩
  rintro rfl
  exact h.escapes s hs hc

/-- A legible file is in its place. -/
theorem Legible.placed (h : Legible env tree tokens file) :
    ∃ names, Placed env file names := by
  obtain ⟨pkg, name, rest, hfile⟩ := h.package
  obtain ⟨text, -, hfind, -⟩ := h.lexes
  refine ⟨pkg :: name :: rest, hfile, fun n hn => ?_, by simp⟩
  apply tree.names_of_find hfind
  rw [hfile]
  exact List.mem_append_right _ (List.mem_cons_of_mem _ hn)

end

-- ============================================================= closure

section

variable {env : Env} {tree : Directory} {tokens : Path → List Token}
  {code : List Path} {file target : Path}

/-- The sorted list holds what the search found. -/
theorem closure_sorted (hcode : closure env tree = .ok code) :
    ∃ entries seen, ENTRIES.mapM (fun e => sourcePath env e []) = .ok entries
      ∧ Worklist.closure (imports env tree) (allFiles tree)
        (mem_allFiles env tree) entries.reverse = .ok seen
      ∧ code.Perm seen := by
  obtain ⟨entries, hentries, hcode⟩ := bind_eq_ok.mp hcode
  obtain ⟨seen, hseen, hcode⟩ := bind_eq_ok.mp hcode
  cases hcode
  exact ⟨entries, seen, hentries, hseen, List.perm_insertionSort _ seen⟩

/-- The closure holds no file twice. -/
theorem nodup_code (hcode : closure env tree = .ok code) : code.Nodup := by
  obtain ⟨entries, seen, -, hseen, hperm⟩ := closure_sorted hcode
  exact hperm.nodup_iff.mpr (Worklist.nodup_closure hseen)

/-- A listed file can be read, and what it imports is listed: the closure
goes on until nothing new is found. -/
theorem targets_of_mem (hcode : closure env tree = .ok code)
    (hfile : file ∈ code) :
    ∃ src, readFileSync env tree file = .ok src
      ∧ ∀ m ∈ matchAll SPECIFIER (utf8Text src),
        ∃ target ∈ code, sourcePath env m.spec file = .ok target := by
  obtain ⟨entries, seen, -, hseen, hperm⟩ := closure_sorted hcode
  obtain ⟨targets, hnext, htargets⟩ :=
    Worklist.next_of_mem hseen (hperm.mem_iff.mp hfile)
  obtain ⟨src, hsrc, hnext⟩ := bind_eq_ok.mp hnext
  obtain ⟨found, hmap, hnext⟩ := bind_eq_ok.mp hnext
  cases hnext
  refine ⟨src, hsrc, fun m hm => ?_⟩
  obtain ⟨target, htarget, hsource⟩ := returns_of_mapM hmap m hm
  exact ⟨target, hperm.mem_iff.mpr (htargets target
    (List.mem_reverse.mpr htarget)), hsource⟩

/-- What the script lists is what the declarations reach: in a legible file
its expression matches the declarations, so it follows no specifier that is
none. -/
theorem reached_of_mem (hcode : closure env tree = .ok code)
    (hlegible : ∀ file, Reached env tokens file →
      Legible env tree tokens file) (hfile : file ∈ code) :
    Reached env tokens file := by
  obtain ⟨entries, seen, hentries, hseen, hperm⟩ := closure_sorted hcode
  have hreached := (Worklist.mem_closure hseen).mp (hperm.mem_iff.mp hfile)
  clear hfile
  induction hreached with
  | root h =>
      obtain ⟨e, he, hsource⟩ := mem_of_mapM hentries _ (List.mem_reverse.mp h)
      exact .entry he hsource
  | step _ hnext hb ih =>
      obtain ⟨src, hsrc, htargets⟩ := bind_eq_ok.mp hnext
      obtain ⟨targets, hmap, htargets⟩ := bind_eq_ok.mp htargets
      cases htargets
      obtain ⟨m, hm, hsource⟩ := mem_of_mapM hmap _ (List.mem_reverse.mp hb)
      exact .declared ih (((hlegible _ ih).mem_specifiers hsrc).mpr
        ⟨m, hm, rfl⟩) hsource

/-- The names of a file that is reached have nothing to escape. -/
theorem plain_reached (hlegible : ∀ file, Reached env tokens file →
      Legible env tree tokens file) (h : Reached env tokens file) :
    ∀ n ∈ file.drop (MODULES env).length, IsPlain n := by
  induction h with
  | entry he h => exact plain_sourcePath h (plain_entries _ he) (by simp)
  | @declared file target s h hs htarget ih =>
      have hfile := hlegible file h
      obtain ⟨text, -, hfind, -⟩ := hfile.lexes
      have hsrc : readFileSync env tree file
          = .ok (Utf8.textEncode text) := by
        rw [readFileSync, hfind]
      exact plain_sourcePath htarget (hfile.isPlain hsrc hs) ih

end

-- ============================================================== closed

section

variable {env : Env} {tree : Directory} {tokens : Path → List Token}
  {code : List Path} {files : List (Path × JsString)}

/-- The new specifier leads from the copy of a file to the copy of what
the old one leads to. -/
theorem newOf_spec (hcode : closure env tree = .ok code)
    (hlegible : ∀ file, Reached env tokens file →
      Legible env tree tokens file) {file : Path} (hfile : file ∈ code)
    {s : JsString} (hs : s ∈ specifiers .start (tokens file)) :
    IsPlain (newOf env file s) ∧ IsRelative (newOf env file s)
      ∧ ∃ target ∈ code, sourcePath env s file = .ok target
        ∧ ∃ out, vendorPath env file = .ok out ∧ vendorPath env target
          = .ok (resolve (dirname out) (splitUnit 47 (newOf env file s))) := by
  have hlegible' := hlegible file (reached_of_mem hcode hlegible hfile)
  obtain ⟨src, hsrc, htargets⟩ := targets_of_mem hcode hfile
  obtain ⟨m, hm, rfl⟩ := (hlegible'.mem_specifiers hsrc).mp hs
  obtain ⟨target, htarget, hsource⟩ := htargets m hm
  have hreached := reached_of_mem hcode hlegible htarget
  obtain ⟨names, hplaced⟩ := hlegible'.placed
  obtain ⟨names', hplaced'⟩ := (hlegible target hreached).placed
  have hsegments := hplaced.segments hplaced'
  have hsegment : ∀ n ∈ relative (dirname file) target, IsSegment n := by
    intro n hn
    rcases hsegments n hn with rfl | hn
    · exact ⟨by decide, by decide⟩
    · obtain ⟨hempty, -, -, hslash⟩ := hplaced'.isFileName n hn
      exact ⟨hempty, hslash⟩
  have hplain : ∀ n ∈ relative (dirname file) target, IsPlain n := by
    intro n hn
    rcases hsegments n hn with rfl | hn
    · decide
    · apply plain_reached hlegible hreached n
      rw [hplaced'.eq, List.drop_left]
      exact List.mem_cons_of_mem _ hn
  have hnew : newOf env file m.spec
      = specifierOf (relative (dirname file) target) := by
    rw [newOf, newSpecifier_eq hplaced hplaced' hsource]
    rfl
  rw [hnew]
  refine ⟨plain_specifierOf hplain, isRelative_specifierOf hsegment
    (hlegible'.dots _ hs target hsource), target, htarget, hsource, _,
    hplaced.vendorPath, ?_⟩
  rw [resolve_specifierOf hsegment, hplaced.resolve hplaced',
    hplaced'.vendorPath]

/-- Two files of the closure are copied to two places, for below the modules
a path is kept as it is. -/
theorem inj_code (hcode : closure env tree = .ok code)
    (hlegible : ∀ file, Reached env tokens file →
      Legible env tree tokens file) :
    ∀ file ∈ code, ∀ file' ∈ code,
      vendorPath env file = vendorPath env file' → file = file' := by
  intro file hfile file' hfile' heq
  obtain ⟨names, h⟩ :=
    (hlegible file (reached_of_mem hcode hlegible hfile)).placed
  obtain ⟨names', h'⟩ :=
    (hlegible file' (reached_of_mem hcode hlegible hfile')).placed
  exact h.vendorPath_inj h' heq

/-- The copy of a legible file is the file with other specifiers, token by
token. It is still well-formed text, and reads as those tokens. -/
theorem copy_eq (hcode : closure env tree = .ok code)
    (hlegible : ∀ file, Reached env tokens file →
      Legible env tree tokens file) {file : Path} (hfile : file ∈ code)
    {body : JsString} (hbody : rewrite env tree file = .ok body) :
    tree.find file = some (Utf8.textEncode (textOf (tokens file)))
      ∧ body = textOf (rename (newOf env file) .start (tokens file))
      ∧ Utf8.WellFormed body
      ∧ Lexes body (rename (newOf env file) .start (tokens file)) := by
  have hlegible' := hlegible file (reached_of_mem hcode hlegible hfile)
  obtain ⟨src, hsrc, -⟩ := targets_of_mem hcode hfile
  obtain ⟨hwf, hencoded, hlexes, hparts⟩ := hlegible'.read hsrc
  have hbody' : body
      = textOf (rename (newOf env file) .start (tokens file)) := by
    rw [rewrite_eq hsrc hbody, hparts, fill_parts]
  have hplain (s : JsString) (hs : s ∈ specifiers .start (tokens file)) :
      IsPlain (newOf env file s) := (newOf_spec hcode hlegible hfile hs).1
  refine ⟨hencoded ▸ find_of_readFileSync hsrc, hbody', ?_, ?_⟩
  · rw [hbody']
    exact wellFormed_rename (x := []) hlexes.lexed hwf
      fun s hs => (hplain s hs).wellFormed
  · rw [hbody']
    exact hlexes.rename fun s hs quote hquote =>
      (hplain s hs).stringBody hquote

/-- A copy is not where the record is. -/
theorem vendorPath_ne_record {file : Path} {names : List JsString}
    (h : Placed env file names) :
    vendorPath env file ≠ .ok (recordPath env) := by
  intro heq
  rw [h.vendorPath, Except.ok.injEq, recordPath] at heq
  have hlength := congrArg List.length (List.append_cancel_left heq)
  have hdeep := h.deep
  rw [hlength] at hdeep
  exact absurd hdeep (by decide)

/-- A tree whose reached files are legible is closed. The closure reaches
what the declarations reach, every file of it is copied once, and in the
copies the specifiers lead to one another. -/
theorem closed_of_legible (hcode : closure env tree = .ok code)
    (hfiles : build env tree = .ok files)
    (hlegible : ∀ file, Reached env tokens file →
      Legible env tree tokens file) :
    Closed env tree tokens code files := by
  obtain ⟨⟨licences, versions⟩, hpackages, h₁⟩ := bind_eq_ok.mp hfiles
  obtain ⟨code', hcode', h₂⟩ := bind_eq_ok.mp h₁
  obtain rfl : code = code' := Except.ok.inj (hcode.symm.trans hcode')
  obtain ⟨⟨copies, sources⟩, hcopies, h₃⟩ := bind_eq_ok.mp h₂
  obtain ⟨text, -, h₄⟩ := bind_eq_ok.mp h₃
  cases h₄
  obtain ⟨hnd, hlicences⟩ := addPackages_files hpackages List.nodup_nil
  obtain ⟨hnd', hmem, -⟩ := addCode_files hcopies hnd
  have hinj := inj_code hcode hlegible
  refine ⟨fun file hfile => ?_, hinj, nodup_setFile hnd', fun f hf => ?_⟩
  · obtain ⟨out, body, hout, hbody, hset⟩ :=
      addCode_copies hcopies hnd (nodup_code hcode) hinj file hfile
    obtain ⟨hfind, rfl, hwf, hlexes⟩ := copy_eq hcode hlegible hfile hbody
    have hrecord : out ≠ recordPath env := by
      rintro rfl
      obtain ⟨names, hplaced⟩ :=
        (hlegible file (reached_of_mem hcode hlegible hfile)).placed
      exact vendorPath_ne_record hplaced hout
    refine ⟨out, newOf env file, hout, hfind, mem_setFile_of_ne hset hrecord,
      hwf, hlexes, fun s hs => ?_⟩
    obtain ⟨-, hrelative, target, htarget, hsource, out', hout', hleads⟩ :=
      newOf_spec hcode hlegible hfile hs
    obtain rfl : out = out' := Except.ok.inj (hout.symm.trans hout')
    exact ⟨hrelative, target, htarget, hsource, hleads⟩
  · rcases mem_setFile hf with hf | rfl
    · rcases hmem f hf with hf | hcopy
      · rcases hlicences f hf with hf | hlicence
        · cases hf
        · exact Or.inr (Or.inr hlicence)
      · exact Or.inl hcopy
    · exact Or.inr (Or.inl rfl)

/-- A closed list misses nothing that the declarations reach. By induction
over how a file is reached. -/
theorem listed_of_closed (hcode : closure env tree = .ok code)
    (hclosed : Closed env tree tokens code files) {file : Path}
    (h : Reached env tokens file) : file ∈ code := by
  induction h with
  | entry he hsource =>
      obtain ⟨entries, seen, hentries, hseen, hperm⟩ := closure_sorted hcode
      obtain ⟨file', hfile', hsource'⟩ := returns_of_mapM hentries _ he
      rw [hsource, Except.ok.injEq] at hsource'
      rw [hperm.mem_iff, Worklist.mem_closure hseen, hsource']
      exact .root (List.mem_reverse.mpr hfile')
  | declared _ hs hsource ih =>
      obtain ⟨out, new, -, -, -, -, -, hspecifiers⟩ := hclosed.copies _ ih
      obtain ⟨-, target, htarget, hsource', -⟩ := hspecifiers _ hs
      rw [hsource, Except.ok.injEq] at hsource'
      exact hsource' ▸ htarget

/-- What a written copy imports is written beside it: the declarations of
its own text are relative, and each leads to a file of the list. -/
theorem Closed.imports_written (h : Closed env tree tokens code files)
    {file : Path} (hfile : file ∈ code) :
    ∃ out written, vendorPath env file = .ok out
      ∧ (out, textOf written) ∈ files ∧ Lexes (textOf written) written
      ∧ ∀ s ∈ specifiers .start written, IsRelative s
        ∧ ∃ body, (resolve (dirname out) (splitUnit 47 s), body) ∈ files := by
  obtain ⟨out, new, hout, -, hmem, -, hlexes, hspecifiers⟩ :=
    h.copies file hfile
  refine ⟨out, _, hout, hmem, hlexes, ?_⟩
  rw [specifiers_rename]
  intro s hs
  obtain ⟨s', hs', rfl⟩ := List.mem_map.mp hs
  obtain ⟨hrelative, target, htarget, -, hleads⟩ := hspecifiers s' hs'
  obtain ⟨out', new', hout', -, hmem', -⟩ := h.copies target htarget
  rw [hleads, Except.ok.injEq] at hout'
  exact ⟨hrelative, _, hout' ▸ hmem'⟩

/-- **The vendored files are closed** where the script sees the files and
their declarations as what they are: each copy is its source with relative
specifiers that lead to the copies. And they are not where it misses a
file that the declarations reach. -/
theorem vendor_closed (env : Env) (tree : Directory)
    (tokens : Path → List Token) (code : List Path)
    (files : List (Path × JsString)) (hcode : closure env tree = .ok code)
    (hfiles : build env tree = .ok files) :
    ((∀ file, Reached env tokens file → Legible env tree tokens file) →
      Closed env tree tokens code files)
    ∧ (Closed env tree tokens code files →
      ∀ file, Reached env tokens file → file ∈ code) :=
  ⟨closed_of_legible hcode hfiles,
    fun hclosed _ => listed_of_closed hcode hclosed⟩

end

-- ============================================================== sample

/-- A host, and a repository in the root directory. -/
def sampleEnv : Env where
  runtime := plainRuntime
  sha256 _ := []
  fileError _ := error []
  ROOT := []

/-- A directory of text files. -/
def packageTree (files : List (JsString × JsString)) :
    FileTree JsString Bytes :=
  .directory (files.map fun f => (f.1, .file (Utf8.textEncode f.2)))

/-- The tree of a package's files is sound if their names are. -/
theorem sound_packageTree {files : List (JsString × JsString)}
    (names : ∀ n ∈ files.map (·.1), IsFileName n)
    (distinct : (files.map (·.1)).Nodup) :
    FileTree.Sound IsFileName (packageTree files) := by
  refine .directory (fun e he => ?_) ?_ fun e he => ?_
  · obtain ⟨f, hf, rfl⟩ := List.mem_map.mp he
    exact names _ (List.mem_map_of_mem hf)
  · rw [List.map_map]
    exact distinct
  · obtain ⟨f, hf, rfl⟩ := List.mem_map.mp he
    exact .file _

/-- Packages of `@noble`, with a text for `ml-kem.js`. -/
def samplePackages (kem : JsString) : FileTree.Entries JsString Bytes :=
  let common := [(js "package.json", js "\x7b\x7d"), (js "LICENSE", [])]
  [(js "post-quantum", packageTree (common ++ [(js "ml-kem.js", kem),
      (js "ml-dsa.js", []), (js "side.js", [])])),
    (js "hashes", packageTree (common
      ++ [(js "sha2.js", []), (js "hmac.js", [])])),
    (js "curves", packageTree common)]

/-- The packages of the sample are sound. -/
theorem sound_samplePackages (kem : JsString) :
    FileTree.Sound IsFileName (.directory (samplePackages kem)) := by
  have hnames : ∀ n ∈ [js "package.json", js "LICENSE", js "ml-kem.js",
      js "ml-dsa.js", js "side.js"], IsFileName n := by decide
  have hdistinct : [js "package.json", js "LICENSE", js "ml-kem.js",
      js "ml-dsa.js", js "side.js"].Nodup := by decide
  have hpackages : [js "post-quantum", js "hashes", js "curves"].Nodup := by
    decide
  refine .directory ?_ hpackages ?_
  · simp only [samplePackages, List.forall_mem_cons]
    exact ⟨by decide, by decide, by decide, by simp⟩
  · simp only [samplePackages, List.forall_mem_cons]
    exact ⟨sound_packageTree hnames hdistinct,
      sound_packageTree (by decide) (by decide),
      sound_packageTree (by decide) (by decide), by simp⟩

/-- A directory with one entry. -/
theorem sound_singleton {n : JsString} {t : FileTree JsString Bytes}
    (hn : IsFileName n) (ht : FileTree.Sound IsFileName t) :
    FileTree.Sound IsFileName (.directory [(n, t)]) :=
  .directory (List.forall_mem_singleton.mpr hn) (List.nodup_singleton n)
    (List.forall_mem_singleton.mpr ht)

def sampleTree (kem : JsString) : Directory where
  entries := [(js "node_modules",
    .directory [(js "@noble", .directory (samplePackages kem))])]
  sound := sound_singleton (by decide)
    (sound_singleton (by decide) (sound_samplePackages kem))

def kemPath : Path :=
  [js "node_modules", js "@noble", js "post-quantum", js "ml-kem.js"]

def sidePath : Path :=
  [js "node_modules", js "@noble", js "post-quantum", js "side.js"]

/-- The tokens of `ml-kem.js`; the other files are empty. -/
def sampleTokens (kem : List Token) (file : Path) : List Token :=
  if file = kemPath then kem else []

/-- `export * from './side.js'`. -/
def exportSide : List Token :=
  [.word exportWord, .unit 32, .unit 42, .unit 32, .word fromWord, .unit 32,
    .string 39 (js "./side.js")]

/-- `import './side.js'`. -/
def importSide : List Token :=
  [.word importWord, .unit 32, .string 39 (js "./side.js")]

/-- A file of the sample. -/
def sampleFiles : List Path :=
  [kemPath, sidePath,
    [js "node_modules", js "@noble", js "post-quantum", js "ml-dsa.js"],
    [js "node_modules", js "@noble", js "hashes", js "sha2.js"],
    [js "node_modules", js "@noble", js "hashes", js "hmac.js"]]

/-- What the script finds of it without `side.js`. -/
def missedFiles : List Path :=
  [[js "node_modules", js "@noble", js "hashes", js "hmac.js"],
    [js "node_modules", js "@noble", js "hashes", js "sha2.js"],
    [js "node_modules", js "@noble", js "post-quantum", js "ml-dsa.js"],
    kemPath]

/-- The sample reaches its own files only. -/
theorem sample_reached {file : Path}
    (h : Reached sampleEnv (sampleTokens exportSide) file) :
    file ∈ sampleFiles := by
  have hentries : ∀ e ∈ ENTRIES,
      (sourcePath sampleEnv e []).toOption.all (· ∈ sampleFiles) = true := by
    decide +kernel
  have hstep : ∀ file ∈ sampleFiles,
      ∀ s ∈ specifiers .start (sampleTokens exportSide file),
      (sourcePath sampleEnv s file).toOption.all (· ∈ sampleFiles)
        = true := by
    decide +kernel
  induction h with
  | entry he h =>
      have hall := hentries _ he
      rw [h] at hall
      exact of_decide_eq_true hall
  | declared _ hs h ih =>
      have hall := hstep _ ih _ hs
      rw [h] at hall
      exact of_decide_eq_true hall

/-- What the specifier in the sample leads to. -/
theorem side_of_kem :
    sourcePath sampleEnv (js "./side.js") kemPath = .ok sidePath := by
  decide +kernel

/-- The files of the sample are legible, which shows that the condition can
be met: five files of two packages, with a declaration that leads from one
to another. -/
theorem sample_legible {file : Path}
    (h : Reached sampleEnv (sampleTokens exportSide) file) :
    Legible sampleEnv (sampleTree (textOf exportSide))
      (sampleTokens exportSide) file := by
  have hfile := sample_reached h
  have hempty (hne : file ≠ kemPath) :
      sampleTokens exportSide file = [] := if_neg hne
  have hother (hne : file ≠ kemPath)
      (hfind : (sampleTree (textOf exportSide)).find file = some [])
      (hpackage : ∃ pkg name rest, file
        = MODULES sampleEnv ++ js "@noble" :: pkg :: name :: rest) :
      Legible sampleEnv (sampleTree (textOf exportSide))
        (sampleTokens exportSide) file := by
    refine ⟨⟨[], .nil, hfind, ?_, ?_⟩, ?_, hpackage, ?_⟩
    · rw [hempty hne]
      exact ⟨rfl, trivial, by simp⟩
    · rw [hempty hne]
      rfl
    · rw [hempty hne]
      exact fun s hs => absurd hs List.not_mem_nil
    · rw [hempty hne]
      exact fun s hs => absurd hs List.not_mem_nil
  simp only [sampleFiles, List.mem_cons, List.not_mem_nil, or_false] at hfile
  rcases hfile with rfl | rfl | rfl | rfl | rfl
  · refine ⟨⟨textOf exportSide, by decide, by decide +kernel,
      ⟨rfl, by decide, by simp [sampleTokens, exportSide]⟩,
      by decide +kernel⟩, by decide, ⟨_, _, [], rfl⟩, ?_⟩
    intro s hs target htarget n hn
    obtain rfl : s = js "./side.js" := List.mem_singleton.mp hs
    obtain rfl : sidePath = target :=
      Except.ok.inj (side_of_kem.symm.trans htarget)
    obtain rfl : js "side.js" = n := Option.some.inj hn
    exact Or.inr (by decide)
  · exact hother (by decide) (by decide) ⟨_, _, [], rfl⟩
  · exact hother (by decide) (by decide) ⟨_, _, [], rfl⟩
  · exact hother (by decide) (by decide) ⟨_, _, [], rfl⟩
  · exact hother (by decide) (by decide) ⟨_, _, [], rfl⟩

/-- What is no error is a value. -/
theorem exists_of_isOk {α : Type} {x : Except JsError α}
    (h : x.isOk = true) : ∃ a, x = .ok a := by
  cases x with
  | error e => cases h
  | ok a => exact ⟨a, rfl⟩

/-- The sample is copied whole: its five files are legible, so what the
script writes of them is closed. -/
theorem vendor_closed_sample :
    ∃ code files,
      closure sampleEnv (sampleTree (textOf exportSide)) = .ok code
        ∧ build sampleEnv (sampleTree (textOf exportSide)) = .ok files
        ∧ Closed sampleEnv (sampleTree (textOf exportSide))
          (sampleTokens exportSide) code files := by
  have hcode : (closure sampleEnv
      (sampleTree (textOf exportSide))).isOk = true := by
    decide +kernel
  have hfiles : (build sampleEnv
      (sampleTree (textOf exportSide))).isOk = true := by
    decide +kernel
  obtain ⟨code, hcode⟩ := exists_of_isOk hcode
  obtain ⟨files, hfiles⟩ := exists_of_isOk hfiles
  have h := vendor_closed sampleEnv _ (sampleTokens exportSide) code files
    hcode hfiles
  exact ⟨code, files, hcode, hfiles, h.1 fun file => sample_legible⟩

/-- An import without a `from` is not followed: the script's expression does
not match it, so the file it names is neither listed nor copied, and the
copy that has it leads nowhere. -/
theorem vendor_misses :
    ∃ code files,
      closure sampleEnv (sampleTree (textOf importSide)) = .ok code
        ∧ build sampleEnv (sampleTree (textOf importSide)) = .ok files
        ∧ Lexes (js "import './side.js'") importSide
        ∧ kemPath ∈ code
        ∧ sourcePath sampleEnv (js "./side.js") kemPath = .ok sidePath
        ∧ sidePath ∉ code
        ∧ ¬Closed sampleEnv (sampleTree (textOf importSide))
          (sampleTokens importSide) code files := by
  have hcode : closure sampleEnv (sampleTree (textOf importSide))
      = .ok missedFiles := by
    decide +kernel
  have hfiles : (build sampleEnv
      (sampleTree (textOf importSide))).isOk = true := by
    decide +kernel
  obtain ⟨files, hfiles⟩ := exists_of_isOk hfiles
  have hkem : kemPath ∈ missedFiles := by
    decide
  have hside : sidePath ∉ missedFiles := by
    decide
  refine ⟨missedFiles, files, hcode, hfiles,
    ⟨by decide, by decide, by simp [importSide]⟩, hkem,
    side_of_kem, hside, fun h => ?_⟩
  obtain ⟨out, new, -, -, -, -, -, hspecifiers⟩ := h.copies kemPath hkem
  obtain ⟨-, target, htarget, hsource, -⟩ :=
    hspecifiers (js "./side.js") (by decide)
  obtain rfl : sidePath = target :=
    Except.ok.inj (side_of_kem.symm.trans hsource)
  exact hside htarget

end KxcoPostQuantum.Scripts.Vendor
