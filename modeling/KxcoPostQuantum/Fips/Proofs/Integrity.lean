/-
The integrity test accepts exactly the tree its manifest describes, but
for two names of files.

# What a manifest describes

A tree is the map from the paths of its files, other than the manifest
and its signature, to their digests (`digestAt`); a manifest's `files` is
the map of its own enumerable members. `Described` says that the manifest
is there, is signed, and that the two maps are the same. The test
compares them in three loops: names missing, names extra, digests.

# The names

A plain object has no `length` of its own, but an array and a string do,
and the loop for extra files asks for own members, not for enumerable
ones: under a manifest whose `files` is an array or a string, a file
`length` in the module's directory is neither extra nor compared
(`LengthUnlisted`). The script writes `files[f] = digest` into a plain
object, on which `__proto__` is an accessor: the digest of a file of that
name is lost, and the manifest does not describe the tree it was made
from.

# The walk

Both the test and the script list files by the same recursion, over an
order of entries that is the file system's. `mem_present` is all that is
used of it: a path is listed if and only if the tree has a digest there.
-/
import KxcoPostQuantum.Fips.Integrity
import KxcoPostQuantum.Js.Members

namespace KxcoPostQuantum.Fips.Integrity

open Lib

-- ============================================================= paths

/-- `join` keeps names as they are. -/
theorem join_names {segments : List JsString}
    (h : ∀ s ∈ segments, IsFileName s) :
    ∀ dir, join dir segments = some (dir ++ segments) := by
  induction segments with
  | nil =>
      intro dir
      rw [join, List.append_nil]
  | cons s segments ih =>
      intro dir
      rw [List.forall_mem_cons] at h
      obtain ⟨hempty, hdot, hdots, -⟩ := h.1
      rw [join, if_neg (not_or.mpr ⟨hempty, hdot⟩), if_neg hdots, ih h.2,
        List.append_assoc]
      rfl

/-- A path of names is cut at its slashes. -/
theorem splitOn_pathText {path : List JsString} (hne : path ≠ [])
    (h : ∀ s ∈ path, IsFileName s) : (pathText path).splitOn 47 = path :=
  List.splitOn_intercalate 47 (fun s hs => (h s hs).2.2.2) hne

/-- A path is put in text and taken apart again. -/
theorem pathText_splitOn (f : JsString) : pathText (f.splitOn 47) = f :=
  List.intercalate_splitOn 47

section

variable {tree : Directory} {path : List JsString} {c : Bytes}

/-- What is there can be read. -/
theorem readFileSync_some (h : tree.find path = some c) :
    readFileSync tree path = some c := by
  rw [readFileSync, join_names (tree.names_of_find h)]
  exact h

/-- A name is read where it is. -/
theorem readFileSync_name (tree : Directory) {name : JsString}
    (hname : IsFileName name) :
    readFileSync tree [name] = tree.find [name] := by
  rw [readFileSync, join_names (List.forall_mem_singleton.mpr hname)]
  rfl

end

mutual

/-- The files under a directory are those a walk over it finds, each by the
text of its path. -/
theorem filesAt_eq (p : List JsString) :
    ∀ entry, filesAt p entry
      = (FileTree.walk p entry).map fun f => pathText f.1
  | .directory entries => by
      rw [filesAt, FileTree.walk]
      exact filesIn_eq p entries
  | .file _ => by
      rw [filesAt, FileTree.walk, List.map_singleton]

/-- The recursion is a walk. -/
theorem filesIn_eq (dir : List JsString) :
    ∀ entries, filesIn dir entries
      = (FileTree.walkIn dir entries).map fun f => pathText f.1
  | [] => by rw [filesIn, FileTree.walkIn, List.map_nil]
  | (name, entry) :: rest => by
      rw [filesIn, FileTree.walkIn, List.map_append,
        filesAt_eq (dir ++ [name]) entry, filesIn_eq dir rest]

end

/-- **A path is listed if and only if there is a file** at it: by induction
over the tree, since a directory lists what is below it under its own
name. -/
theorem mem_filesIn {tree : Directory} {f : JsString} :
    f ∈ filesIn [] tree.entries ↔ (tree.find (f.splitOn 47)).isSome := by
  have hwalk : ∀ p c, (p, c) ∈ FileTree.walkIn [] tree.entries
      ↔ tree.find p = some c := by
    intro p c
    have h := FileTree.mem_walk tree.sound [] p c
    simp only [FileTree.walk, FileTree.find, List.nil_append] at h
    rw [h]
    constructor
    · intro hq
      obtain ⟨q, rfl, hq⟩ := hq
      exact hq
    · exact fun hp => ⟨p, rfl, hp⟩
  rw [filesIn_eq, List.mem_map, Option.isSome_iff_exists]
  constructor
  · intro h
    obtain ⟨⟨p, c⟩, hp, rfl⟩ := h
    have hfind := (hwalk p c).mp hp
    rw [splitOn_pathText (tree.ne_nil_of_find hfind)
      (tree.names_of_find hfind)]
    exact ⟨c, hfind⟩
  · intro h
    obtain ⟨c, hc⟩ := h
    exact ⟨(f.splitOn 47, c), (hwalk _ c).mpr hc, pathText_splitOn f⟩

-- =========================================================== digests

section

variable (env : IntegrityEnv) (tree : Directory)

/-- The digest of the file at a path that a manifest has to list. -/
def digestAt (path : JsString) : Option JsString :=
  if path = MANIFEST ∨ path = SIGNATURE then none
  else (tree.find (path.splitOn 47)).map fun c => bytesToHex (env.sha256 c)

/-- A file is present where it has a digest. -/
theorem mem_present {f : JsString} :
    f ∈ present tree ↔ (digestAt env tree f).isSome := by
  rw [present, List.mem_filter, mem_filesIn, digestAt, decide_eq_true_eq]
  split
  next h =>
    refine iff_of_false (fun hf => ?_) nofun
    exact h.elim hf.2.1 hf.2.2
  next h =>
    rw [Option.isSome_map]
    exact and_iff_left (not_or.mp h)

/-- The manifest is there, with a signature over its bytes. -/
def Signed (manifestBytes : Bytes) : Prop :=
  tree.find [MANIFEST] = some manifestBytes
    ∧ ∃ content signature key, tree.find [SIGNATURE] = some content
      ∧ hexToBytes (.string (trim (utf8Text content))) = .ok signature
      ∧ hexToBytes (.string env.RELEASE_KEY_ML_DSA_87) = .ok key
      ∧ env.verify signature manifestBytes key = true

/-- The `files` of a manifest. -/
def ManifestFiles (manifestBytes : Bytes) (files : JsVal) : Prop :=
  ∃ manifest,
    jsonParse env.runtime (Utf8.textDecode manifestBytes) = .ok manifest
      ∧ manifest.get (js "files") = .ok files

/-- The tree and the manifest say the same of a path. -/
def AgreeAt (files : JsVal) (path : JsString) : Prop :=
  (digestAt env tree path).map JsVal.string
    = JsVal.lookup path (ownMembers files)

/-- The tree has a signed manifest, and is the tree it lists. -/
def Described : Prop :=
  ∃ manifestBytes files, Signed env tree manifestBytes
    ∧ ManifestFiles env manifestBytes files
    ∧ ∀ path, AgreeAt env tree files path

/-- The tree has a file `length` in the module's directory that its
signed manifest, with an array or a string for `files`, cannot list, and
is the tree it lists but for that file. -/
def LengthUnlisted : Prop :=
  ∃ manifestBytes files, Signed env tree manifestBytes
    ∧ ManifestFiles env manifestBytes files
    ∧ ownsLength files = true
    ∧ (tree.find [js "length"]).isSome
    ∧ ∀ path, path ≠ js "length" → AgreeAt env tree files path

end

-- ======================================================== three loops

section

variable {env : IntegrityEnv} {tree : Directory}

/-- A loop returns when every round does. -/
theorem forM_ok {α : Type} {f : α → Except JsError Unit} {l : List α} :
    l.forM f = .ok () ↔ ∀ a ∈ l, f a = .ok () := by
  induction l with
  | nil => exact iff_of_true rfl (by simp)
  | cons a l ih =>
      rw [show (a :: l).forM f = f a >>= fun _ => l.forM f from rfl,
        bind_eq_ok, List.forall_mem_cons, ← ih]
      constructor
      · intro h
        obtain ⟨_, ha, hl⟩ := h
        exact ⟨ha, hl⟩
      · exact fun h => ⟨(), h.1, h.2⟩

/-- No file is extra if each is an own member. An own `length` counts as one
here, enumerable or not. -/
theorem extraFiles_nil {files : JsVal} {l : List JsString} :
    extraFiles files l = .ok [] ↔ ∀ f ∈ l, objectHasOwn files f = .ok true := by
  induction l with
  | nil => exact iff_of_true rfl (by simp)
  | cons f l ih =>
      rw [extraFiles, List.forall_mem_cons, ← ih]
      simp only [bind_eq_ok, pure_eq_ok]
      constructor
      · intro h
        obtain ⟨own, hown, extra, hextra, hnil⟩ := h
        cases own with
        | false => cases hnil
        | true =>
            rw [if_pos rfl] at hnil
            exact ⟨hown, hnil ▸ hextra⟩
      · exact fun h => ⟨true, h.1, [], h.2, rfl⟩

/-- The keys of the manifest's table are the names of its own members. -/
theorem mem_objectKeys {files : JsVal} {f : JsString} :
    f ∈ objectKeys files
      ↔ (JsVal.lookup f (ownMembers files)).isSome := by
  rw [← Option.ne_none_iff_isSome, ne_eq, lookup_none_iff, not_not]
  rfl

/-- A name is owned by the table where it is one of its members; an array or
a string also owns `length`. -/
theorem objectHasOwn_ok {files : JsVal} {k : JsString} :
    objectHasOwn files k = .ok true
      ↔ (JsVal.lookup k (ownMembers files)).isSome
        ∨ ownsLength files = true ∧ k = js "length" := by
  by_cases hnull : files.isNullish = true
  · rw [objectHasOwn, if_pos hnull]
    cases files with
    | undefined | null =>
        refine iff_of_false (fun h => ?_)
          (by simp [ownMembers, ownsLength, JsVal.lookup])
        cases h
    | _ => cases hnull
  · rw [objectHasOwn, if_neg hnull, pure_eq_ok, Bool.or_eq_true,
      Bool.and_eq_true, decide_eq_true_eq]

/-- The digest of a listed file is compared: with the member of the
manifest, as a string. A member of another type is never equal to it. -/
theorem checkDigest_ok {files : JsVal} {f : JsString} {v : JsVal}
    (hf : (digestAt env tree f).isSome)
    (hv : JsVal.lookup f (ownMembers files) = some v) :
    checkDigest env tree files f = .ok ()
      ↔ (digestAt env tree f).map JsVal.string = some v := by
  rw [digestAt] at hf ⊢
  split at hf
  next => cases hf
  next hne =>
    rw [Option.isSome_map] at hf
    obtain ⟨c, hc⟩ := Option.isSome_iff_exists.mp hf
    rw [if_neg hne, hc, checkDigest, readFileSync_some hc, hv]
    simp only [Option.map_some, Option.some_inj, Option.getD_some]
    have hequal : ∀ s, (JsVal.string s).strictEquals v = true
        ↔ JsVal.string s = v := by
      intro s
      cases v <;> simp [JsVal.strictEquals]
    rw [← hequal, bind_eq_ok]
    constructor
    · intro h
      obtain ⟨c', hc', h⟩ := h
      cases hc'
      split at h
      next hs => exact hs
      next => cases h
    · exact fun hs => ⟨c, rfl, if_pos hs⟩

/-- The manifest is read with its signature, which is the text of a file
without the white space around it. -/
theorem signedManifest_ok {manifestBytes : Bytes} {text : JsString} :
    signedManifest tree = .ok (manifestBytes, text)
      ↔ tree.find [MANIFEST] = some manifestBytes
        ∧ ∃ content, tree.find [SIGNATURE] = some content
          ∧ trim (utf8Text content) = text := by
  rw [signedManifest, readFileSync_name tree isFileName_MANIFEST,
    readFileSync_name tree isFileName_SIGNATURE]
  cases tree.find [MANIFEST] with
  | none => exact iff_of_false nofun nofun
  | some m =>
      cases tree.find [SIGNATURE] with
      | none => exact iff_of_false nofun nofun
      | some s => simp

/-- **What the three comparisons amount to.** Every listed path is a file
with that digest, and every file is listed; only where the manifest has an
array or a string for its files, whose `length` is their own, does a file of
that name pass unlisted. -/
theorem compareFiles_ok {files : JsVal} :
    compareFiles env tree files = .ok ()
      ↔ (∀ path v, JsVal.lookup path (ownMembers files) = some v →
          (digestAt env tree path).map JsVal.string = some v)
        ∧ ∀ path, (digestAt env tree path).isSome →
          (JsVal.lookup path (ownMembers files)).isSome
            ∨ ownsLength files = true ∧ path = js "length" := by
  have hmissing : (objectKeys files).filter
        (fun f => !(present tree).contains f) = []
      ↔ ∀ path ∈ objectKeys files, (digestAt env tree path).isSome := by
    simp only [List.filter_eq_nil_iff, Bool.not_eq_true', Bool.not_eq_false,
      List.contains_iff_mem, mem_present env]
  rw [compareFiles]
  simp only [bind_eq_ok, guard_eq_ok, forM_ok, Bool.not_eq_false,
    Bool.and_eq_true, List.isEmpty_iff, hmissing]
  constructor
  · intro h
    obtain ⟨extra, hextra, ⟨hlisted, rfl⟩, hdigests⟩ := h
    constructor
    · intro path v hv
      have hkey := mem_objectKeys.mpr (Option.isSome_of_eq_some hv)
      exact (checkDigest_ok (hlisted path hkey) hv).mp (hdigests path hkey)
    · intro path hpath
      exact objectHasOwn_ok.mp
        (extraFiles_nil.mp hextra path ((mem_present env tree).mpr hpath))
  · intro h
    have hlisted : ∀ path v, JsVal.lookup path (ownMembers files) = some v →
        (digestAt env tree path).isSome := by
      intro path v hv
      rw [← Option.isSome_map, h.1 path v hv]
      rfl
    refine ⟨[], extraFiles_nil.mpr fun path hpath => ?_, ⟨?_, rfl⟩, ?_⟩
    · exact objectHasOwn_ok.mpr
        (h.2 path ((mem_present env tree).mp hpath))
    · intro path hpath
      obtain ⟨v, hv⟩ := Option.isSome_iff_exists.mp
        (mem_objectKeys.mp hpath)
      exact hlisted path v hv
    · intro path hpath
      obtain ⟨v, hv⟩ := Option.isSome_iff_exists.mp
        (mem_objectKeys.mp hpath)
      exact (checkDigest_ok (hlisted path v hv) hv).mpr (h.1 path v hv)

/-- **What the test asks**: a manifest that the signature is of, in which
`files` can be found, and that the comparisons with the tree go through. Its
version and its other members are not looked at. -/
theorem integrityTest_returns :
    (∃ manifest, integrityTest env tree = .ok manifest)
      ↔ ∃ manifestBytes files, Signed env tree manifestBytes
        ∧ ManifestFiles env manifestBytes files
        ∧ compareFiles env tree files = .ok () := by
  rw [integrityTest]
  simp only [bind_eq_ok, guard_eq_ok, pure_eq_ok]
  constructor
  · intro h
    obtain ⟨manifest, ⟨manifestBytes, text⟩, hread, signature, hsignature,
      key, hkey, hverify, _, hparse, files, hfiles, _, hcompare, rfl⟩ := h
    obtain ⟨hbytes, content, hcontent, rfl⟩ := signedManifest_ok.mp hread
    exact ⟨manifestBytes, files,
      ⟨hbytes, content, signature, key, hcontent, hsignature, hkey,
        Bool.eq_true_of_not_eq_false hverify⟩,
      ⟨_, hparse, hfiles⟩, hcompare⟩
  · intro h
    obtain ⟨manifestBytes, files, ⟨hbytes, content, signature, key,
      hcontent, hsignature, hkey, hverify⟩, ⟨manifest, hparse, hfiles⟩,
      hcompare⟩ := h
    exact ⟨manifest, (manifestBytes, _),
      signedManifest_ok.mpr ⟨hbytes, content, hcontent, rfl⟩, signature,
      hsignature, key, hkey, by rw [hverify]; nofun, manifest, hparse, files,
      hfiles, (), hcompare, rfl⟩

-- ========================================================= the length

/-- An array and a string enumerate no `length`. -/
theorem lookup_length {files : JsVal} (h : ownsLength files = true) :
    JsVal.lookup (js "length") (ownMembers files) = none := by
  have hindexed : ∀ elems : List JsVal,
      JsVal.lookup (js "length") (indexed elems) = none := by
    intro elems
    rw [lookup_none_iff]
    intro hmem
    simp only [names, indexed, List.map_map, List.mem_map,
      Function.comp_apply] at hmem
    obtain ⟨e, -, he⟩ := hmem
    have hdigit := isDigit_decimal e.2 108 (he ▸ by decide)
    exact absurd hdigit (by decide)
  cases files with
  | array elems => exact hindexed elems
  | string s => exact hindexed _
  | _ => cases h

/-- A file called `length` has a digest where there is one. -/
theorem isSome_digestAt_length :
    (digestAt env tree (js "length")).isSome
      ↔ (tree.find [js "length"]).isSome := by
  rw [digestAt, if_neg (by decide),
    show (js "length").splitOn 47 = [js "length"] by decide,
    Option.isSome_map]

/-- No two byte strings are the manifest of one directory. -/
theorem Signed.unique {b b' : Bytes} (h : Signed env tree b)
    (h' : Signed env tree b') : b = b' :=
  Option.some.inj (h.1.symm.trans h'.1)

/-- No two values are the table of files of one manifest. -/
theorem ManifestFiles.unique {b : Bytes} {files files' : JsVal}
    (h : ManifestFiles env b files) (h' : ManifestFiles env b files') :
    files = files' := by
  obtain ⟨m, hm, hfiles⟩ := h
  obtain ⟨m', hm', hfiles'⟩ := h'
  cases hm.symm.trans hm'
  exact Except.ok.inj (hfiles.symm.trans hfiles')

/-- Equal maps pass the comparisons. -/
theorem compareFiles_of_agree {files : JsVal}
    (h : ∀ path, AgreeAt env tree files path) :
    compareFiles env tree files = .ok () := by
  refine compareFiles_ok.mpr ⟨fun path v hv => (h path).trans hv, ?_⟩
  intro path hpath
  rw [← h path, Option.isSome_map]
  exact Or.inl hpath

/-- A path at which maps that pass the comparisons differ can only be that
of a file `length`, and only where the files of the manifest are an array or
a string. -/
theorem agreeAt_of_compareFiles {files : JsVal}
    (h : compareFiles env tree files = .ok ()) (path : JsString) :
    AgreeAt env tree files path
      ∨ ownsLength files = true ∧ path = js "length"
        ∧ (digestAt env tree path).isSome := by
  obtain ⟨hlisted, hpresent⟩ := compareFiles_ok.mp h
  cases hv : JsVal.lookup path (ownMembers files) with
  | some v =>
      refine Or.inl ?_
      rw [AgreeAt, hv, hlisted path v hv]
  | none =>
      cases hd : digestAt env tree path with
      | none =>
          refine Or.inl ?_
          rw [AgreeAt, hv, hd]
          rfl
      | some d =>
          refine Or.inr ?_
          rcases hpresent path (hd ▸ rfl) with h | ⟨howns, hpath⟩
          · rw [hv] at h
            cases h
          · exact ⟨howns, hpath, rfl⟩

/-- **The test accepts exactly the tree its manifest describes**, but for
a `length` that an array or a string owns. -/
theorem returns_iff_described :
    ((∃ manifest, integrityTest env tree = .ok manifest)
        ↔ Described env tree)
      ↔ ¬LengthUnlisted env tree := by
  rw [integrityTest_returns]
  constructor
  · intro hiff hunlisted
    obtain ⟨b, files, hsigned, hfiles, howns, hlength, hagree⟩ := hunlisted
    have hcompare : compareFiles env tree files = .ok () := by
      refine compareFiles_ok.mpr ⟨?_, ?_⟩
      · intro path v hv
        refine (hagree path fun hpath => ?_).trans hv
        rw [hpath, lookup_length howns] at hv
        cases hv
      · intro path hpath
        by_cases hl : path = js "length"
        · exact Or.inr ⟨howns, hl⟩
        · rw [← hagree path hl, Option.isSome_map]
          exact Or.inl hpath
    obtain ⟨b', files', hsigned', hfiles', hagree'⟩ :=
      hiff.mp ⟨b, files, hsigned, hfiles, hcompare⟩
    cases hsigned.unique hsigned'
    cases hfiles.unique hfiles'
    have hsome : (digestAt env tree (js "length")).isSome :=
      isSome_digestAt_length.mpr hlength
    rw [← Option.isSome_map, hagree' (js "length"),
      lookup_length howns] at hsome
    cases hsome
  · intro hlisted
    constructor
    · intro h
      obtain ⟨b, files, hsigned, hfiles, hcompare⟩ := h
      refine ⟨b, files, hsigned, hfiles, fun path => ?_⟩
      rcases agreeAt_of_compareFiles hcompare path with h | ⟨howns, hl, hd⟩
      · exact h
      -- the file is not listed, and then every other path agrees
      refine absurd ⟨b, files, hsigned, hfiles, howns, ?_, ?_⟩ hlisted
      · exact isSome_digestAt_length.mp (hl ▸ hd)
      · intro path' hne
        exact (agreeAt_of_compareFiles hcompare path').resolve_right
          fun h => hne h.2.1
    · intro h
      obtain ⟨b, files, hsigned, hfiles, hagree⟩ := h
      exact ⟨b, files, hsigned, hfiles, compareFiles_of_agree hagree⟩

end

end KxcoPostQuantum.Fips.Integrity
