/-
The manifest build-fips-manifest.mjs writes describes the tree it was
made from, but for a file called `__proto__`.

The script's loop leaves an object with one string for every path it was
given, `__proto__` left out (`collectDigests_ok`). `JSON.stringify` and
`JSON.parse` keep such an object, whatever else its names are
(`ownMembers_strings`), and the two files written later are the two the
test does not look for. What is left is `Integrity`'s comparison, of the
tree with itself.
-/
import KxcoPostQuantum.Fips.Proofs.Integrity

namespace KxcoPostQuantum.Fips.Integrity

open Lib

-- =========================================================== digests

/-- Members of distinct names, all of them strings. -/
def Strings (own : List (JsString × JsVal)) : Prop :=
  (names own).Nodup ∧ ∀ m ∈ own, ∃ s, m.2 = .string s

theorem Strings.assignString {own : List (JsString × JsVal)}
    (h : Strings own) (f digest : JsString) :
    Strings (KxcoPostQuantum.assignString own f digest) := by
  rw [KxcoPostQuantum.assignString]
  split
  next => exact h
  next =>
    refine ⟨nodup_assign h.1, fun m hm => ?_⟩
    rcases mem_assign hm with hm | rfl
    · exact h.2 m hm
    · exact ⟨digest, rfl⟩

theorem lookup_assignString {own : List (JsString × JsVal)}
    {k f digest : JsString} :
    JsVal.lookup k (assignString own f digest)
      = if k = f ∧ k ≠ js "__proto__" then some (.string digest)
        else JsVal.lookup k own := by
  rw [assignString]
  by_cases hf : f = js "__proto__"
  · rw [if_pos hf, if_neg fun h => h.2 (h.1.trans hf)]
  · rw [if_neg hf, lookup_assign]
    by_cases hk : k = f
    · rw [if_pos hk, if_pos ⟨hk, hk ▸ hf⟩]
    · rw [if_neg hk, if_neg fun h => hk h.1]

section

variable {env : IntegrityEnv} {tree : Directory}

/-- A listed file is read, and its digest set. -/
theorem collectDigests_cons {f : JsString} (hf : f ∈ present tree) :
    ∃ digest, digestAt env tree f = some digest
      ∧ ∀ own rest, collectDigests env tree own (f :: rest)
        = collectDigests env tree (assignString own f digest) rest := by
  have hsome := (mem_present env tree).mp hf
  rw [digestAt] at hsome ⊢
  split at hsome
  next => cases hsome
  next hne =>
    rw [Option.isSome_map] at hsome
    obtain ⟨c, hc⟩ := Option.isSome_iff_exists.mp hsome
    rw [if_neg hne, hc]
    refine ⟨_, rfl, fun own rest => ?_⟩
    rw [collectDigests, readFileSync_some hc]

/-- **The loop of the script** sets the digest of every file it is given,
`__proto__` left out. -/
theorem collectDigests_ok {l : List JsString} (hl : ∀ f ∈ l, f ∈ present tree)
    {own : List (JsString × JsVal)} (hown : Strings own) :
    ∃ files, collectDigests env tree own l = .ok files ∧ Strings files
      ∧ ∀ k, JsVal.lookup k files
        = if k ∈ l ∧ k ≠ js "__proto__" then
            (digestAt env tree k).map .string
          else JsVal.lookup k own := by
  induction l generalizing own with
  | nil => exact ⟨own, rfl, hown, fun k => by simp⟩
  | cons f rest ih =>
      rw [List.forall_mem_cons] at hl
      obtain ⟨digest, hdigest, hstep⟩ := collectDigests_cons hl.1
      obtain ⟨files, hfiles, hstrings, hlookup⟩ :=
        ih hl.2 (hown.assignString f digest)
      refine ⟨files, (hstep _ _).trans hfiles, hstrings, fun k => ?_⟩
      rw [hlookup, lookup_assignString]
      simp only [List.mem_cons]
      by_cases hproto : k = js "__proto__"
      · simp [hproto]
      · by_cases hk : k = f
        · subst hk
          simp [hproto, hdigest]
        · simp [hproto, hk]

end

-- ======================================================== round trip

/-- An object of strings comes back with the same members, once written and
read. No string is left out or changed; a lone surrogate is written as an
escape and read back as itself. -/
theorem ownMembers_strings (rt : Runtime) {own : List (JsString × JsVal)}
    (h : Strings own) {e : Option Json}
    (he : serialize rt (.object own []) false = .ok e) :
    ∃ ms, e = some (.object ms)
      ∧ ownsLength (toValue rt (.object ms)) = false
      ∧ ∀ k, JsVal.lookup k (ownMembers (toValue rt (.object ms)))
        = JsVal.lookup k own := by
  have hplain : ∀ m ∈ own, Plain m.2 := by
    intro m hm
    obtain ⟨s, hs⟩ := h.2 m hm
    rw [hs]
    exact .string s
  have hcode : ∀ r, (toJson rt own).or (toJson rt []) ≠ some (some r) := by
    intro r
    rw [show toJson rt [] = none by rw [toJson], Option.or_none]
    rcases toJson_plain rt hplain with h | h
    · rw [h]
      nofun
    · rw [h]
      nofun
  rw [serialize_object rt hcode, serializeMembers_eq] at he
  have hnames : (names (own.map fun m =>
      (m.1, serialize rt m.2 false))).Nodup := by
    rw [names, List.map_map]
    exact h.1
  obtain ⟨ms, rfl, hms, hmem, -⟩ := objectData_ok hnames he
  obtain ⟨hvalue, hnd⟩ := toValue_object rt hms
  refine ⟨ms, rfl, by rw [hvalue]; rfl, fun k => Option.ext fun v => ?_⟩
  rw [hvalue, ownMembers, lookup_enumerate, lookup_iff hnd,
    lookup_iff h.1]
  constructor
  · intro hv
    obtain ⟨⟨k', j⟩, hj, heq⟩ := List.mem_map.mp hv
    obtain ⟨m, hm, hmj⟩ := List.mem_map.mp ((hmem k' j).mp hj)
    obtain ⟨s, hs⟩ := h.2 m hm
    simp only [hs, serialize, Prod.mk.injEq, Except.ok.injEq,
      Option.some_inj] at hmj
    obtain ⟨rfl, rfl⟩ := hmj
    cases heq
    rw [toValue, ← hs]
    exact hm
  · intro hv
    obtain ⟨s, hs⟩ := h.2 _ hv
    cases hs
    have hj : (k, Json.string s) ∈ ms := by
      rw [hmem]
      exact List.mem_map.mpr ⟨_, hv, by simp only [serialize]⟩
    exact List.mem_map.mpr ⟨_, hj, by rw [toValue]⟩

-- ========================================================= the script

section

variable {env : IntegrityEnv} {tree written signed : Directory}
  {packageJson : JsString}

/-- No member of a manifest is a `toJSON`. -/
theorem toJson_manifestMembers (rt : Runtime) (version : JsVal)
    (files : List (JsString × JsVal)) :
    toJson rt (manifestMembers version files) = none := by
  rw [toJson_eq]
  rfl

/-- What the script collects: the digests of the tree, one for each file. A
file named `__proto__` sets the prototype and leaves no member. -/
theorem collectDigests_present (env : IntegrityEnv) (tree : Directory) :
    ∃ files, collectDigests env tree []
        ((present tree).insertionSort fun a b => a ≤ b) = .ok files
      ∧ Strings files
      ∧ ∀ k, JsVal.lookup k files
        = if k = js "__proto__" then none
          else (digestAt env tree k).map .string := by
  have hmem : ∀ k, k ∈ (present tree).insertionSort (fun a b => a ≤ b)
      ↔ (digestAt env tree k).isSome := by
    intro k
    rw [List.mem_insertionSort, mem_present]
  have hempty : Strings [] := ⟨List.nodup_nil, nofun⟩
  obtain ⟨files, hfiles, hstrings, hlookup⟩ := collectDigests_ok
    (fun f hf => (mem_present env tree).mpr ((hmem f).mp hf)) hempty
  refine ⟨files, hfiles, hstrings, fun k => ?_⟩
  rw [hlookup]
  simp only [hmem]
  cases hd : digestAt env tree k with
  | none => simp [JsVal.lookup]
  | some d => by_cases hproto : k = js "__proto__" <;> simp [hproto, JsVal.lookup]

/-- The value of the manifest's text, and its `files`: those that were
written. The indentation of the text is white space to the parser, so it
comes to the same value. -/
theorem manifestFiles_indented (hrt : env.runtime.Lawful) {version : JsVal}
    {files : List (JsString × JsVal)} (hfiles : Strings files)
    {text : Option JsString}
    (h : stringifyIndented env.runtime
      (.object (manifestMembers version files) []) = .ok text) :
    ∃ value, ManifestFiles env
        (Utf8.textEncode (text.getD (js "undefined") ++ [10])) value
      ∧ ownsLength value = false
      ∧ ∀ k, JsVal.lookup k (ownMembers value) = JsVal.lookup k files := by
  rw [stringifyIndented] at h
  cases hd : serialize env.runtime
      (.object (manifestMembers version files) []) false with
  | error e =>
      rw [hd] at h
      cases h
  | ok d =>
      rw [hd] at h
      cases Except.ok.inj h
      have hnd : (names (manifestMembers version files)).Nodup := by
        rw [show names (manifestMembers version files)
          = [js "module", js "version", js "files"] from rfl]
        decide
      have hcode : ∀ r, toJson env.runtime (manifestMembers version files)
          ≠ some (some r) := by
        rw [toJson_manifestMembers]
        nofun
      obtain ⟨ms, rfl, -, hget⟩ := get_roundTrip env.runtime hnd hcode hd
      obtain ⟨e, he, hget⟩ := hget (js "files") (.object files []) rfl
      obtain ⟨fs, rfl, hlength, hlookup⟩ :=
        ownMembers_strings env.runtime hfiles he
      have hspaces : ∀ c ∈ js "  ", c = 32 := by
        rw [show js "  " = [32, 32] from rfl]
        simp
      have hparse := Json.parse_textDecode_indented
        (fun c hc => Or.inr (Or.inr (Or.inr (hspaces c hc))))
        (serialize_valid hrt _ _ _ hd)
      refine ⟨_, ⟨_, ?_, hget⟩, hlength, hlookup⟩
      change jsonParse env.runtime (Utf8.textDecode (Utf8.textEncode
        (Json.indented (js "  ") [] (.object ms) ++ [10]))) = _
      rw [jsonParse, hparse]

/-- **What a build that succeeds has written**: a manifest that lists the
tree it was given, but for `__proto__`. -/
theorem buildFipsManifest_ok (hrt : env.runtime.Lawful)
    (h : buildFipsManifest env tree packageJson = .ok written) :
    ∃ content files,
      tree.write MANIFEST isFileName_MANIFEST content = some written
        ∧ ManifestFiles env content files ∧ ownsLength files = false
        ∧ ∀ k, JsVal.lookup k (ownMembers files)
          = if k = js "__proto__" then none
            else (digestAt env tree k).map .string := by
  obtain ⟨digests, hdigests, hstrings, hlookup⟩ :=
    collectDigests_present env tree
  rw [buildFipsManifest] at h
  simp only [bind_eq_ok, hdigests, Except.ok.injEq] at h
  obtain ⟨_, rfl, _, -, version, -, text, htext, h⟩ := h
  obtain ⟨files, hfiles, hlength, hmembers⟩ :=
    manifestFiles_indented hrt hstrings htext
  split at h
  next w hwrite =>
    cases h
    refine ⟨_, files, hwrite, hfiles, hlength, fun k => ?_⟩
    rw [hmembers, hlookup]
  next => cases h

/-- The two files written later are none of those that are listed, so the
digests that were collected stay those of the directory. -/
theorem digestAt_write {name : JsString} {hname : IsFileName name}
    {content : Bytes} (h : tree.write name hname content = some written)
    (hn : name = MANIFEST ∨ name = SIGNATURE) (path : JsString) :
    digestAt env written path = digestAt env tree path := by
  rw [digestAt, digestAt, Directory.find_write h]
  split
  next => rfl
  next hne =>
    rw [if_neg fun hpath => hne ?_]
    have hself : path = name := by
      rw [← pathText_splitOn path, hpath, pathText,
        List.intercalate_singleton]
    exact hself ▸ hn

/-- **The script's manifest, once signed**, is accepted unless the tree
has a file `__proto__` beside it. -/
theorem signed_returns (hrt : env.runtime.Lawful)
    (hbuild : buildFipsManifest env tree packageJson = .ok written)
    {signature manifestBytes : Bytes}
    (hwrite : written.write SIGNATURE isFileName_SIGNATURE signature
      = some signed)
    (hsigned : Signed env signed manifestBytes) :
    (∃ manifest, integrityTest env signed = .ok manifest)
      ↔ tree.find [js "__proto__"] = none := by
  obtain ⟨content, files, hmanifest, hfiles, hlength, hlookup⟩ :=
    buildFipsManifest_ok hrt hbuild
  have hbytes : manifestBytes = content := by
    have h := hsigned.1
    rw [Directory.find_write hwrite, if_neg (by decide),
      Directory.find_write hmanifest, if_pos rfl] at h
    exact (Option.some.inj h).symm
  subst hbytes
  have hdigest : ∀ path,
      digestAt env signed path = digestAt env tree path := by
    intro path
    rw [digestAt_write hwrite (Or.inr rfl),
      digestAt_write hmanifest (Or.inl rfl)]
  have hagree : (∃ manifest, integrityTest env signed = .ok manifest)
      ↔ ∀ path, AgreeAt env signed files path := by
    rw [integrityTest_returns]
    constructor
    · intro h path
      obtain ⟨b, files', hsigned', hfiles', hcompare⟩ := h
      cases hsigned.unique hsigned'
      cases hfiles.unique hfiles'
      refine (agreeAt_of_compareFiles hcompare path).resolve_right ?_
      rw [hlength]
      exact fun h => nomatch h.1
    · exact fun h => ⟨_, files, hsigned, hfiles, compareFiles_of_agree h⟩
  have hproto : digestAt env tree (js "__proto__") = none
      ↔ tree.find [js "__proto__"] = none := by
    rw [digestAt, if_neg (by decide),
      show (js "__proto__").splitOn 47 = [js "__proto__"] by decide,
      Option.map_eq_none_iff]
  rw [hagree, ← hproto]
  constructor
  · intro h
    have hnone := h (js "__proto__")
    rw [AgreeAt, hlookup, if_pos rfl, hdigest,
      Option.map_eq_none_iff] at hnone
    exact hnone
  · intro h path
    rw [AgreeAt, hlookup, hdigest]
    split
    next hpath => rw [hpath, h, Option.map_none]
    next => rfl

/-- The script succeeds when `package.json` is data that is not `null` and
no directory is called `integrity.json`. -/
theorem buildFipsManifest_returns {package version : JsVal}
    (hpackage : jsonParse env.runtime packageJson = .ok package)
    (hversion : package.get (js "version") = .ok version)
    (hfree : tree.Free MANIFEST) :
    ∃ written, buildFipsManifest env tree packageJson = .ok written
      ∧ ∀ name, tree.Free name → written.Free name := by
  obtain ⟨files, hfiles, hstrings, -⟩ := collectDigests_present env tree
  have hdata : version = .undefined ∨ Plain version := by
    have hplain : Plain package := by
      rw [jsonParse] at hpackage
      split at hpackage
      next j _ =>
        cases hpackage
        exact plain_toValue env.runtime j
      next => cases hpackage
    cases hplain with
    | object h =>
        obtain ⟨v, hv, h⟩ := (Plain.object h).get (js "version")
        cases hversion.symm.trans hv
        exact h
    | null => cases hversion
    | _ => exact Or.inl (Except.ok.inj hversion).symm
  have hmembers : ∀ m ∈ serializeMembers env.runtime
      (manifestMembers version files), ∃ d, m.2 = .ok d := by
    have hobject : Plain (.object files []) := .object fun m hm => by
      obtain ⟨s, hs⟩ := hstrings.2 m hm
      exact hs ▸ .string s
    rw [serializeMembers_eq, manifestMembers]
    simp only [List.map_cons, List.map_nil, List.forall_mem_cons]
    refine ⟨⟨_, by rw [serialize]⟩, ?_, ?_, nofun⟩
    · rcases hdata with rfl | hdata
      · exact ⟨none, by rw [serialize]⟩
      · obtain ⟨j, hj⟩ := hdata.serialize env.runtime
        exact ⟨_, hj⟩
    · obtain ⟨j, hj⟩ := hobject.serialize env.runtime
      exact ⟨_, hj⟩
  obtain ⟨ms, hms⟩ := objectData_returns hmembers
  have hserialize : serialize env.runtime
      (.object (manifestMembers version files) []) false
        = .ok (some (.object ms)) := by
    rw [serialize_object _ fun r => ?_, hms]
    rw [toJson_manifestMembers, show toJson env.runtime [] = none by
      rw [toJson]]
    nofun
  obtain ⟨written, hwrite, hothers⟩ :=
    tree.write_returns hfree isFileName_MANIFEST (Utf8.textEncode
      (Json.indented (js "  ") [] (.object ms) ++ [10]))
  refine ⟨written, ?_, hothers⟩
  rw [buildFipsManifest, hfiles, hpackage]
  simp only [bind_eq_ok, Except.ok.injEq]
  refine ⟨files, rfl, package, rfl, version, hversion, _, by
    rw [stringifyIndented, hserialize]; rfl, ?_⟩
  simp only [Option.map_some, Option.getD_some, hwrite]
  rfl

end

-- ============================================================= exact

/-- **When the integrity test and its manifest are exact.** The test
accepts just the tree its manifest describes, unless an array or a string
owns the `length` of a file it does not list; and the script's manifest,
once signed, is accepted just when the tree has no file `__proto__`. -/
theorem integrityTest_exact (env : IntegrityEnv) (hrt : env.runtime.Lawful)
    (tree : Directory) :
    (((∃ manifest, integrityTest env tree = .ok manifest)
        ↔ Described env tree)
      ↔ ¬LengthUnlisted env tree)
    ∧ ∀ packageJson written signature signed manifestBytes,
        buildFipsManifest env tree packageJson = .ok written →
        written.write SIGNATURE isFileName_SIGNATURE signature
          = some signed →
        Signed env signed manifestBytes →
        ((∃ manifest, integrityTest env signed = .ok manifest)
          ↔ tree.find [js "__proto__"] = none) := by
  refine ⟨returns_iff_described, ?_⟩
  intro packageJson written signature signed manifestBytes hbuild hwrite
    hsigned
  exact signed_returns hrt hbuild hwrite hsigned

-- ============================================================ examples

/-- The SHA-256 of no bytes. -/
def emptySha256 : Bytes :=
  [0xe3, 0xb0, 0xc4, 0x42, 0x98, 0xfc, 0x1c, 0x14,
    0x9a, 0xfb, 0xf4, 0xc8, 0x99, 0x6f, 0xb9, 0x24,
    0x27, 0xae, 0x41, 0xe4, 0x64, 0x9b, 0x93, 0x4c,
    0xa4, 0x95, 0x99, 0x1b, 0x78, 0x52, 0xb8, 0x55]

/-- A release whose files are empty, under a signature that is valid for
every message. -/
def sampleEnv : IntegrityEnv where
  runtime := plainRuntime
  sha256 _ := emptySha256
  verify signature _ publicKey := signature = [0] ∧ publicKey = [1]
  RELEASE_KEY_ML_DSA_87 := js "01"
  fileError _ := error []

/-- One empty file. -/
def sampleTree (name : JsString) (hname : IsFileName name) : Directory where
  entries := [(name, .file [])]
  sound := .directory (List.forall_mem_singleton.mpr hname)
    (List.nodup_singleton name) (List.forall_mem_singleton.mpr (.file []))

/-- An empty file `length` under a manifest that lists nothing. -/
def lengthTree : Directory where
  entries :=
    [(js "length", .file []),
      (MANIFEST, .file (Utf8.textEncode (js "\x7b\"files\":[]\x7d"))),
      (SIGNATURE, .file (Utf8.textEncode (js "00")))]
  sound := .directory
    (by
      simp only [List.forall_mem_cons]
      exact ⟨by decide, by decide, by decide, nofun⟩)
    (by decide)
    (by
      simp only [List.forall_mem_cons]
      exact ⟨.file _, .file _, .file _, nofun⟩)

/-- A manifest of a sample is made and signed, which shows that what the
theorems above assume can be met: one file beside the manifest, and the
signature written to its own. -/
theorem sample_signed (name : JsString) (hname : IsFileName name) :
    ∃ written signed manifestBytes,
      buildFipsManifest sampleEnv (sampleTree name hname) (js "\x7b\x7d")
          = .ok written
        ∧ written.write SIGNATURE isFileName_SIGNATURE
            (Utf8.textEncode (js "00")) = some signed
        ∧ Signed sampleEnv signed manifestBytes := by
  have hfree : ∀ other, (sampleTree name hname).Free other := by
    intro other e he _
    rw [List.mem_singleton.mp he]
    rfl
  have hpackage : jsonParse plainRuntime (js "\x7b\x7d")
      = .ok (toValue plainRuntime (.object [])) := rfl
  have hversion := (@get_toValue plainRuntime [] List.nodup_nil
    (js "version")).1 nofun
  obtain ⟨written, hbuild, hothers⟩ := @buildFipsManifest_returns
    sampleEnv _ _ _ _ hpackage hversion (hfree MANIFEST)
  obtain ⟨content, -, hmanifest, -⟩ :=
    buildFipsManifest_ok plainRuntime_lawful hbuild
  obtain ⟨signed, hwrite, -⟩ := written.write_returns
    (hothers SIGNATURE (hfree SIGNATURE)) isFileName_SIGNATURE
    (Utf8.textEncode (js "00"))
  refine ⟨written, signed, content, hbuild, hwrite, ?_,
    Utf8.textEncode (js "00"), [0], [1], ?_, rfl, rfl, rfl⟩
  · rw [Directory.find_write hwrite, if_neg (by decide),
      Directory.find_write hmanifest, if_pos rfl]
  · rw [Directory.find_write hwrite, if_pos rfl]

/-- A directory of one file, with the manifest that the script makes of it
and a signature. -/
theorem integrityTest_exact_sample :
    ∃ written signed manifestBytes,
      buildFipsManifest sampleEnv (sampleTree (js "a.js") (by decide))
          (js "\x7b\x7d") = .ok written
        ∧ written.write SIGNATURE isFileName_SIGNATURE
            (Utf8.textEncode (js "00")) = some signed
        ∧ Signed sampleEnv signed manifestBytes
        ∧ ∃ manifest, integrityTest sampleEnv signed = .ok manifest := by
  obtain ⟨written, signed, b, hbuild, hwrite, hsigned⟩ :=
    sample_signed (js "a.js") (by decide)
  have hexact := (integrityTest_exact sampleEnv plainRuntime_lawful
    (sampleTree (js "a.js") (by decide))).2
  have hreturns := (hexact _ _ _ _ _ hbuild hwrite hsigned).mpr (by decide)
  exact ⟨written, signed, b, hbuild, hwrite, hsigned, hreturns⟩

/-- **Two trees the test is not exact on**: a tree with a file `__proto__`
is refused under its own signed manifest, and a tree with a file `length`
that its manifest does not list is not refused. -/
theorem integrityTest_overlooks :
    (∃ written signed manifestBytes,
      buildFipsManifest sampleEnv
          (sampleTree (js "__proto__") (by decide)) (js "\x7b\x7d")
          = .ok written
        ∧ written.write SIGNATURE isFileName_SIGNATURE
            (Utf8.textEncode (js "00")) = some signed
        ∧ Signed sampleEnv signed manifestBytes
        ∧ ¬∃ manifest, integrityTest sampleEnv signed = .ok manifest)
      ∧ ¬((∃ manifest, integrityTest sampleEnv lengthTree = .ok manifest)
          ↔ Described sampleEnv lengthTree) := by
  constructor
  · obtain ⟨written, signed, b, hbuild, hwrite, hsigned⟩ :=
      sample_signed (js "__proto__") (by decide)
    refine ⟨written, signed, b, hbuild, hwrite, hsigned, ?_⟩
    rw [signed_returns plainRuntime_lawful hbuild hwrite hsigned]
    decide
  · rw [returns_iff_described, not_not]
    have hparse : jsonParse plainRuntime (Utf8.textDecode
        (Utf8.textEncode (js "\x7b\"files\":[]\x7d")))
        = .ok (toValue plainRuntime
          (.object [(js "files", .array [])])) := rfl
    have hfiles := (@get_toValue plainRuntime [(js "files", .array [])]
      (List.nodup_singleton _) (js "files")).2 (.array []) List.mem_cons_self
    refine ⟨_, _, ⟨rfl, _, [0], [1], rfl, rfl, rfl, rfl⟩,
      ⟨_, hparse, hfiles⟩, ?_, rfl, fun path hne => ?_⟩
    · rw [toValue]
      rfl
    · have hnone : digestAt sampleEnv lengthTree path = none := by
        have hpresent : present lengthTree = [js "length"] := by decide
        rw [← Option.not_isSome_iff_eq_none, ← mem_present, hpresent,
          List.mem_singleton]
        exact hne
      rw [AgreeAt, hnone, toValue, toElements]
      rfl

end KxcoPostQuantum.Fips.Integrity
