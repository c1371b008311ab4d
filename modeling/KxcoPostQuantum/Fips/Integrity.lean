/-
The integrity test of src/fips/index.js and the script that writes the
manifest it reads, scripts/build-fips-manifest.mjs.

# The files

The module's directory is a `Directory`. A path is written as the source
writes it, its names joined by slashes; `join` puts names together as
`node:path` does.

# What is not here

SHA-256, the signature check and the release key are those of the
environment, as are the messages of the file system's own errors. The names
in a directory are the strings `readdir` gives of them, each that of one
file. That `filesIn` hands the files of a directory on as the arguments of
one call, of which an engine takes so many only, is not modelled.
-/
import KxcoPostQuantum.Js.Files
import KxcoPostQuantum.Js.Hex
import KxcoPostQuantum.Js.Json
import KxcoPostQuantum.Js.Text

namespace KxcoPostQuantum.Fips.Integrity

open Lib

-- ============================================================= paths

/-- `join(dir, ...segments)`, as the names below the module's directory;
none is a path that leaves it. -/
def join (dir : List JsString) : (segments : List JsString) →
    Option (List JsString)
  | [] => some dir
  | s :: segments =>
      if s = [] ∨ s = js "." then join dir segments
      else if s = js ".." then
        if dir = [] then none else join dir.dropLast segments
      else join (dir ++ [s]) segments

/-- `readFileSync(join(HERE, ...segments))`. -/
def readFileSync (tree : Directory) (segments : List JsString) :
    Option Bytes :=
  (join [] segments).bind tree.find

/-- A path from the module's directory, as text. -/
def pathText (path : List JsString) : JsString := List.intercalate [47] path

mutual

/-- What one entry, at `p`, adds to the files. -/
def filesAt (p : List JsString) : FileTree JsString Bytes → List JsString
  | .directory entries => filesIn p entries
  | .file _ => [pathText p]

/-- `filesIn(dir)`. -/
def filesIn (dir : List JsString) :
    FileTree.Entries JsString Bytes → List JsString
  | [] => []
  | (name, entry) :: rest => filesAt (dir ++ [name]) entry ++ filesIn dir rest

end

-- ======================================================== environment

/-- What the test and the script find around them. -/
structure IntegrityEnv where
  runtime : Runtime
  sha256 : Bytes → Bytes
  /-- `ml_dsa87.verify`. -/
  verify : (signature message publicKey : Bytes) → Bool
  RELEASE_KEY_ML_DSA_87 : JsString
  /-- The error of reading, or writing, a file that cannot be. -/
  fileError : (path : List JsString) → JsError

def MANIFEST : JsString := js "integrity.json"
def SIGNATURE : JsString := js "integrity.json.sig"

theorem isFileName_MANIFEST : IsFileName MANIFEST := by decide
theorem isFileName_SIGNATURE : IsFileName SIGNATURE := by decide

-- ============================================================ members

/-- The own enumerable members of a value `JSON.parse` made. -/
def ownMembers : JsVal → List (JsString × JsVal)
  | .object own _ => enumerate own
  | .array elems => indexed elems
  | .string s => indexed (s.map fun u => .string [u])
  | _ => []

/-- `Object.keys(v ?? {})`. -/
def objectKeys (v : JsVal) : List JsString := (ownMembers v).map (·.1)

/-- It owns a `length`, which is not enumerable. -/
def ownsLength : JsVal → Bool
  | .array _ | .string _ => true
  | _ => false

/-- `Object.hasOwn(v, k)`. -/
def objectHasOwn (v : JsVal) (k : JsString) : Except JsError Bool :=
  if v.isNullish then
    throw (typeError (js "Cannot convert undefined or null to object"))
  else
    return (JsVal.lookup k (ownMembers v)).isSome
      || ownsLength v && k = js "length"

-- ===================================================== integrity test

section

variable (env : IntegrityEnv) (tree : Directory)

/-- The manifest's bytes and its signature's text. -/
def signedManifest : Except JsError (Bytes × JsString) :=
  match readFileSync tree [MANIFEST], readFileSync tree [SIGNATURE] with
  | some manifestBytes, some signature =>
      .ok (manifestBytes, trim (utf8Text signature))
  | _, _ =>
      .error (error (js "integrity test failed: no signed integrity manifest; the module runs only from a signed release"))

/-- The files the manifest has to list. -/
def present : List JsString :=
  (filesIn [] tree.entries).filter fun f => f ≠ MANIFEST ∧ f ≠ SIGNATURE

/-- `present.filter((f) => !Object.hasOwn(manifest.files, f))`. -/
def extraFiles (files : JsVal) : List JsString → Except JsError (List JsString)
  | [] => .ok []
  | f :: rest => do
      let own ← objectHasOwn files f
      let extra ← extraFiles files rest
      return if own then extra else f :: extra

/-- One round of the loop over the listed files. -/
def checkDigest (files : JsVal) (f : JsString) : Except JsError Unit := do
  let content ← match readFileSync tree (f.splitOn 47) with
    | some content => .ok content
    | none => .error (env.fileError (f.splitOn 47))
  let listed := (JsVal.lookup f (ownMembers files)).getD .undefined
  if (JsVal.string (bytesToHex (env.sha256 content))).strictEquals listed then
    return ()
  throw (error (js "integrity test failed: " ++ f
    ++ js " does not match its digest"))

/-- The three comparisons of `integrityTest()`. -/
def compareFiles (files : JsVal) : Except JsError Unit := do
  let listed := objectKeys files
  let present := present tree
  let missing := listed.filter fun f => !present.contains f
  let extra ← extraFiles files present
  if (missing.isEmpty && extra.isEmpty) = false then
    throw (error (js "integrity test failed: " ++ decimal missing.length
      ++ js " file(s) missing, " ++ decimal extra.length
      ++ js " not in the manifest"
      ++ if extra.isEmpty then []
        else js " (" ++ List.intercalate (js ", ") extra ++ js ")"))
  else listed.forM (checkDigest env tree files)

/-- `integrityTest()`. -/
def integrityTest : Except JsError JsVal := do
  let (manifestBytes, signature) ← signedManifest tree
  let signature ← hexToBytes (.string signature)
  let key ← hexToBytes (.string env.RELEASE_KEY_ML_DSA_87)
  if env.verify signature manifestBytes key = false then
    throw (error (js "integrity test failed: the manifest signature does not verify under the ML-DSA-87 release key"))
  else do
    let manifest ← jsonParse env.runtime (Utf8.textDecode manifestBytes)
    let files ← manifest.get (js "files")
    compareFiles env tree files
    return manifest

-- ============================================= build-fips-manifest.mjs

/-- The loop over the sorted files, from what has been collected. -/
def collectDigests (files : List (JsString × JsVal)) :
    List JsString → Except JsError (List (JsString × JsVal))
  | [] => .ok files
  | f :: rest =>
      match readFileSync tree (f.splitOn 47) with
      | none => .error (env.fileError (f.splitOn 47))
      | some content =>
          collectDigests
            (assignString files f (bytesToHex (env.sha256 content))) rest

/-- `{ module: 'kxco-post-quantum/fips', version, files }`. -/
def manifestMembers (version : JsVal) (files : List (JsString × JsVal)) :
    List (JsString × JsVal) :=
  [(js "module", .string (js "kxco-post-quantum/fips")),
    (js "version", version), (js "files", .object files [])]

/-- `build-fips-manifest.mjs` over a directory, given the text of
`package.json`: the directory with its manifest. -/
def buildFipsManifest (packageJson : JsString) :
    Except JsError Directory := do
  let files ← collectDigests env tree []
    ((present tree).insertionSort fun a b => a ≤ b)
  let package ← jsonParse env.runtime packageJson
  let version ← package.get (js "version")
  let text ← stringifyIndented env.runtime
    (.object (manifestMembers version files) [])
  let content := Utf8.textEncode (text.getD (js "undefined") ++ [10])
  match tree.write MANIFEST isFileName_MANIFEST content with
  | some written => return written
  | none => throw (env.fileError [MANIFEST])

end

end KxcoPostQuantum.Fips.Integrity
