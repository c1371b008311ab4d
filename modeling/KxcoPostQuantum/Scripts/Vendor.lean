/-
scripts/vendor-fips.mjs: the files of the noble packages that the FIPS
module needs, copied to src/fips/vendor with other specifiers.

# Paths

A path is the list of its names from the root of the file system down,
which is what `join` and `resolve` make of a path's text; it is put in
text where the script looks at text. A file is read from the tree as it
is; that none of it changes during a run is assumed.

# What is not here

`files` is what the script compares or writes, path by path. The removal
of the old directory, the comparison of `--check` and what is printed are
not modelled.
-/
import KxcoPostQuantum.Js.Files
import KxcoPostQuantum.Js.Hex
import KxcoPostQuantum.Lib.Posix
import KxcoPostQuantum.Lib.Worklist
import KxcoPostQuantum.Scripts.Cbom

namespace KxcoPostQuantum.Scripts.Vendor

open Lib Lib.Ecma

-- =============================================================== paths

abbrev Path : Type := List JsString

/-- Segments that `join` and `resolve` pass over. -/
def stays (s : JsString) : Bool := s = [] || s = js "."

/-- `resolve(dir, ...segments)`. -/
def resolve (dir : Path) (segments : List JsString) : Path :=
  Posix.resolve (js "..") stays dir segments

/-- `relative(source, target)`. -/
def relative (source target : Path) : List JsString :=
  Posix.relative (js "..") source target

def dirname (path : Path) : Path := path.dropLast

/-- What the script finds around it. -/
structure Env where
  runtime : Runtime
  sha256 : Bytes → Bytes
  /-- The error of reading what is not a file. -/
  fileError : Path → JsError
  ROOT : Path

def PACKAGES : List JsString :=
  [js "@noble/post-quantum", js "@noble/hashes", js "@noble/curves"]

def ENTRIES : List JsString :=
  [js "@noble/post-quantum/ml-kem.js", js "@noble/post-quantum/ml-dsa.js",
    js "@noble/hashes/sha2.js", js "@noble/hashes/hmac.js"]

/-- The error of `join` when an argument is `undefined`. -/
def pathError : JsError where
  name := .typeError
  message :=
    js "The \"path\" argument must be of type string. Received undefined"
  code := some (js "ERR_INVALID_ARG_TYPE")

-- ========================================================== expression

/-- What is in front of a specifier, it, and the quote behind it. -/
structure Statement where
  head : JsString
  spec : JsString
  tail : JsString

def isQuote (c : UInt16) : Bool := c = 39 || c = 34

/-- `\bfrom\s*` at the end of what is behind the key word, which ends in a
letter itself. -/
def endsInFrom (clause : JsString) : Bool :=
  match after? (js "morf") (clause.reverse.dropWhile isSpace) with
  | some (c :: _) => !isWord c
  | _ => false

/-- `/^((?:import|export)\b[^'";]*?\bfrom\s*['"])([^'"]+)(['"])/gm`. The
quote in the first group can only be the first one behind the key word. -/
def SPECIFIER : Matcher UInt16 Statement := fun before text =>
  if before.all isLineTerminator then do
    let rest ← (after? (js "import") text).or (after? (js "export") text)
    let clause := rest.takeWhile fun c => !isQuote c && c ≠ 59
    let quoted := rest.drop clause.length
    let spec := quoted.tail.takeWhile fun c => !isQuote c
    let tail := quoted.tail.drop spec.length
    if rest.head?.all (fun c => !isWord c) && endsInFrom clause
        && quoted.head?.any isQuote && !spec.isEmpty && !tail.isEmpty then
      let head := text.take (text.length - quoted.tail.length)
      return ({ head, spec, tail := tail.take 1 },
        head.length + spec.length + 1)
    else none
  else none

section

variable (env : Env) (tree : Directory)

-- ============================================================ places

def MODULES : Path := env.ROOT ++ [js "node_modules"]

def VENDOR : Path := env.ROOT ++ [js "src", js "fips", js "vendor"]

/-- `readFileSync(path)`. -/
def readFileSync (path : Path) : Except JsError Bytes :=
  match tree.find path with
  | some content => .ok content
  | none => .error (env.fileError path)

def sourcePath (spec : JsString) (file : Path) : Except JsError Path :=
  if spec.head? = some 46 then
    .ok (resolve (dirname file) (splitUnit 47 spec))
  else
    match splitUnit 47 spec with
    | scope :: name :: rest =>
        .ok (resolve (MODULES env) (scope :: name :: rest))
    | _ => .error pathError

def vendorPath (file : Path) : Except JsError Path :=
  match relative (MODULES env) file with
  | _ :: name :: rest => .ok (resolve (VENDOR env) (name :: rest))
  | _ => .error pathError

-- =========================================================== closure

/-- What a file pushes, the last one first: `todo` is a stack. -/
def imports (file : Path) : Except JsError (List Path) := do
  let src ← readFileSync env tree file
  let targets ← (matchAll SPECIFIER (utf8Text src)).mapM fun m =>
    sourcePath env m.spec file
  return targets.reverse

/-- The files of the tree. -/
def allFiles : List Path := (FileTree.walkIn [] tree.entries).map (·.1)

/-- Only files can be read. -/
theorem mem_allFiles (file : Path) (targets : List Path)
    (h : imports env tree file = .ok targets) : file ∈ allFiles tree := by
  obtain ⟨src, hsrc, -⟩ := bind_eq_ok.mp h
  rw [readFileSync] at hsrc
  split at hsrc
  next content hfind =>
    have hwalk := (FileTree.mem_walk tree.sound [] file content).mpr
      ⟨file, rfl, hfind⟩
    exact List.mem_map.mpr ⟨(file, content), hwalk, rfl⟩
  next => cases hsrc

def closure : Except JsError (List Path) := do
  let entries ← ENTRIES.mapM fun e => sourcePath env e []
  let seen ← Worklist.closure (imports env tree) (allFiles tree)
    (mem_allFiles env tree) entries.reverse
  return seen.insertionSort fun a b => joinUnit 47 a ≤ joinUnit 47 b

-- =========================================================== rewrite

/-- The specifier of the copy of a file in the copy of another. -/
def newSpecifier (file : Path) (spec : JsString) : Except JsError JsString := do
  let out ← vendorPath env file
  let source ← sourcePath env spec file
  let target ← vendorPath env source
  let rel := joinUnit 47 (relative (dirname out) target)
  return if rel.head? = some 46 then rel else js "./" ++ rel

/-- A piece of a file's text in its copy. -/
def rewritePiece (file : Path) :
    Piece UInt16 Statement → Except JsError JsString
  | .unit c => .ok [c]
  | .found m _ => do
      let rel ← newSpecifier env file m.spec
      return m.head ++ (rel ++ m.tail)

def rewrite (file : Path) : Except JsError JsString := do
  let _ ← vendorPath env file
  let src ← readFileSync env tree file
  let pieces ← (scan SPECIFIER none 0 (utf8Text src)).mapM
    (rewritePiece env file)
  return pieces.flatten

-- ============================================================= build

/-- `files.set(path, body)`. -/
def setFile (files : List (Path × JsString)) (path : Path)
    (body : JsString) : List (Path × JsString) :=
  match files with
  | [] => [(path, body)]
  | (path', body') :: rest =>
      if path' = path then (path, body) :: rest
      else (path', body') :: setFile rest path body

/-- Where the licence of a package is written. -/
def licensePath (pkg : JsString) : Path :=
  VENDOR env ++ [(splitUnit 47 pkg).getD 1 [], js "LICENSE"]

/-- The loop over the packages. -/
def addPackages (files : List (Path × JsString))
    (versions : List (JsString × JsVal)) : List JsString →
    Except JsError (List (Path × JsString) × List (JsString × JsVal))
  | [] => .ok (files, versions)
  | pkg :: rest => do
      let dir := resolve (MODULES env) (splitUnit 47 pkg)
      let json ← readFileSync env tree (dir ++ [js "package.json"])
      let package ← jsonParse env.runtime (utf8Text json)
      let version ← package.get (js "version")
      let license ← readFileSync env tree (dir ++ [js "LICENSE"])
      addPackages
        (setFile files (licensePath env pkg) (utf8Text license))
        (assign versions pkg version) rest

/-- The loop over the files of the closure. -/
def addCode (files : List (Path × JsString))
    (sources : List (JsString × JsVal)) : List Path →
    Except JsError (List (Path × JsString) × List (JsString × JsVal))
  | [] => .ok (files, sources)
  | file :: rest => do
      let out ← vendorPath env file
      let body ← rewrite env tree file
      let src ← readFileSync env tree file
      addCode (setFile files out body)
        (assignString sources (joinUnit 47 (relative (VENDOR env) out))
          (bytesToHex (env.sha256 src))) rest

def note : JsString :=
  js "Generated by scripts/vendor-fips.mjs. Do not edit. sha256 is of the upstream file before its import specifiers were rewritten."

def record (versions sources : List (JsString × JsVal)) : JsVal :=
  .object [(js "note", .string note), (js "versions", .object versions []),
    (js "sources", .object sources [])] []

/-- The path of the record. -/
def recordPath : Path := VENDOR env ++ [js "VENDOR.json"]

def build : Except JsError (List (Path × JsString)) := do
  let (files, versions) ← addPackages env tree [] [] PACKAGES
  let code ← closure env tree
  let (files, sources) ← addCode env tree files [] code
  let text ← stringifyIndented env.runtime (record versions sources)
  return setFile files (recordPath env)
    (text.getD (js "undefined") ++ [lineFeed])

end

end KxcoPostQuantum.Scripts.Vendor
