/-
Directories of regular files.

A name is what a file system allows: neither empty nor `.` nor `..`,
without a slash. `Directory` carries that, and that no directory has two
entries of one name, so a path of names leads to one file at most. Names
are the strings the program is given of them, each of which stands for one
file; a name whose bytes are not UTF-8, which a program is given with
replacement characters, is not modelled.
-/
import KxcoPostQuantum.Js.Value
import KxcoPostQuantum.Lib.FileTree

namespace KxcoPostQuantum

open Lib

-- ======================================================== directories

/-- What a file or a directory may be called. -/
def IsFileName (name : JsString) : Prop :=
  name ≠ [] ∧ name ≠ js "." ∧ name ≠ js ".." ∧ 47 ∉ name

instance (name : JsString) : Decidable (IsFileName name) :=
  inferInstanceAs (Decidable (_ ∧ _))

/-- A directory, all its files regular and readable. -/
structure Directory where
  entries : FileTree.Entries JsString Bytes
  sound : FileTree.Sound IsFileName (.directory entries)

/-- The content of the file at some names from the directory down. -/
def Directory.find (tree : Directory) (path : List JsString) :
    Option Bytes :=
  FileTree.findIn tree.entries path

/-- A file written in the directory itself; none if a directory of that
name is in the way. -/
def Directory.write (tree : Directory) (name : JsString)
    (hname : IsFileName name) (content : Bytes) : Option Directory :=
  match h : FileTree.put name content tree.entries with
  | none => none
  | some entries => some ⟨entries, tree.sound.put hname h⟩

-- ============================================================== lookups

section

variable {tree : Directory} {path : List JsString} {c : Bytes}

theorem Directory.names_of_find (h : tree.find path = some c) :
    ∀ s ∈ path, IsFileName s := by
  have hfind : FileTree.find (.directory tree.entries) path = some c := by
    rw [FileTree.find]
    exact h
  exact FileTree.names_of_find tree.sound hfind

theorem Directory.ne_nil_of_find (h : tree.find path = some c) :
    path ≠ [] := by
  intro hnil
  rw [hnil, Directory.find, FileTree.findIn_root] at h
  cases h

/-- No directory of that name is in the way of a file. -/
def Directory.Free (tree : Directory) (name : JsString) : Prop :=
  ∀ e ∈ tree.entries, e.1 = name → e.2.isFile

/-- Where nothing is in the way a file is written, and is in no other
file's way. -/
theorem Directory.write_returns {name : JsString} (h : tree.Free name)
    (hname : IsFileName name) (content : Bytes) :
    ∃ written, tree.write name hname content = some written
      ∧ ∀ other, tree.Free other → written.Free other := by
  obtain ⟨entries, hput⟩ := FileTree.put_returns content h
  rw [Directory.write]
  split
  next hnone =>
    rw [hput] at hnone
    cases hnone
  next entries' hput' =>
    refine ⟨_, rfl, fun other hother e he hname => ?_⟩
    rcases FileTree.mem_put hput' e he with he | rfl
    · exact hother e he hname
    · rfl

/-- A write changes one path. -/
theorem Directory.find_write {written : Directory} {name : JsString}
    {hname : IsFileName name} {content : Bytes}
    (h : tree.write name hname content = some written)
    (path : List JsString) :
    written.find path
      = if path = [name] then some content else tree.find path := by
  rw [Directory.write] at h
  split at h
  next => cases h
  next entries hput =>
    cases h
    exact FileTree.findIn_put hput path

end

end KxcoPostQuantum
