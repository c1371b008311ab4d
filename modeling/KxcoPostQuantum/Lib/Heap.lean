/-
An explicit heap of mutable cells: the memory under a program whose
arrays are shared by reference and overwritten in place.

A heap only grows. `alloc` hands out the next location, `write`
replaces one cell and leaves every other one alone, and nothing is ever
freed: a cell that the program has dropped is still there to be asked
about, which is what statements of the form "no stale copy is left"
quantify over.
-/
import Mathlib.Data.List.Basic

namespace Lib

/-- A heap of cells of type `κ`. A location is the index of its cell in
allocation order. -/
structure Heap (κ : Type) where
  cells : List κ

namespace Heap

variable {κ : Type}

/-- The heap with no cell. -/
def empty : Heap κ := ⟨[]⟩

/-- How many cells were ever allocated; every location is below it. -/
def size (h : Heap κ) : Nat := h.cells.length

/-- Allocate a cell. -/
def alloc (h : Heap κ) (c : κ) : Nat × Heap κ :=
  (h.size, ⟨h.cells ++ [c]⟩)

/-- Read a cell. -/
def read [Inhabited κ] (h : Heap κ) (l : Nat) : κ := h.cells.getD l default

/-- Overwrite a cell. -/
def write (h : Heap κ) (l : Nat) (c : κ) : Heap κ := ⟨h.cells.set l c⟩

@[simp] theorem size_alloc (h : Heap κ) (c : κ) :
    (h.alloc c).2.size = h.size + 1 := by
  simp [alloc, size]

@[simp] theorem size_write (h : Heap κ) (l : Nat) (c : κ) :
    (h.write l c).size = h.size := by
  simp [write, size]

section Read

variable [Inhabited κ]

/-- A fresh cell holds what it was allocated with. -/
@[simp] theorem read_alloc_self (h : Heap κ) (c : κ) :
    (h.alloc c).2.read h.size = c := by
  simp [alloc, read, size]

/-- Allocation leaves every existing cell as it was. -/
theorem read_alloc_of_lt {h : Heap κ} {l : Nat} (hl : l < h.size) (c : κ) :
    (h.alloc c).2.read l = h.read l := by
  unfold size at hl
  simp [alloc, read, List.getElem?_append_left hl]

/-- A written cell holds what was written. -/
theorem read_write_self {h : Heap κ} {l : Nat} (hl : l < h.size) (c : κ) :
    (h.write l c).read l = c := by
  unfold size at hl
  simp [write, read, hl]

/-- A write leaves every other cell as it was. -/
theorem read_write_of_ne {h : Heap κ} {l k : Nat} (hlk : l ≠ k) (c : κ) :
    (h.write l c).read k = h.read k := by
  simp [write, read, List.getElem?_set_ne hlk]

end Read

end Heap

end Lib
