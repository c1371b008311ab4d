/-
Paths as lists of names.

An absolute path is the list of the names from the root down. Among the
segments of a relative one, `up` leads to the directory above, and a
segment that `stays` says so of leads nowhere; the others are names.
`resolve` follows segments from a directory, and `relative` gives the
segments from one path to another. Following these leads there
(`resolve_relative`), and they are the same wherever both paths are moved
to (`relative_append`).
-/
import Mathlib.Data.List.Induction

namespace Lib.Posix

variable {ν : Type}

theorem mem_ups {up s : ν} {source target : List ν}
    (h : s ∈ source.map (fun _ => up) ++ target) :
    s = up ∨ s ∈ target := by
  rcases List.mem_append.mp h with h | h
  · obtain ⟨-, -, rfl⟩ := List.mem_map.mp h
    exact Or.inl rfl
  · exact Or.inr h

-- ============================================================= paths

section

variable [DecidableEq ν] (up : ν) (stays : ν → Bool)

/-- One segment further; there is nothing above the root. -/
def descend (dir : List ν) (s : ν) : List ν :=
  if stays s then dir else if s = up then dir.dropLast else dir ++ [s]

def resolve (dir segments : List ν) : List ν :=
  segments.foldl (descend up stays) dir

/-- Up to where the paths part, and down from there. -/
def relative : (source target : List ν) → List ν
  | a :: source, b :: target =>
      if a = b then relative source target
      else (a :: source).map (fun _ => up) ++ b :: target
  | source, target => source.map (fun _ => up) ++ target

/-- A segment that leads to an entry of the directory. -/
def IsName (s : ν) : Prop := stays s = false ∧ s ≠ up

variable {up stays} {dir source target segments : List ν}

theorem resolve_append (segments' : List ν) :
    resolve up stays dir (segments ++ segments')
      = resolve up stays (resolve up stays dir segments) segments' :=
  List.foldl_append

theorem resolve_names (h : ∀ s ∈ segments, IsName up stays s) :
    resolve up stays dir segments = dir ++ segments := by
  induction segments generalizing dir with
  | nil => exact (List.append_nil dir).symm
  | cons s segments ih =>
      rw [List.forall_mem_cons] at h
      have hs : descend up stays dir s = dir ++ [s] := by
        rw [descend, h.1.1, if_neg Bool.false_ne_true, if_neg h.1.2]
      show resolve up stays (descend up stays dir s) segments = _
      rw [hs, ih h.2, List.append_assoc]
      rfl

theorem resolve_ups (hup : stays up = false) :
    resolve up stays (dir ++ source) (source.map fun _ => up) = dir := by
  induction source using List.reverseRecOn with
  | nil => exact List.append_nil dir
  | append_singleton source s ih =>
      have hlast : descend up stays (dir ++ (source ++ [s])) up
          = dir ++ source := by
        rw [descend, hup, if_neg Bool.false_ne_true, if_pos rfl,
          ← List.append_assoc, List.dropLast_concat]
      have hfirst : (source ++ [s]).map (fun _ => up)
          = up :: source.map fun _ => up := by
        simp only [List.map_const', List.length_append, List.length_singleton,
          List.replicate_succ]
      rw [hfirst]
      show resolve up stays (descend up stays _ up) _ = dir
      rw [hlast, ih]

/-- **Following the segments leads there**, from wherever both are: as many
steps up as the source has names behind what the two share, and then the
names of the target that remain. -/
theorem resolve_relative (hup : stays up = false)
    (h : ∀ s ∈ target, IsName up stays s) :
    resolve up stays (dir ++ source) (relative up source target)
      = dir ++ target := by
  induction source generalizing dir target with
  | nil =>
      rw [relative.eq_def]
      exact (resolve_names h).trans (by rw [List.append_nil])
  | cons a source ih =>
      cases target with
      | nil =>
          rw [relative.eq_def]
          simp only [List.append_nil]
          exact resolve_ups hup
      | cons b target =>
          rw [relative]
          split
          next hab =>
            subst hab
            have htail : resolve up stays (dir ++ [a] ++ source)
                (relative up source target) = dir ++ [a] ++ target :=
              ih (List.forall_mem_cons.mp h).2
            rw [List.append_assoc, List.append_assoc] at htail
            exact htail
          next => rw [resolve_append, resolve_ups hup, resolve_names h]

theorem relative_append (dir : List ν) :
    relative up (dir ++ source) (dir ++ target)
      = relative up source target := by
  induction dir with
  | nil => rfl
  | cons n dir ih =>
      rw [List.cons_append, List.cons_append, relative, if_pos rfl, ih]

theorem mem_relative {s : ν} (h : s ∈ relative up source target) :
    s = up ∨ s ∈ target := by
  induction source generalizing target with
  | nil =>
      rw [relative.eq_def] at h
      exact Or.inr h
  | cons a source ih =>
      cases target with
      | nil =>
          rw [relative.eq_def] at h
          exact mem_ups h
      | cons b target =>
          rw [relative] at h
          split at h
          next => exact (ih h).imp_right (List.mem_cons_of_mem _)
          next => exact mem_ups h

theorem mem_drop_descend {k : Nat} {n s : ν}
    (h : n ∈ (descend up stays dir s).drop k) : n ∈ dir.drop k ∨ n = s := by
  rw [descend] at h
  split at h
  next => exact Or.inl h
  next =>
    split at h
    next =>
      rw [List.dropLast_eq_take, List.drop_take] at h
      exact Or.inl (List.mem_of_mem_take h)
    next =>
      rw [List.drop_append] at h
      refine (List.mem_append.mp h).imp_right fun h => ?_
      exact List.mem_singleton.mp (List.mem_of_mem_drop h)

/-- A name deep in the result was as deep before, or is a segment. -/
theorem mem_drop_resolve {k : Nat} {n : ν}
    (h : n ∈ (resolve up stays dir segments).drop k) :
    n ∈ dir.drop k ∨ n ∈ segments := by
  induction segments generalizing dir with
  | nil => exact Or.inl h
  | cons s segments ih =>
      rcases ih h with h | h
      · refine (mem_drop_descend h).imp_right fun hn => ?_
        rw [hn]
        exact List.mem_cons_self
      · exact Or.inr (List.mem_cons_of_mem _ h)

end

end Lib.Posix
