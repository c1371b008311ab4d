/-
Counted loops, and arrays they work on in place.

`loop n body` is the loop whose counter runs below `n`. What holds at its
start and is kept by every pass holds at its end (`loop_induction`); a
loop whose passes each rewrite a slot of their own leaves in each slot
what its pass has made of it (`load_loop_store`).

`load` and `store` read and write a slot of an array. An index that the
array does not have reads as the default and is not written to.
-/
import Mathlib.Logic.Basic

namespace Lib

-- =============================================================== loops

/-- `for (let i = 0; i < n; i++)`. -/
def loop {σ : Type} : (n : Nat) → (body : Nat → σ → σ) → σ → σ
  | 0, _, s => s
  | n + 1, body, s => body n (loop n body s)

section

variable {σ : Type} {n : Nat} {b : Nat → σ → σ} {s : σ}

@[simp] theorem loop_zero : loop 0 b s = s := rfl

theorem loop_succ : loop (n + 1) b s = b n (loop n b s) := rfl

/-- What every pass keeps holds at the end. -/
theorem loop_induction {P : Nat → σ → Prop} (hstart : P 0 s)
    (hpass : ∀ i < n, ∀ t, P i t → P (i + 1) (b i t)) :
    P n (loop n b s) := by
  induction n with
  | zero => exact hstart
  | succ n ih =>
      rw [loop_succ]
      apply hpass n n.lt_succ_self
      exact ih fun i hi => hpass i (Nat.lt_succ_of_lt hi)

/-- Loops whose passes agree where the one of them comes by. -/
theorem loop_congr {c : Nat → σ → σ}
    (h : ∀ i < n, ∀ t, b i t = c i t) :
    loop n b s = loop n c s := by
  induction n with
  | zero => rfl
  | succ n ih =>
      rw [loop_succ, loop_succ, ih fun i hi => h i (Nat.lt_succ_of_lt hi),
        h n n.lt_succ_self]

end

/-- A loop whose body may throw. -/
def loopM {ε σ : Type} : (n : Nat) → (body : Nat → σ → Except ε σ) → σ →
    Except ε σ
  | 0, _, s => .ok s
  | n + 1, body, s => loopM n body s >>= body n

section

variable {ε σ : Type} {n : Nat} {b : Nat → σ → Except ε σ} {s : σ}

theorem loopM_succ : loopM (n + 1) b s = loopM n b s >>= b n := rfl

theorem loopM_congr {c : Nat → σ → Except ε σ}
    (h : ∀ i < n, ∀ t, b i t = c i t) :
    loopM n b s = loopM n c s := by
  induction n with
  | zero => rfl
  | succ n ih =>
      have hlast : b n = c n := funext (h n n.lt_succ_self)
      rw [loopM_succ, loopM_succ, ih fun i hi => h i (Nat.lt_succ_of_lt hi),
        hlast]

/-- What every pass keeps holds at an end that is reached. The passes are
counted, so what they keep may speak of how many there have been. -/
theorem loopM_induction {P : Nat → σ → Prop} (hstart : P 0 s)
    (hpass : ∀ i < n, ∀ t t', P i t → b i t = .ok t' → P (i + 1) t') {t : σ}
    (h : loopM n b s = .ok t) : P n t := by
  induction n generalizing t with
  | zero =>
      cases h
      exact hstart
  | succ n ih =>
      rw [loopM_succ] at h
      cases hrest : loopM n b s with
      | error e =>
          rw [hrest] at h
          cases h
      | ok u =>
          rw [hrest] at h
          have hu := ih (fun i hi => hpass i (Nat.lt_succ_of_lt hi)) hrest
          exact hpass n n.lt_succ_self u t hu h

/-- A loop returns what one returns whose passes return less often. -/
theorem loopM_mono {c : Nat → σ → Except ε σ}
    (h : ∀ i < n, ∀ t t', b i t = .ok t' → c i t = .ok t') {t : σ}
    (hrun : loopM n b s = .ok t) : loopM n c s = .ok t := by
  induction n generalizing t with
  | zero => exact hrun
  | succ n ih =>
      rw [loopM_succ] at hrun ⊢
      cases hrest : loopM n b s with
      | error e =>
          rw [hrest] at hrun
          cases hrun
      | ok u =>
          rw [hrest] at hrun
          rw [ih (fun i hi => h i (Nat.lt_succ_of_lt hi)) hrest]
          exact h n n.lt_succ_self u t hrun

/-- And where every pass returns, the end is reached. -/
theorem loopM_returns {P : Nat → σ → Prop} (hstart : P 0 s)
    (hpass : ∀ i < n, ∀ t, P i t → ∃ t', b i t = .ok t' ∧ P (i + 1) t') :
    ∃ t, loopM n b s = .ok t ∧ P n t := by
  induction n with
  | zero => exact ⟨s, rfl, hstart⟩
  | succ n ih =>
      obtain ⟨u, hu, hP⟩ := ih fun i hi => hpass i (Nat.lt_succ_of_lt hi)
      obtain ⟨t, ht, hP'⟩ := hpass n n.lt_succ_self u hP
      refine ⟨t, ?_, hP'⟩
      rw [loopM_succ, hu]
      exact ht

/-- A loop that draws something in each pass is the pure loop over what has
been drawn. So whether it returns is a question about the draws, and what it
returns is one about the pure loop. -/
theorem loopM_draw {α : Type} [Inhabited α] {draw : Nat → Except ε α}
    {f : Nat → α → σ → σ} {t : σ} :
    loopM n (fun i s => draw i >>= fun a => .ok (f i a s)) s = .ok t
      ↔ ∃ A : Nat → α, (∀ i < n, draw i = .ok (A i))
        ∧ t = loop n (fun i s => f i (A i) s) s := by
  induction n generalizing t with
  | zero =>
      constructor
      · intro h
        cases h
        exact ⟨fun _ => default, fun i hi => absurd hi (Nat.not_lt_zero i), rfl⟩
      · rintro ⟨_, -, rfl⟩
        rfl
  | succ n ih =>
      rw [loopM_succ]
      constructor
      · intro h
        cases hrest : loopM n (fun i s => draw i >>= fun a => .ok (f i a s)) s with
        | error e =>
            rw [hrest] at h
            cases h
        | ok u =>
            rw [hrest] at h
            obtain ⟨A, hA, rfl⟩ := ih.mp hrest
            cases hdraw : draw n with
            | error e =>
                have herror : (draw n >>= fun a => .ok (f n a
                    (loop n (fun i s => f i (A i) s) s))) = .ok t := h
                rw [hdraw] at herror
                cases herror
            | ok a =>
                have hok : (draw n >>= fun a => .ok (f n a
                    (loop n (fun i s => f i (A i) s) s))) = .ok t := h
                rw [hdraw] at hok
                cases hok
                refine ⟨fun i => if i < n then A i else a, ?_, ?_⟩
                · intro i hi
                  dsimp only
                  split
                  next hlt => exact hA i hlt
                  next hge =>
                    obtain rfl : i = n := by omega
                    exact hdraw
                · have hsame : loop n (fun i s => f i
                      (if i < n then A i else a) s) s
                        = loop n (fun i s => f i (A i) s) s := by
                    apply loop_congr
                    intro i hi _
                    rw [if_pos hi]
                  rw [loop_succ]
                  dsimp only
                  rw [if_neg (Nat.lt_irrefl n), hsame]
      · rintro ⟨A, hA, rfl⟩
        have hrest := ih.mpr ⟨A, fun i hi => hA i (Nat.lt_succ_of_lt hi), rfl⟩
        rw [hrest]
        show (draw n >>= fun a => .ok (f n a _)) = _
        rw [hA n n.lt_succ_self]
        rfl

end

-- ============================================================== arrays

section

variable {α : Type} [Inhabited α] {n : Nat}

/-- `a[i]`. -/
def load (a : Vector α n) (i : Nat) : α := a[i]?.getD default

/-- `a[i] = x`. -/
def store (a : Vector α n) (i : Nat) (x : α) : Vector α n :=
  a.setIfInBounds i x

variable {a b : Vector α n} {i j : Nat} {x : α}

theorem load_of_lt (h : i < n) : load a i = a[i] := by
  unfold load
  rw [Vector.getElem?_eq_getElem h]
  rfl

theorem load_store (hi : i < n) :
    load (store a i x) j = if i = j then x else load a j := by
  unfold load store
  rw [Vector.getElem?_setIfInBounds]
  split
  next h =>
    subst h
    rfl
  next => rfl

@[simp] theorem load_store_self (hi : i < n) :
    load (store a i x) i = x := by
  rw [load_store hi, if_pos rfl]

theorem load_store_of_ne (h : i ≠ j) :
    load (store a i x) j = load a j := by
  unfold load store
  rw [Vector.getElem?_setIfInBounds, if_neg h]

/-- Arrays with the same slots are the same. -/
theorem ext_load (h : ∀ i < n, load a i = load b i) : a = b := by
  apply Vector.ext
  intro i hi
  rw [← load_of_lt hi, ← load_of_lt hi]
  exact h i hi

@[simp] theorem load_ofFn {f : Fin n → α} (hi : i < n) :
    load (Vector.ofFn f) i = f ⟨i, hi⟩ := by
  rw [load_of_lt hi, Vector.getElem_ofFn]

@[simp] theorem load_replicate (hi : i < n) :
    load (Vector.replicate n x) i = x := by
  rw [load_of_lt hi, Vector.getElem_replicate]

@[simp] theorem load_map {β : Type} [Inhabited β] {f : α → β} (hi : i < n) :
    load (a.map f) i = f (load a i) := by
  rw [load_of_lt hi, load_of_lt hi, Vector.getElem_map]

/-- **A loop over an array in place**, each pass on the slot of its
counter. -/
theorem load_loop_store {f : Nat → α → α} {m : Nat} (hm : m ≤ n) (j : Nat) :
    load (loop m (fun i a => store a i (f i (load a i))) a) j
      = if j < m then f j (load a j) else load a j := by
  induction m generalizing j with
  | zero => rfl
  | succ m ih =>
      have hmn : m < n := hm
      have ih := ih (Nat.le_of_lt hmn)
      rw [loop_succ, load_store hmn]
      by_cases hj : m = j
      · subst hj
        rw [if_pos rfl, if_pos m.lt_succ_self, ih, if_neg (Nat.lt_irrefl m)]
      · rw [if_neg hj, ih]
        by_cases hlt : j < m
        · rw [if_pos hlt, if_pos (Nat.lt_succ_of_lt hlt)]
        · rw [if_neg hlt, if_neg (by omega)]

end

end Lib
