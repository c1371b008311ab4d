/-
Number-theoretic transforms, over any commutative ring.

# The tree of moduli

A transform of `len * 2 ^ T` coefficients splits its array `T` times. The
blocks of all splittings are the nodes of a binary tree, numbered like a
heap: the root is 1 and the node `g` has the children `2 * g` and
`2 * g + 1`, so the block `b` behind `t` splittings is the node
`2 ^ t + b`. Below the node `g` a polynomial is taken modulo
`X ^ len - node ζ g`, where `ζ` is the table of roots: the root stands
over `X ^ n + 1`, and `ζ g` is a square root of the constant of `g`, so
that `X ^ (2 * h) - ζ g ^ 2` is the product of the two below it.

# Results

A splitting leaves in each block the residue of what was there
(`residue_step`), so a run of them leaves in each block the residue of the
whole (`residue_run`). Residues are the polynomial's own
(`Residues.unique`), and the product of two transforms, block by block, is
the transform of the product modulo `X ^ n + 1` (`Residues.mul`). A merging
undoes a splitting up to a factor of two, in either order, and so a run of
them (`merge_run`, `split_run`).
-/
import Mathlib.RingTheory.AdjoinRoot
import Mathlib.Tactic.LinearCombination
import Mathlib.Tactic.Ring

namespace Lib.Ntt

open Polynomial Finset

variable {R : Type} [CommRing R]

-- ================================================================= tree

/-- The constant of the modulus over a node. -/
def node (ζ : ℕ → R) (g : ℕ) : R :=
  if g = 1 then -1 else if g % 2 = 0 then ζ (g / 2) else -ζ (g / 2)

/-- Below `m`, the table has a square root for every node. -/
structure Roots (ζ : ℕ → R) (m : ℕ) : Prop where
  sq : ∀ g, 1 ≤ g → g < m → ζ g ^ 2 = node ζ g

theorem node_even (ζ : ℕ → R) (g : ℕ) :
    node ζ (2 * g) = ζ g := by
  unfold node
  rw [if_neg (by omega), if_pos (Nat.mul_mod_right 2 g),
    Nat.mul_div_cancel_left g two_pos]

theorem node_odd (ζ : ℕ → R) {g : ℕ} (hg : 1 ≤ g) :
    node ζ (2 * g + 1) = -ζ g := by
  unfold node
  rw [if_neg (by omega), if_neg (by omega), show (2 * g + 1) / 2 = g by omega]

-- =============================================================== chunks

/-- The polynomial in a piece of an array. -/
noncomputable def chunk (v : ℕ → R) (start len : ℕ) : R[X] :=
  ∑ i ∈ range len, C (v (start + i)) * X ^ i

/-- Slices are linear in their slots. -/
theorem chunk_linear {u v w : ℕ → R} {start start' start'' len : ℕ} (c : R)
    (h : ∀ i < len, w (start + i) = u (start' + i) + c * v (start'' + i)) :
    chunk w start len = chunk u start' len + C c * chunk v start'' len := by
  unfold chunk
  rw [mul_sum, ← sum_add_distrib]
  apply sum_congr rfl
  intro i hi
  rw [h i (mem_range.mp hi), C_add, C_mul]
  ring

/-- A piece is its two halves. -/
theorem chunk_halves (v : ℕ → R) (start h : ℕ) :
    chunk v start (2 * h)
      = chunk v start h + X ^ h * chunk v (start + h) h := by
  unfold chunk
  rw [two_mul, sum_range_add, mul_sum]
  congr 1
  apply sum_congr rfl
  intro i _
  rw [pow_add, Nat.add_assoc]
  ring

theorem coeff_chunk (v : ℕ → R) (start len i : ℕ) :
    (chunk v start len).coeff i = if i < len then v (start + i) else 0 := by
  unfold chunk
  rw [finsetSum_coeff]
  simp only [coeff_C_mul_X_pow]
  by_cases hi : i < len
  · rw [if_pos hi, sum_eq_single_of_mem i (mem_range.mpr hi), if_pos rfl]
    intro j _ hj
    exact if_neg (Ne.symm hj)
  · rw [if_neg hi]
    apply sum_eq_zero
    intro j hj
    rw [mem_range] at hj
    exact if_neg (by omega)

theorem degree_chunk_lt (v : ℕ → R) (start len : ℕ) :
    (chunk v start len).degree < len := by
  rw [degree_lt_iff_coeff_zero]
  intro i hi
  rw [coeff_chunk, if_neg (not_lt.mpr hi)]

/-- Slices that agree modulo a modulus of their length are the same. -/
theorem chunk_injective [Nontrivial R] {v w : ℕ → R} {start start' len : ℕ}
    {c : R} (hlen : len ≠ 0)
    (h : X ^ len - C c ∣ chunk v start len - chunk w start' len) :
    ∀ i < len, v (start + i) = w (start' + i) := by
  have hzero : chunk v start len - chunk w start' len = 0 := by
    by_contra hne
    apply (monic_X_pow_sub_C c hlen).not_dvd_of_degree_lt hne _ h
    rw [degree_X_pow_sub_C (Nat.pos_of_ne_zero hlen)]
    exact (degree_sub_le _ _).trans_lt
      (max_lt (degree_chunk_lt v start len) (degree_chunk_lt w start' len))
  intro i hi
  have hcoeff := congrArg (fun p => p.coeff i) (sub_eq_zero.mp hzero)
  simp only [coeff_chunk, if_pos hi] at hcoeff
  exact hcoeff

-- ============================================================ splitting

/-- `w` is `v` with each of its `2 ^ t` blocks split in two. -/
structure IsSplit (ζ : ℕ → R) (t h : ℕ) (v w : ℕ → R) : Prop where
  lower : ∀ b < 2 ^ t, ∀ j < h, w (b * (2 * h) + j)
    = v (b * (2 * h) + j) + ζ (2 ^ t + b) * v (b * (2 * h) + h + j)
  upper : ∀ b < 2 ^ t, ∀ j < h, w (b * (2 * h) + h + j)
    = v (b * (2 * h) + j) - ζ (2 ^ t + b) * v (b * (2 * h) + h + j)

/-- `w` is `v` with each two of its blocks merged; `ω` is by the block. -/
structure IsMerge (ω : ℕ → R) (t h : ℕ) (v w : ℕ → R) : Prop where
  lower : ∀ b < 2 ^ t, ∀ j < h, w (b * (2 * h) + j)
    = v (b * (2 * h) + h + j) + v (b * (2 * h) + j)
  upper : ∀ b < 2 ^ t, ∀ j < h, w (b * (2 * h) + h + j)
    = (v (b * (2 * h) + h + j) - v (b * (2 * h) + j)) * ω b

/-- Every slot of `2 ^ t` blocks is in the lower or the upper half of
one. -/
theorem slot_cases {t h x : ℕ} (hx : x < 2 ^ t * (2 * h)) :
    ∃ b < 2 ^ t, ∃ j < h,
      x = b * (2 * h) + j ∨ x = b * (2 * h) + h + j := by
  have hh : 0 < 2 * h := by
    by_contra h0
    rw [Nat.eq_zero_of_not_pos h0, Nat.mul_zero] at hx
    exact Nat.not_lt_zero x hx
  have hb : x / (2 * h) < 2 ^ t := by
    rwa [Nat.div_lt_iff_lt_mul hh]
  have hsplit := Nat.div_add_mod x (2 * h)
  rw [Nat.mul_comm] at hsplit
  have hmod := Nat.mod_lt x hh
  by_cases hlow : x % (2 * h) < h
  · exact ⟨_, hb, _, hlow, Or.inl hsplit.symm⟩
  · refine ⟨_, hb, x % (2 * h) - h, by omega, Or.inr ?_⟩
    omega

/-- **A merging undoes a splitting**, up to a factor of two: the sum of the
two halves is twice the one half, and their difference times the inverse
root is twice the other. -/
theorem merge_split {ζ ω : ℕ → R} {t h : ℕ} {v w u u' : ℕ → R} {s : R}
    (hsplit : IsSplit ζ t h v w) (hmerge : IsMerge ω t h u u')
    (hinv : ∀ b < 2 ^ t, ζ (2 ^ t + b) * ω b = -1)
    (hu : ∀ x < 2 ^ t * (2 * h), u x = s * w x) :
    ∀ x < 2 ^ t * (2 * h), u' x = s * 2 * v x := by
  intro x hx
  obtain ⟨b, hb, j, hj, hcase⟩ := slot_cases hx
  have hblock : b * (2 * h) + 2 * h ≤ 2 ^ t * (2 * h) := by
    have := Nat.mul_le_mul_right (2 * h) hb
    rwa [Nat.succ_mul] at this
  have hlow := hu (b * (2 * h) + j) (by omega)
  have hupp := hu (b * (2 * h) + h + j) (by omega)
  rw [hsplit.lower b hb j hj] at hlow
  rw [hsplit.upper b hb j hj] at hupp
  rcases hcase with rfl | rfl
  · rw [hmerge.lower b hb j hj, hlow, hupp]
    ring
  · rw [hmerge.upper b hb j hj, hlow, hupp]
    linear_combination (-2 * s * v (b * (2 * h) + h + j)) * hinv b hb

/-- And a splitting a merging, by the same two equations read the other
way. -/
theorem split_merge {ζ ω : ℕ → R} {t h : ℕ} {v w u u' : ℕ → R} {s : R}
    (hmerge : IsMerge ω t h v w) (hsplit : IsSplit ζ t h u u')
    (hinv : ∀ b < 2 ^ t, ζ (2 ^ t + b) * ω b = -1)
    (hu : ∀ x < 2 ^ t * (2 * h), u x = s * w x) :
    ∀ x < 2 ^ t * (2 * h), u' x = s * 2 * v x := by
  intro x hx
  obtain ⟨b, hb, j, hj, hcase⟩ := slot_cases hx
  have hblock : b * (2 * h) + 2 * h ≤ 2 ^ t * (2 * h) := by
    have := Nat.mul_le_mul_right (2 * h) hb
    rwa [Nat.succ_mul] at this
  have hlow := hu (b * (2 * h) + j) (by omega)
  have hupp := hu (b * (2 * h) + h + j) (by omega)
  rw [hmerge.lower b hb j hj] at hlow
  rw [hmerge.upper b hb j hj] at hupp
  set p := v (b * (2 * h) + j)
  set q := v (b * (2 * h) + h + j)
  rcases hcase with rfl | rfl
  · rw [hsplit.lower b hb j hj, hlow, hupp]
    linear_combination (s * (q - p)) * hinv b hb
  · rw [hsplit.upper b hb j hj, hlow, hupp]
    linear_combination (-s * (q - p)) * hinv b hb

/-- **Mergings undo a run of splittings**, the last one first. By induction
over the stages that are left, with a factor of two for each of them. -/
theorem merge_run {ζ : ℕ → R} {ω : ℕ → ℕ → R} {T l : ℕ}
    {w u : ℕ → ℕ → R}
    (hsplit : ∀ t < T, IsSplit ζ t (l * 2 ^ (T - 1 - t)) (w t)
      (w (t + 1)))
    (hmerge : ∀ t < T, IsMerge (ω t) t (l * 2 ^ (T - 1 - t))
      (u (T - 1 - t)) (u (T - t)))
    (hinv : ∀ t < T, ∀ b < 2 ^ t, ζ (2 ^ t + b) * ω t b = -1)
    (hstart : ∀ x < 2 ^ T * l, u 0 x = w T x) :
    ∀ i ≤ T, ∀ x < 2 ^ T * l, u i x = 2 ^ i * w (T - i) x := by
  intro i
  induction i with
  | zero =>
      intro _ x hx
      rw [hstart x hx, pow_zero, one_mul, Nat.sub_zero]
  | succ i ih =>
      intro hi x hx
      have ht : T - (i + 1) < T := by omega
      have hwhole : 2 ^ (T - (i + 1)) * (2 * (l * 2 ^ i)) = 2 ^ T * l := by
        rw [show 2 ^ T = 2 ^ (T - (i + 1)) * 2 ^ (i + 1) by
          rw [← pow_add]; congr 1; omega, pow_succ]
        ring
      have hs := hsplit _ ht
      have hm := hmerge _ ht
      rw [show T - 1 - (T - (i + 1)) = i by omega] at hs hm
      rw [show T - (i + 1) + 1 = T - i by omega] at hs
      rw [show T - (T - (i + 1)) = i + 1 by omega] at hm
      have hback := merge_split hs hm (hinv _ ht) (s := 2 ^ i)
      rw [hwhole] at hback
      rw [hback (ih (Nat.le_of_succ_le hi)) x hx, pow_succ]

/-- And splittings a run of mergings, by induction over the splittings from
the first one on. -/
theorem split_run {ζ : ℕ → R} {ω : ℕ → ℕ → R} {T l : ℕ}
    {w u : ℕ → ℕ → R}
    (hmerge : ∀ t < T, IsMerge (ω t) t (l * 2 ^ (T - 1 - t))
      (w (T - 1 - t)) (w (T - t)))
    (hsplit : ∀ t < T, IsSplit ζ t (l * 2 ^ (T - 1 - t)) (u t)
      (u (t + 1)))
    (hinv : ∀ t < T, ∀ b < 2 ^ t, ζ (2 ^ t + b) * ω t b = -1) {s : R}
    (hstart : ∀ x < 2 ^ T * l, u 0 x = s * w T x) :
    ∀ t ≤ T, ∀ x < 2 ^ T * l, u t x = s * 2 ^ t * w (T - t) x := by
  intro t
  induction t with
  | zero =>
      intro _ x hx
      rw [hstart x hx, pow_zero, mul_one, Nat.sub_zero]
  | succ t ih =>
      intro ht x hx
      have hwhole : 2 ^ t * (2 * (l * 2 ^ (T - 1 - t))) = 2 ^ T * l := by
        rw [show 2 ^ T = 2 ^ t * 2 ^ (T - 1 - t + 1) by
          rw [← pow_add]; congr 1; omega, pow_succ]
        ring
      have hback := split_merge (hmerge t ht) (hsplit t ht) (hinv t ht)
        (s := s * 2 ^ t)
      rw [hwhole] at hback
      rw [hback (ih (Nat.le_of_succ_le ht)) x hx, pow_succ,
        show T - 1 - t = T - (t + 1) by omega]
      ring

-- ============================================================= residues

/-- The blocks of `w` are the residues of `v` behind `t` splittings. -/
def Residues (ζ : ℕ → R) (t len : ℕ) (v w : ℕ → R) : Prop :=
  ∀ b < 2 ^ t, X ^ len - C (node ζ (2 ^ t + b))
    ∣ chunk v 0 (2 ^ t * len) - chunk w (b * len) len

theorem residues_start (ζ : ℕ → R) (len : ℕ) (v : ℕ → R) :
    Residues ζ 0 len v v := by
  intro b hb
  obtain rfl : b = 0 := by omega
  rw [pow_zero, Nat.one_mul, Nat.zero_mul, sub_self]
  exact dvd_zero _

/-- The constants of the two children of a node. -/
theorem node_children (ζ : ℕ → R) (t b : ℕ) :
    node ζ (2 ^ (t + 1) + 2 * b) = ζ (2 ^ t + b)
      ∧ node ζ (2 ^ (t + 1) + (2 * b + 1)) = -ζ (2 ^ t + b) := by
  have hg : 1 ≤ 2 ^ t + b := by
    have := Nat.one_le_two_pow (n := t)
    omega
  constructor
  · rw [show 2 ^ (t + 1) + 2 * b = 2 * (2 ^ t + b) by ring, node_even ζ _]
  · rw [show 2 ^ (t + 1) + (2 * b + 1) = 2 * (2 ^ t + b) + 1 by ring,
      node_odd ζ hg]

/-- The moduli of the children divide that of a node. -/
theorem child_dvd {c z : R} (hz : z ^ 2 = c) (h : ℕ) :
    X ^ h - C z ∣ X ^ (2 * h) - C c ∧ X ^ h - C (-z) ∣ X ^ (2 * h) - C c := by
  subst hz
  constructor
  · exact ⟨X ^ h + C z, by rw [C_pow]; ring⟩
  · exact ⟨X ^ h - C z, by rw [C_pow, C_neg]; ring⟩

/-- A block is the lower or the upper half of one before. -/
theorem child_cases {t b' : ℕ} (h : b' < 2 ^ (t + 1)) :
    ∃ b < 2 ^ t, b' = 2 * b ∨ b' = 2 * b + 1 := by
  rw [pow_succ] at h
  exact ⟨b' / 2, by omega, by omega⟩

/-- **A splitting takes residues**: a block modulo a power minus a square
becomes two blocks, modulo half the power minus and plus the root. -/
theorem residue_step {ζ : ℕ → R} {t h : ℕ} {v w w' : ℕ → R}
    (hroots : ∀ b < 2 ^ t, ζ (2 ^ t + b) ^ 2 = node ζ (2 ^ t + b))
    (hres : Residues ζ t (2 * h) v w) (hsplit : IsSplit ζ t h w w') :
    Residues ζ (t + 1) h v w' := by
  intro b' hb'
  obtain ⟨b, hb, hcase⟩ := child_cases hb'
  obtain ⟨heven, hodd⟩ := node_children ζ t b
  obtain ⟨hdvd, hdvd'⟩ := child_dvd (hroots b hb) h
  have hparent := hres b hb
  rw [chunk_halves w] at hparent
  rw [show 2 ^ (t + 1) * h = 2 ^ t * (2 * h) by ring]
  rcases hcase with rfl | rfl
  · have hlower := chunk_linear (ζ (2 ^ t + b)) (hsplit.lower b hb)
    rw [heven, show 2 * b * h = b * (2 * h) by ring, hlower]
    have hhalf := (hdvd.trans hparent).add
      (Dvd.intro (chunk w (b * (2 * h) + h) h) rfl :
        X ^ h - C (ζ (2 ^ t + b)) ∣ _)
    convert hhalf using 1
    ring
  · have hneg : ∀ j < h, w' (b * (2 * h) + h + j) = w (b * (2 * h) + j)
        + -ζ (2 ^ t + b) * w (b * (2 * h) + h + j) := by
      intro j hj
      rw [hsplit.upper b hb j hj, sub_eq_add_neg, neg_mul_eq_neg_mul]
    have hupper := chunk_linear (-ζ (2 ^ t + b)) hneg
    rw [hodd, show (2 * b + 1) * h = b * (2 * h) + h by ring, hupper]
    have hhalf := (hdvd'.trans hparent).add
      (Dvd.intro (chunk w (b * (2 * h) + h) h) rfl :
        X ^ h - C (-ζ (2 ^ t + b)) ∣ _)
    convert hhalf using 1
    ring

/-- **A run of splittings takes residues**, of blocks that get shorter. By
induction over the stages; at the start there is one block, the polynomial
itself. -/
theorem residue_run {ζ : ℕ → R} {T l : ℕ} {v : ℕ → R} (w : ℕ → ℕ → R)
    (hroots : Roots ζ (2 ^ T)) (hstart : w 0 = v)
    (hsplit : ∀ t < T, IsSplit ζ t (l * 2 ^ (T - 1 - t)) (w t)
      (w (t + 1))) :
    ∀ t ≤ T, Residues ζ t (l * 2 ^ (T - t)) v (w t) := by
  intro t
  induction t with
  | zero =>
      intro _
      rw [hstart]
      exact residues_start ζ _ v
  | succ t ih =>
      intro ht
      have hhalf : l * 2 ^ (T - t) = 2 * (l * 2 ^ (T - (t + 1))) := by
        rw [show T - t = T - (t + 1) + 1 by omega, pow_succ]
        ring
      have hres := ih (Nat.le_of_succ_le ht)
      rw [hhalf] at hres
      have hstep := hsplit t ht
      rw [show T - 1 - t = T - (t + 1) by omega] at hstep
      apply residue_step _ hres hstep
      intro b hb
      have hone := Nat.one_le_two_pow (n := t)
      apply hroots.sq _ (by omega)
      calc 2 ^ t + b < 2 ^ t + 2 ^ t := Nat.add_lt_add_left hb _
        _ = 2 ^ (t + 1) := by ring
        _ ≤ 2 ^ T := Nat.pow_le_pow_right two_pos ht

-- ============================================================= products

/-- The modulus of every node divides that of the root. By induction over
the stages: the moduli of the two children of a node multiply to its own. -/
theorem node_dvd {ζ : ℕ → R} {T : ℕ} (hroots : Roots ζ (2 ^ T)) :
    ∀ t ≤ T, ∀ len b, b < 2 ^ t →
      X ^ len - C (node ζ (2 ^ t + b)) ∣ X ^ (2 ^ t * len) + 1 := by
  intro t
  induction t with
  | zero =>
      intro _ len b hb
      obtain rfl : b = 0 := by omega
      rw [pow_zero, Nat.one_mul]
      apply dvd_of_eq
      unfold node
      rw [if_pos rfl, C_neg, C_1]
      ring
  | succ t ih =>
      intro ht len b' hb'
      obtain ⟨b, hb, hcase⟩ := child_cases hb'
      have hone := Nat.one_le_two_pow (n := t)
      have hsq := hroots.sq (2 ^ t + b) (by omega) (by
        calc 2 ^ t + b < 2 ^ t + 2 ^ t := Nat.add_lt_add_left hb _
          _ = 2 ^ (t + 1) := by ring
          _ ≤ 2 ^ T := Nat.pow_le_pow_right two_pos ht)
      have hparent := ih (Nat.le_of_succ_le ht) (2 * len) b hb
      obtain ⟨heven, hodd⟩ := node_children ζ t b
      obtain ⟨hdvd, hdvd'⟩ := child_dvd hsq len
      rw [show 2 ^ (t + 1) * len = 2 ^ t * (2 * len) by ring]
      rcases hcase with rfl | rfl
      · rw [heven]
        exact hdvd.trans hparent
      · rw [hodd]
        exact hdvd'.trans hparent

/-- `w` is the product of `u` and `v`, block by block. -/
def IsProduct (ζ : ℕ → R) (T len : ℕ) (u v w : ℕ → R) : Prop :=
  ∀ b < 2 ^ T, X ^ len - C (node ζ (2 ^ T + b))
    ∣ chunk u (b * len) len * chunk v (b * len) len - chunk w (b * len) len

/-- **The product of two transforms** is the transform of the product. -/
theorem Residues.mul {ζ : ℕ → R} {T len : ℕ} {a b c u v w : ℕ → R}
    (hroots : Roots ζ (2 ^ T)) (hu : Residues ζ T len a u)
    (hv : Residues ζ T len b v) (hproduct : IsProduct ζ T len u v w)
    (hc : X ^ (2 ^ T * len) + 1 ∣ chunk a 0 (2 ^ T * len)
      * chunk b 0 (2 ^ T * len) - chunk c 0 (2 ^ T * len)) :
    Residues ζ T len c w := by
  intro block hblock
  have hwhole := (node_dvd hroots T le_rfl len _ hblock).trans hc
  have ha := (hu _ hblock).mul_right (chunk b 0 (2 ^ T * len))
  have hb := (hv _ hblock).mul_left (chunk u (block * len) len)
  have hsum := dvd_sub ((hproduct _ hblock).add (ha.add hb)) hwhole
  convert hsum using 1
  ring

/-- And sums are of sums. -/
theorem Residues.linear {ζ : ℕ → R} {T len : ℕ} {a b c u v w : ℕ → R} (k : R)
    (hu : Residues ζ T len a u) (hv : Residues ζ T len b v)
    (hc : ∀ x < 2 ^ T * len, c x = a x + k * b x)
    (hw : ∀ x < 2 ^ T * len, w x = u x + k * v x) : Residues ζ T len c w := by
  intro block hblock
  have hend : block * len + len ≤ 2 ^ T * len := by
    have := Nat.mul_le_mul_right len hblock
    rwa [Nat.succ_mul] at this
  have hwhole : chunk c 0 (2 ^ T * len)
      = chunk a 0 (2 ^ T * len) + C k * chunk b 0 (2 ^ T * len) := by
    apply chunk_linear
    intro i hi
    rw [Nat.zero_add]
    exact hc i hi
  have hpiece : chunk w (block * len) len
      = chunk u (block * len) len + C k * chunk v (block * len) len := by
    apply chunk_linear
    intro i hi
    exact hw _ (by omega)
  have hsum := (hu _ hblock).add ((hv _ hblock).mul_left (C k))
  rw [hwhole, hpiece]
  convert hsum using 1
  ring

/-- A transform is of one array only. -/
theorem Residues.unique [Nontrivial R] {ζ : ℕ → R} {T len : ℕ}
    {a u v : ℕ → R} (hlen : len ≠ 0) (hu : Residues ζ T len a u)
    (hv : Residues ζ T len a v) : ∀ x < 2 ^ T * len, u x = v x := by
  intro x hx
  have hpos := Nat.pos_of_ne_zero hlen
  have hblock : x / len < 2 ^ T := by rwa [Nat.div_lt_iff_lt_mul hpos]
  have hdvd := dvd_sub (hv _ hblock) (hu _ hblock)
  rw [sub_sub_sub_cancel_left] at hdvd
  have hsame := chunk_injective hlen hdvd (x % len) (Nat.mod_lt x hpos)
  rwa [Nat.mul_comm, Nat.div_add_mod] at hsame

theorem Residues.congr {ζ : ℕ → R} {T len : ℕ} {a b u v : ℕ → R}
    (h : Residues ζ T len a u) (ha : ∀ x < 2 ^ T * len, a x = b x)
    (hu : ∀ x < 2 ^ T * len, u x = v x) : Residues ζ T len b v := by
  apply Residues.linear 0 h h
  · intro x hx
    rw [ha x hx, zero_mul, add_zero]
  · intro x hx
    rw [hu x hx, zero_mul, add_zero]

end Lib.Ntt
