/-
Polynomials modulo `X ^ n + 1`, by their coefficients.

`value n v` is the element that the first `n` slots of an array stand for.
Elements are equal where the slots are (`value_eq_iff`), and a product is
the value of the negacyclic convolution (`value_mul`). The convolution with
an array of few and small slots is small (`abs_convolve_le`).
-/
import KxcoPostQuantum.Lib.Ntt
import Mathlib.Algebra.Order.BigOperators.Group.Finset
import Mathlib.Algebra.Order.Ring.Abs

namespace Lib.Negacyclic

open Polynomial Finset Lib.Ntt

/-- Polynomials modulo `X ^ n + 1`. -/
abbrev Ring (R : Type) [CommRing R] (n : ℕ) : Type :=
  AdjoinRoot (X ^ n + 1 : R[X])

section

variable {R : Type} [CommRing R] {n : ℕ}

/-- What an array stands for. -/
noncomputable def value (n : ℕ) (v : ℕ → R) : Ring R n :=
  AdjoinRoot.mk _ (chunk v 0 n)

theorem value_congr {v w : ℕ → R} (h : ∀ i < n, v i = w i) :
    value n v = value n w := by
  have hchunk : chunk v 0 n = chunk w 0 n := by
    ext i
    rw [coeff_chunk, coeff_chunk, Nat.zero_add]
    split
    next hi => exact h i hi
    next => rfl
  unfold value
  rw [hchunk]

theorem value_linear {u v w : ℕ → R} (c : R)
    (h : ∀ i < n, w i = u i + c * v i) :
    value n w = value n u + AdjoinRoot.of _ c * value n v := by
  have hchunk : chunk w 0 n = chunk u 0 n + C c * chunk v 0 n := by
    apply chunk_linear
    intro i hi
    rw [Nat.zero_add]
    exact h i hi
  unfold value
  rw [hchunk, map_add, map_mul, AdjoinRoot.mk_C]

theorem value_add {u v w : ℕ → R} (h : ∀ i < n, w i = u i + v i) :
    value n w = value n u + value n v := by
  rw [value_linear 1 fun i hi => by rw [h i hi, one_mul], map_one, one_mul]

theorem value_sub {u v w : ℕ → R} (h : ∀ i < n, w i = u i - v i) :
    value n w = value n u - value n v := by
  rw [value_linear (-1) fun i hi => by rw [h i hi, sub_eq_add_neg, neg_one_mul],
    map_neg, map_one, neg_one_mul, sub_eq_add_neg]

theorem value_zero {v : ℕ → R} (h : ∀ i < n, v i = 0) : value n v = 0 := by
  have hsub := value_sub (n := n) (u := v) (v := v) (w := v) fun i hi => by
    rw [h i hi, sub_zero]
  rwa [sub_self] at hsub

/-- Equal elements have equal slots. -/
theorem value_eq_iff [Nontrivial R] (hn : n ≠ 0) {v w : ℕ → R} :
    value n v = value n w ↔ ∀ i < n, v i = w i := by
  constructor
  · intro h
    have hdvd : X ^ n - C (-1) ∣ chunk v 0 n - chunk w 0 n := by
      rw [C_neg, C_1, sub_neg_eq_add]
      exact AdjoinRoot.mk_eq_mk.mp h
    intro i hi
    have hsame := chunk_injective hn hdvd i hi
    rwa [Nat.zero_add] at hsame
  · exact value_congr

/-- When an array stands for a product. -/
theorem value_eq_mul_iff {a b c : ℕ → R} :
    value n c = value n a * value n b
      ↔ X ^ n + 1 ∣ chunk a 0 n * chunk b 0 n - chunk c 0 n := by
  unfold value
  rw [← map_mul, eq_comm]
  exact AdjoinRoot.mk_eq_mk

-- ========================================================== convolution

/-- An array times `X ^ j`. -/
def rotate (n j : ℕ) (v : ℕ → R) (i : ℕ) : R :=
  if j ≤ i then v (i - j) else -v (n + i - j)

/-- The negacyclic convolution. -/
def convolve (n : ℕ) (c v : ℕ → R) (i : ℕ) : R :=
  ∑ j ∈ range n, c j * rotate n j v i

/-- One place further, what leaves comes in again with the other sign: the
value is multiplied by the root, whose power `n` is minus one. -/
theorem value_rotate_one (hn : n ≠ 0) (v : ℕ → R) :
    value n (rotate n 1 v) = AdjoinRoot.root _ * value n v := by
  obtain ⟨m, rfl⟩ := Nat.exists_eq_succ_of_ne_zero hn
  have hchunk : X * chunk v 0 (m + 1)
      = chunk (rotate (m + 1) 1 v) 0 (m + 1)
        + C (v m) * (X ^ (m + 1) + 1) := by
    ext i
    rw [coeff_add, coeff_C_mul, coeff_add, coeff_X_pow, coeff_one,
      coeff_chunk, Nat.zero_add]
    cases i with
    | zero =>
        rw [mul_coeff_zero, coeff_X_zero, zero_mul, if_pos (Nat.succ_pos m),
          if_neg (by omega), if_pos rfl]
        unfold rotate
        rw [if_neg (by omega), show m + 1 + 0 - 1 = m by omega]
        ring
    | succ i =>
        rw [coeff_X_mul, coeff_chunk, Nat.zero_add]
        by_cases hi : i + 1 < m + 1
        · rw [if_pos (by omega), if_pos hi, if_neg (by omega),
            if_neg (by omega)]
          unfold rotate
          rw [if_pos (by omega), Nat.add_sub_cancel]
          ring
        · rw [if_neg hi]
          by_cases hm : i = m
          · subst hm
            rw [if_pos (by omega), if_pos rfl, if_neg (by omega)]
            ring
          · rw [if_neg (by omega), if_neg (by omega), if_neg (by omega)]
            ring
  unfold value
  rw [← AdjoinRoot.mk_X, ← map_mul, hchunk, map_add, map_mul,
    AdjoinRoot.mk_self, mul_zero, add_zero]

theorem value_rotate (v : ℕ → R) :
    ∀ {j}, j < n → value n (rotate n j v) = AdjoinRoot.root _ ^ j * value n v := by
  intro j
  induction j with
  | zero =>
      intro _
      rw [pow_zero, one_mul]
      apply value_congr
      intro i _
      unfold rotate
      rw [if_pos (Nat.zero_le i), Nat.sub_zero]
  | succ j ih =>
      intro hj
      have hstep : value n (rotate n (j + 1) v)
          = value n (rotate n 1 (rotate n j v)) := by
        apply value_congr
        intro i hi
        unfold rotate
        by_cases hle : j + 1 ≤ i
        · rw [if_pos hle, if_pos (by omega), if_pos (by omega)]
          congr 1
          omega
        · rw [if_neg hle]
          by_cases hone : 1 ≤ i
          · rw [if_pos hone, if_neg (by omega),
              show n + (i - 1) - j = n + i - (j + 1) by omega]
          · rw [if_neg hone, if_pos (by omega),
              show n + i - 1 - j = n + i - (j + 1) by omega]
      rw [hstep, value_rotate_one (by omega), ih (by omega), pow_succ]
      ring

/-- An element by its slots. -/
theorem value_eq_sum (c : ℕ → R) :
    value n c = ∑ j ∈ range n, AdjoinRoot.of _ (c j) * AdjoinRoot.root _ ^ j := by
  unfold value chunk
  rw [map_sum]
  apply sum_congr rfl
  intro j _
  rw [map_mul, map_pow, AdjoinRoot.mk_C, AdjoinRoot.mk_X, Nat.zero_add]

/-- **A product** is the value of the convolution. The first factor is taken
slot by slot: each slot rotates the second one by as many places. -/
theorem value_mul (c v : ℕ → R) :
    value n c * value n v = value n (convolve n c v) := by
  rw [value_eq_sum c, sum_mul]
  have hpart : ∀ m ≤ n,
      ∑ j ∈ range m, AdjoinRoot.of _ (c j) * AdjoinRoot.root _ ^ j * value n v
        = value n fun i => ∑ j ∈ range m, c j * rotate n j v i := by
    intro m
    induction m with
    | zero =>
        intro _
        rw [range_zero, sum_empty, value_zero]
        intro i _
        rw [sum_empty]
    | succ m ih =>
        intro hm
        rw [sum_range_succ, ih (Nat.le_of_succ_le hm), mul_assoc,
          ← value_rotate v hm]
        symm
        apply value_linear
        intro i _
        exact sum_range_succ _ m
  exact hpart n le_rfl

end

-- =============================================================== bounds

section

variable {n : ℕ} {c v : ℕ → ℤ}

/-- Convolution commutes with reduction. -/
theorem cast_convolve {R : Type} [CommRing R] (i : ℕ) :
    ((convolve n c v i : ℤ) : R)
      = convolve n (fun j => (c j : R)) (fun j => (v j : R)) i := by
  unfold convolve
  rw [Int.cast_sum]
  apply sum_congr rfl
  intro j _
  rw [Int.cast_mul]
  unfold rotate
  split
  next => rfl
  next => rw [Int.cast_neg]

/-- **The convolution with few and small slots** is small: each of its slots
is a sum of slots of the second factor, with the signs and the weights of
the first. -/
theorem abs_convolve_le {weight bound : ℤ}
    (hweight : ∑ j ∈ range n, |c j| ≤ weight) (hbound : 0 ≤ bound)
    (hv : ∀ i < n, |v i| ≤ bound) {i : ℕ} (hi : i < n) :
    |convolve n c v i| ≤ weight * bound := by
  have hrotate : ∀ j < n, |rotate n j v i| ≤ bound := by
    intro j hj
    unfold rotate
    split
    next => exact hv _ (by omega)
    next =>
      rw [abs_neg]
      exact hv _ (by omega)
  calc |convolve n c v i| ≤ ∑ j ∈ range n, |c j * rotate n j v i| :=
        abs_sum_le_sum_abs _ _
    _ ≤ ∑ j ∈ range n, |c j| * bound := by
        apply sum_le_sum
        intro j hj
        rw [abs_mul]
        exact mul_le_mul_of_nonneg_left (hrotate j (mem_range.mp hj))
          (abs_nonneg _)
    _ = (∑ j ∈ range n, |c j|) * bound := (sum_mul _ _ _).symm
    _ ≤ weight * bound := mul_le_mul_of_nonneg_right hweight hbound

end

end Lib.Negacyclic
