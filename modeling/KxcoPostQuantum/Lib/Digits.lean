/-
Numbers by their digits, and words of one width cut into words of another.

`little b w n` is the number whose digits in base `b` are the first `n`
of `w`, the lowest first; digits are the number's own (`little_injective`),
and those of a higher base have digits themselves (`little_blocks`).
A packer takes words of `i` bits into an accumulator and gives out words
of `o` bits while there are as many. `Packed` is its invariant: what has
been given out and what is held make up the number that has come in. Taking
a word keeps it (`Packed.take`), giving one out keeps it (`Packed.give`),
and when nothing is held the two numbers are the same (`Packed.finish`).
-/
import Mathlib.Algebra.BigOperators.Ring.Finset
import Mathlib.Algebra.Order.BigOperators.Group.Finset
import Mathlib.Tactic.Ring

namespace Lib

open Finset

/-- The number with the digits `w 0, ..., w (n - 1)` in base `b`. -/
def little (b : ℕ) (w : ℕ → ℕ) (n : ℕ) : ℕ := ∑ j ∈ range n, w j * b ^ j

section

variable {b n : ℕ} {w w' : ℕ → ℕ}

@[simp] theorem little_zero : little b w 0 = 0 := rfl

theorem little_succ : little b w (n + 1) = little b w n + w n * b ^ n :=
  sum_range_succ _ n

theorem little_congr (h : ∀ j < n, w j = w' j) : little b w n = little b w' n := by
  apply sum_congr rfl
  intro j hj
  rw [h j (mem_range.mp hj)]

/-- The lowest digit first. -/
theorem little_succ' :
    little b w (n + 1) = w 0 + b * little b (fun j => w (j + 1)) n := by
  unfold little
  rw [sum_range_succ', pow_zero, mul_one, add_comm, mul_sum]
  congr 1
  apply sum_congr rfl
  intro j _
  ring

/-- **Digits are the number's own**: two sequences below the base that come
to one number are the same. By induction over how many there are, the lowest
one first. -/
theorem little_injective (hw : ∀ j < n, w j < b) (hw' : ∀ j < n, w' j < b)
    (h : little b w n = little b w' n) : ∀ j < n, w j = w' j := by
  induction n generalizing w w' with
  | zero =>
      intro j hj
      exact absurd hj (Nat.not_lt_zero j)
  | succ n ih =>
      rw [little_succ', little_succ'] at h
      have hzero : w 0 = w' 0 := by
        have hmod := congrArg (· % b) h
        simp only [Nat.add_mul_mod_self_left] at hmod
        rwa [Nat.mod_eq_of_lt (hw 0 n.succ_pos),
          Nat.mod_eq_of_lt (hw' 0 n.succ_pos)] at hmod
      have hpos : 0 < b := (Nat.zero_le _).trans_lt (hw 0 n.succ_pos)
      rw [hzero] at h
      have htail := Nat.eq_of_mul_eq_mul_left hpos (Nat.add_left_cancel h)
      have ih := @ih (fun j => w (j + 1)) (fun j => w' (j + 1))
        (fun j hj => hw _ (Nat.succ_lt_succ hj))
        (fun j hj => hw' _ (Nat.succ_lt_succ hj)) htail
      intro j hj
      cases j with
      | zero => exact hzero
      | succ j => exact ih j (Nat.lt_of_succ_lt_succ hj)

theorem little_lt (hw : ∀ j < n, w j < b) : little b w n < b ^ n := by
  induction n with
  | zero => exact Nat.one_pos
  | succ n ih =>
      have ih := ih fun j hj => hw j (Nat.lt_succ_of_lt hj)
      rw [little_succ, pow_succ]
      calc little b w n + w n * b ^ n < b ^ n + w n * b ^ n :=
            Nat.add_lt_add_right ih _
        _ = (w n + 1) * b ^ n := by ring
        _ ≤ b * b ^ n := Nat.mul_le_mul_right _ (hw n n.lt_succ_self)
        _ = b ^ n * b := Nat.mul_comm _ _

/-- The digits below a place, and a multiple of it. -/
theorem little_split {k : ℕ} (h : k ≤ n) :
    ∃ m, little b w n = little b w k + b ^ k * m := by
  induction n with
  | zero =>
      obtain rfl := Nat.le_zero.mp h
      exact ⟨0, rfl⟩
  | succ n ih =>
      rcases h.eq_or_lt with rfl | hlt
      · exact ⟨0, rfl⟩
      · have hk : k ≤ n := Nat.le_of_lt_succ hlt
        obtain ⟨m, hm⟩ := ih hk
        refine ⟨m + w n * b ^ (n - k), ?_⟩
        rw [little_succ, hm, ← Nat.add_sub_cancel' hk, Nat.add_sub_cancel_left,
          pow_add]
        ring

/-- Every number has digits, as many as are wanted, if the power of the base
is above it. By induction, with the quotient for the places that are to
come. -/
theorem exists_little (hb : 0 < b) {v : ℕ} (hv : v < b ^ n) :
    ∃ r : ℕ → ℕ, (∀ j < n, r j < b) ∧ little b r n = v := by
  induction n generalizing v with
  | zero =>
      rw [pow_zero, Nat.lt_one_iff] at hv
      exact ⟨fun _ => 0, fun j hj => absurd hj (Nat.not_lt_zero j), hv.symm⟩
  | succ n ih =>
      rw [pow_succ] at hv
      obtain ⟨r, hr, hrest⟩ := ih ((Nat.div_lt_iff_lt_mul hb).mpr hv)
      refine ⟨fun j => if j = 0 then v % b else r (j - 1), ?_, ?_⟩
      · intro j hj
        dsimp only
        split
        next => exact Nat.mod_lt _ hb
        next => exact hr _ (by omega)
      · rw [little_succ', if_pos rfl]
        have htail : little b (fun j => if j + 1 = 0 then v % b
            else r (j + 1 - 1)) n = v / b := by
          rw [← hrest]
          apply little_congr
          intro j _
          rw [if_neg (by omega), Nat.add_sub_cancel]
        rw [htail]
        exact Nat.mod_add_div v b

/-- The digits of a number. -/
theorem little_digits (v k : ℕ) : little b (fun j => v / b ^ j % b) k = v % b ^ k := by
  induction k with
  | zero => rw [little_zero, pow_zero, Nat.mod_one]
  | succ k ih => rw [little_succ, ih, Nat.mod_pow_succ, Nat.mul_comm]

/-- The digits of digits in a higher base: where the base is a power of
another, the digits of each digit stand one block behind the other. -/
theorem little_blocks {k : ℕ} (hk : 0 < k) (hw : ∀ j < n, w j < b ^ k) :
    little b (fun j => w (j / k) / b ^ (j % k) % b) (n * k)
      = little (b ^ k) w n := by
  induction n with
  | zero => rw [Nat.zero_mul, little_zero, little_zero]
  | succ n ih =>
      have hblock : ∑ j ∈ range k, (fun j => w (j / k) / b ^ (j % k) % b) (n * k + j)
          * b ^ (n * k + j) = w n * (b ^ k) ^ n := by
        calc _ = ∑ j ∈ range k, w n / b ^ j % b * b ^ j * b ^ (n * k) := by
              apply sum_congr rfl
              intro j hj
              have hlt := mem_range.mp hj
              dsimp only
              rw [Nat.mul_comm n k, Nat.mul_add_div hk, Nat.div_eq_of_lt hlt,
                Nat.mul_add_mod, Nat.mod_eq_of_lt hlt, Nat.add_zero, pow_add]
              ring
          _ = little b (fun j => w n / b ^ j % b) k * b ^ (n * k) :=
              (sum_mul _ _ _).symm
          _ = w n * (b ^ k) ^ n := by
              rw [little_digits, Nat.mod_eq_of_lt (hw n n.lt_succ_self),
                ← pow_mul, Nat.mul_comm k n]
      rw [little_succ, ← ih fun j hj => hw j (Nat.lt_succ_of_lt hj), ← hblock,
        Nat.succ_mul]
      exact sum_range_add _ _ _

end

-- ============================================================== packing

/-- A packer has taken `k` words of `i` bits, given out `pos` words of `o`
bits, and holds the `len` bits of `buf`. -/
structure Packed (i o : ℕ) (w r : ℕ → ℕ) (k pos buf len : ℕ) : Prop where
  total : little (2 ^ o) r pos + buf * 2 ^ (o * pos) = little (2 ^ i) w k
  bits : o * pos + len = i * k
  small : buf < 2 ^ len
  digits : ∀ p < pos, r p < 2 ^ o

section

variable {i o k pos buf len : ℕ} {w r r' : ℕ → ℕ}

theorem Packed.start : Packed i o w r 0 0 0 0 := by
  refine ⟨?_, rfl, ?_, ?_⟩
  · rw [little_zero, little_zero, Nat.zero_mul]
  · exact Nat.one_pos
  · intro p hp
    exact absurd hp (Nat.not_lt_zero p)

/-- Take a word. -/
theorem Packed.take (h : Packed i o w r k pos buf len) (hk : w k < 2 ^ i) :
    Packed i o w r (k + 1) pos (buf + w k * 2 ^ len) (len + i) := by
  obtain ⟨htotal, hbits, hsmall, hdigits⟩ := h
  refine ⟨?_, ?_, ?_, hdigits⟩
  · rw [little_succ, ← htotal, ← pow_mul, ← hbits, pow_add]
    ring
  · rw [Nat.mul_succ, ← hbits]
    ring
  · calc buf + w k * 2 ^ len < 2 ^ len + w k * 2 ^ len :=
          Nat.add_lt_add_right hsmall _
      _ = (w k + 1) * 2 ^ len := by ring
      _ ≤ 2 ^ i * 2 ^ len := Nat.mul_le_mul_right _ hk
      _ = 2 ^ (len + i) := by rw [pow_add, mul_comm]

/-- Give out a word: the low bits of the buffer become the next word, and
the buffer loses them. What has been taken in, read as one number, is as
before. -/
theorem Packed.give (h : Packed i o w r k pos buf len) (hlen : o ≤ len)
    (hkept : ∀ p < pos, r' p = r p) (hnew : r' pos = buf % 2 ^ o) :
    Packed i o w r' k (pos + 1) (buf / 2 ^ o) (len - o) := by
  obtain ⟨htotal, hbits, hsmall, hdigits⟩ := h
  refine ⟨?_, ?_, ?_, ?_⟩
  · rw [little_succ, little_congr hkept, hnew, ← htotal, Nat.mul_succ, pow_add,
      ← pow_mul]
    calc little (2 ^ o) r pos + buf % 2 ^ o * 2 ^ (o * pos)
          + buf / 2 ^ o * (2 ^ (o * pos) * 2 ^ o)
        = little (2 ^ o) r pos
          + (2 ^ o * (buf / 2 ^ o) + buf % 2 ^ o) * 2 ^ (o * pos) := by ring
      _ = little (2 ^ o) r pos + buf * 2 ^ (o * pos) := by rw [Nat.div_add_mod]
  · rw [Nat.mul_succ]
    omega
  · apply Nat.div_lt_of_lt_mul
    rwa [← pow_add, Nat.add_sub_cancel' hlen]
  · intro p hp
    rcases Nat.lt_succ_iff_lt_or_eq.mp hp with hlt | rfl
    · rw [hkept p hlt]
      exact hdigits p hlt
    · rw [hnew]
      exact Nat.mod_lt _ (Nat.two_pow_pos o)

/-- What has been given out is the beginning of all that will be, since the
digits of the whole number are its own and these are the lowest of them. -/
theorem Packed.prefix_eq {m n : ℕ} (h : Packed i o w r k pos buf len)
    (hk : k ≤ n) (hpos : pos ≤ m) (hr' : ∀ p < m, r' p < 2 ^ o)
    (htotal : little (2 ^ o) r' m = little (2 ^ i) w n) :
    ∀ p < pos, r p = r' p := by
  obtain ⟨hmade, hbits, -, hdigits⟩ := h
  obtain ⟨x, hx⟩ := little_split (b := 2 ^ i) (w := w) hk
  obtain ⟨y, hy⟩ := little_split (b := 2 ^ o) (w := r') hpos
  apply little_injective hdigits (fun p hp => hr' p (by omega))
  have hlow := little_lt hdigits
  have hlow' := little_lt (w := r') (fun p hp => hr' p (Nat.lt_of_lt_of_le hp hpos))
  have hplace : (2 ^ i) ^ k = (2 ^ o) ^ pos * 2 ^ len := by
    rw [← pow_mul, ← pow_mul, ← pow_add, hbits]
  rw [hx, hy, ← hmade, hplace, pow_mul] at htotal
  have hmod := congrArg (· % (2 ^ o) ^ pos) htotal
  have hleft : little (2 ^ o) r pos + buf * (2 ^ o) ^ pos
      + (2 ^ o) ^ pos * 2 ^ len * x
        = little (2 ^ o) r pos + (2 ^ o) ^ pos * (buf + 2 ^ len * x) := by ring
  rw [hleft] at hmod
  simp only [Nat.add_mul_mod_self_left] at hmod
  rw [Nat.mod_eq_of_lt hlow, Nat.mod_eq_of_lt hlow'] at hmod
  exact hmod.symm

/-- **When nothing is held**, all has been given out. -/
theorem Packed.finish (h : Packed i o w r k pos buf 0) :
    o * pos = i * k ∧ little (2 ^ o) r pos = little (2 ^ i) w k := by
  obtain ⟨htotal, hbits, hsmall, -⟩ := h
  obtain rfl : buf = 0 := by
    rw [pow_zero] at hsmall
    omega
  rw [Nat.zero_mul, Nat.add_zero] at htotal
  exact ⟨hbits, htotal⟩

end

end Lib
