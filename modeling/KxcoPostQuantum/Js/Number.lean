/-
Arithmetic on JavaScript numbers, as far as the package computes with
them.

# Rounding

A number is a rational here, so an operation is the exact one followed by
`JsNumber.round`: round to nearest, ties to even, in binary64. Subnormal
numbers and overflow are those of the format; the sign of a zero is not
kept, as nothing in the package asks for it. `round_error` bounds what
rounding does to a number by its size, `round_le` and `round_between` say
that it does not cross numbers that are kept exactly, and
`round_natCast` that a whole number below `2 ^ 53` is one of those.

# The clock

`Date.now` answers with a whole number of milliseconds of which the
language bounds the size (`maxTimeValue`), and the envelope has whole
seconds. `floor_clock` is that quotient, and `toText_natCast` its digits.
-/
import KxcoPostQuantum.Js.Value
import Mathlib.Data.Int.Log
import Mathlib.Data.Rat.Floor
import Mathlib.Algebra.Order.Field.Power
import Mathlib.Tactic.Linarith
import Mathlib.Tactic.NormNum
import Mathlib.Tactic.Ring

namespace KxcoPostQuantum

/-- The nearest integer, the even one of two. -/
def roundEven (q : ℚ) : ℤ :=
  if q - ⌊q⌋ < 1 / 2 ∨ q - ⌊q⌋ = 1 / 2 ∧ ⌊q⌋ % 2 = 0 then ⌊q⌋ else ⌊q⌋ + 1

/-- The distance between neighbouring binary64 numbers of the magnitude
of `q`. -/
def ulp (q : ℚ) : ℚ := 2 ^ (max (Int.log 2 |q|) (-1022) - 52)

namespace JsNumber

/-- The binary64 number nearest to `q`. -/
def round (q : ℚ) : JsNumber :=
  let r := roundEven (q / ulp q) * ulp q
  if 2 ^ 1024 ≤ r then posInf else if r ≤ -2 ^ 1024 then negInf else finite r

/-- `Number.isFinite(n)`. -/
def isFinite : JsNumber → Bool
  | finite _ => true
  | _ => false

/-- `Math.abs(m - n)`. -/
def absSub : (m n : JsNumber) → JsNumber
  | finite a, finite b => round |a - b|
  | nan, _ | _, nan => nan
  | posInf, posInf | negInf, negInf => nan
  | _, _ => posInf

/-- `m <= n`. -/
def le : (m n : JsNumber) → Bool
  | nan, _ | _, nan => false
  | negInf, _ | _, posInf => true
  | finite a, finite b => a ≤ b
  | _, _ => false

/-- `m < n`. -/
def lt : (m n : JsNumber) → Bool
  | nan, _ | _, nan => false
  | posInf, _ | _, negInf => false
  | negInf, _ | _, posInf => true
  | finite a, finite b => a < b

/-- `m + n`. A whole sum is exact: it stays below 2^53 wherever the package
adds. -/
def add : (m n : JsNumber) → JsNumber
  | finite a, finite b => if (a + b).den = 1 then finite (a + b) else round (a + b)
  | nan, _ | _, nan => nan
  | posInf, negInf | negInf, posInf => nan
  | posInf, _ | _, posInf => posInf
  | negInf, _ | _, negInf => negInf

/-- A length or an offset as the host converts it: towards zero, `NaN` to
zero, and `none` where that is negative or not finite. -/
def index? : JsNumber → Option Nat
  | nan => some 0
  | finite q => if -1 < q then some ⌊q⌋.toNat else none
  | posInf | negInf => none

/-- `Math.floor(n)`. -/
def floor : JsNumber → JsNumber
  | finite q => finite ⌊q⌋
  | n => n

/-- `n.toString()`; a whole number below 10^21 is written in digits. -/
def toText (rt : Runtime) : JsNumber → JsString
  | nan => js "NaN"
  | posInf => js "Infinity"
  | negInf => js "-Infinity"
  | finite q =>
      if q = ⌊q⌋ ∧ 0 ≤ q ∧ q < 10 ^ 21 then decimal ⌊q⌋.toNat
      else rt.numberToString q

/-- `parseInt(s, 10)` of a string of decimal digits. -/
def parseDigits (s : JsString) : JsNumber :=
  round (s.foldl (fun n c => n * 10 + (c.toNat - 48)) 0 : ℕ)

end JsNumber

-- ============================================================ lengths

namespace JsNumber

@[simp] theorem add_natCast (m n : ℕ) :
    (finite m).add (finite n) = finite ((m + n : ℕ) : ℚ) := by
  rw [add, if_pos (by rw [← Nat.cast_add]; exact Rat.den_natCast _), Nat.cast_add]

@[simp] theorem index?_natCast (n : ℕ) : (finite n).index? = some n := by
  have hpos : (-1 : ℚ) < n := lt_of_lt_of_le (by norm_num) n.cast_nonneg
  rw [index?, if_pos hpos, Int.floor_natCast, Int.toNat_natCast]

@[simp] theorem lt_zero_natCast (n : ℕ) :
    (finite 0).lt (finite n) = decide (0 < n) := by
  simp only [lt, Nat.cast_pos]

@[simp] theorem lt_natCast (m n : ℕ) :
    (finite m).lt (finite n) = decide (m < n) := by
  simp only [lt, Nat.cast_lt]

end JsNumber

-- =========================================================== rounding

/-- Rounding to an integer moves by half of one at most. -/
theorem roundEven_error (q : ℚ) : |(roundEven q : ℚ) - q| ≤ 1 / 2 := by
  have hfloor := Int.floor_le q
  have hlt := Int.lt_floor_add_one q
  rw [roundEven, abs_le]
  split
  next h =>
    have hhalf : q - ⌊q⌋ ≤ 1 / 2 := by
      rcases h with h | h
      · exact h.le
      · exact h.1.le
    constructor <;> linarith
  next h =>
    have hhalf : 1 / 2 ≤ q - ⌊q⌋ := by
      rw [not_or, not_lt] at h
      exact h.1
    push_cast
    constructor <;> linarith

theorem ulp_pos (q : ℚ) : 0 < ulp q := zpow_pos (by norm_num) _

/-- Neighbours are close for their magnitude: a normal number has 53 places.
Below the least of these the distance does not shrink, which is what the
summand is for. -/
theorem ulp_le (q : ℚ) : ulp q ≤ (|q| + 1) / 2 ^ 52 := by
  have hpow : (2 : ℚ) ^ max (Int.log 2 |q|) (-1022) ≤ |q| + 1 := by
    rcases le_total (Int.log 2 |q|) (-1022) with h | h
    · rw [max_eq_right h]
      have hone : (2 : ℚ) ^ (-1022 : ℤ) ≤ 1 :=
        zpow_le_one_of_nonpos₀ (by norm_num) (by norm_num)
      linarith [abs_nonneg q]
    · rw [max_eq_left h]
      rcases eq_or_ne q 0 with rfl | hq
      · simp
      · have := Int.zpow_log_le_self (b := 2) one_lt_two (abs_pos.mpr hq)
        push_cast at this
        linarith
  rw [ulp, zpow_sub₀ two_ne_zero]
  exact div_le_div_of_nonneg_right hpow (by norm_num)

/-- **The error of an operation**, relative to its result: at most half a
unit in the last of 53 places. The summand one stands for the numbers near
zero, whose places do not get smaller. -/
theorem JsNumber.round_error {q r : ℚ}
    (h : JsNumber.round q = .finite r) : |r - q| ≤ (|q| + 1) / 2 ^ 53 := by
  have hr : r = roundEven (q / ulp q) * ulp q := by
    simp only [JsNumber.round] at h
    split at h
    next => cases h
    next =>
      split at h
      next => cases h
      next => exact (JsNumber.finite.inj h).symm
  have hpos := ulp_pos q
  have hsplit : r - q = (roundEven (q / ulp q) - q / ulp q) * ulp q := by
    rw [hr, sub_mul, div_mul_cancel₀ _ hpos.ne']
  rw [hsplit, abs_mul, abs_of_pos hpos]
  calc |(roundEven (q / ulp q) : ℚ) - q / ulp q| * ulp q
      ≤ 1 / 2 * ((|q| + 1) / 2 ^ 52) :=
        mul_le_mul (roundEven_error _) (ulp_le q) hpos.le (by norm_num)
    _ = (|q| + 1) / 2 ^ 53 := by ring

/-- Rounding to an integer keeps the sign. -/
theorem roundEven_nonneg {q : ℚ} (h : 0 ≤ q) : 0 ≤ roundEven q := by
  have hfloor : 0 ≤ ⌊q⌋ := Int.floor_nonneg.mpr h
  rw [roundEven]
  split <;> omega

/-- A number that is not negative is not rounded to `-Infinity`. -/
theorem JsNumber.round_ne_negInf {q : ℚ} (h : 0 ≤ q) :
    JsNumber.round q ≠ .negInf := by
  have hr : 0 ≤ (roundEven (q / ulp q) : ℚ) * ulp q :=
    mul_nonneg (Int.cast_nonneg (roundEven_nonneg
      (div_nonneg h (ulp_pos q).le))) (ulp_pos q).le
  rw [JsNumber.round]
  split
  next => exact nofun
  next =>
    rw [if_neg (not_le.mpr (lt_of_lt_of_le (by norm_num) hr))]
    exact nofun

/-- When a difference is at most a bound: the bound is infinite, or the two
are finite and so is the rounded difference. `NaN` is at most nothing. -/
theorem JsNumber.absSub_le {m w : JsNumber} {b : ℚ}
    (h : (m.absSub (.finite b)).le w = true) :
    w = .posInf ∨ ∃ a r w', m = .finite a ∧ w = .finite w'
      ∧ JsNumber.round |a - b| = .finite r ∧ r ≤ w' := by
  cases m with
  | nan => cases h
  | posInf => cases w <;> simp_all [absSub, le]
  | negInf => cases w <;> simp_all [absSub, le]
  | finite a =>
      rw [absSub] at h
      generalize hr : round |a - b| = x at h
      cases x with
      | nan => cases h
      | posInf => cases w <;> simp_all [le]
      | negInf => exact absurd hr (round_ne_negInf (abs_nonneg _))
      | finite r =>
          cases w with
          | nan => cases h
          | negInf => cases h
          | posInf => exact Or.inl rfl
          | finite w' =>
              exact Or.inr ⟨a, r, w', rfl, rfl, hr, of_decide_eq_true h⟩

-- ============================================================= order

theorem roundEven_intCast (n : ℤ) : roundEven n = n := by
  rw [roundEven, Int.floor_intCast, sub_self, if_pos (Or.inl (by norm_num))]

/-- Rounding does not pass an integer from below. -/
theorem roundEven_le {q : ℚ} {n : ℤ} (h : q ≤ n) : roundEven q ≤ n := by
  rcases h.eq_or_lt with rfl | hlt
  · exact (roundEven_intCast n).le
  · have hfloor : ⌊q⌋ < n := Int.floor_lt.mpr hlt
    rw [roundEven]
    split <;> omega

/-- Nor from above. -/
theorem le_roundEven {q : ℚ} {n : ℤ} (h : (n : ℚ) ≤ q) : n ≤ roundEven q := by
  have hfloor : n ≤ ⌊q⌋ := Int.le_floor.mpr h
  rw [roundEven]
  split <;> omega

/-- What rounding to a finite number gives, of a number that is not
negative. -/
theorem JsNumber.round_finite {q : ℚ} (hq : 0 ≤ q) {r : ℚ} :
    JsNumber.round q = .finite r
      ↔ r = roundEven (q / ulp q) * ulp q ∧ r < 2 ^ 1024 := by
  have hr : 0 ≤ (roundEven (q / ulp q) : ℚ) * ulp q :=
    mul_nonneg (Int.cast_nonneg (roundEven_nonneg
      (div_nonneg hq (ulp_pos q).le))) (ulp_pos q).le
  have hnonneg : ¬(roundEven (q / ulp q) : ℚ) * ulp q ≤ -2 ^ 1024 :=
    not_le.mpr (lt_of_lt_of_le (by norm_num) hr)
  simp only [JsNumber.round, if_neg hnonneg]
  split
  next h =>
    refine iff_of_false (fun hx => ?_) fun hx => ?_
    · cases hx
    · rw [← hx.1] at h
      exact absurd hx.2 (not_lt.mpr h)
  next h =>
    constructor
    · intro hx
      cases hx
      exact ⟨rfl, not_le.mp h⟩
    · intro hx
      rw [hx.1]

/-- The neighbours of a greater number are no closer, by a power of
two. -/
theorem ulp_mul {x w : ℚ} (hx : 0 < x) (h : x ≤ w) :
    ∃ k : ℕ, ulp w = 2 ^ k * ulp x := by
  have hlog : max (Int.log 2 |x|) (-1022) ≤ max (Int.log 2 |w|) (-1022) := by
    rw [abs_of_pos hx, abs_of_pos (hx.trans_le h)]
    exact max_le_max_right _ (Int.log_mono_right hx h)
  obtain ⟨k, hk⟩ := Int.eq_ofNat_of_zero_le (sub_nonneg.mpr hlog)
  refine ⟨k, ?_⟩
  rw [ulp, ulp, ← zpow_natCast, ← zpow_add₀ two_ne_zero]
  congr 1
  omega

theorem JsNumber.round_zero : JsNumber.round 0 = .finite 0 := by
  refine (JsNumber.round_finite le_rfl).mpr ⟨?_, by positivity⟩
  have hzero := roundEven_intCast 0
  rw [Int.cast_zero] at hzero
  rw [zero_div, hzero, Int.cast_zero, zero_mul]

/-- **Rounding keeps a bound** that is a number of the language, since no
number lies between a value and what it is rounded to. -/
theorem JsNumber.round_le {x w : ℚ} (hx : 0 ≤ x) (h : x ≤ w)
    (hw : JsNumber.round w = .finite w) :
    ∃ r, JsNumber.round x = .finite r ∧ r ≤ w := by
  rcases hx.eq_or_lt with rfl | hpos
  · exact ⟨0, round_zero, h⟩
  obtain ⟨hmul, hlt⟩ := (round_finite (hx.trans h)).mp hw
  obtain ⟨k, hk⟩ := ulp_mul hpos h
  have hu := ulp_pos x
  -- the bound is a whole number of the smaller distances
  have hle : roundEven (x / ulp x) ≤ roundEven (w / ulp w) * 2 ^ k := by
    apply roundEven_le
    rw [div_le_iff₀ hu]
    push_cast
    calc x ≤ w := h
      _ = roundEven (w / ulp w) * (2 ^ k * ulp x) := by rw [← hk, ← hmul]
      _ = roundEven (w / ulp w) * 2 ^ k * ulp x := (mul_assoc _ _ _).symm
  have hr : (roundEven (x / ulp x) : ℚ) * ulp x ≤ w := by
    calc (roundEven (x / ulp x) : ℚ) * ulp x
        ≤ (roundEven (w / ulp w) * 2 ^ k : ℤ) * ulp x :=
          mul_le_mul_of_nonneg_right (Int.cast_le.mpr hle) hu.le
      _ = roundEven (w / ulp w) * (2 ^ k * ulp x) := by
          push_cast
          exact mul_assoc _ _ _
      _ = w := by rw [← hk, ← hmul]
  exact ⟨_, (round_finite hx).mpr ⟨rfl, hr.trans_lt hlt⟩, hr⟩

/-- Integers below 2^53 are whole numbers of distances. -/
theorem ulp_unit {x : ℚ} (hx : 0 ≤ x) (hlt : x < 2 ^ 53) :
    ∃ k : ℕ, 2 ^ k * ulp x = 1 := by
  have hlog : Int.log 2 |x| < 53 := by
    rw [abs_of_nonneg hx]
    rcases hx.eq_or_lt with rfl | hpos
    · rw [Int.log_of_right_le_zero 2 le_rfl]
      norm_num
    · apply (Int.lt_zpow_iff_log_lt one_lt_two hpos).mp
      exact_mod_cast hlt
  obtain ⟨k, hk⟩ := Int.eq_ofNat_of_zero_le
    (show 0 ≤ 52 - max (Int.log 2 |x|) (-1022) by omega)
  refine ⟨k, ?_⟩
  rw [ulp, ← zpow_natCast, ← zpow_add₀ two_ne_zero]
  rw [show (k : ℤ) + (max (Int.log 2 |x|) (-1022) - 52) = 0 by omega, zpow_zero]

/-- **Rounding does not pass an integer** below 2^53, for each of these is a
number itself. -/
theorem JsNumber.round_between {x : ℚ} (hx : 0 ≤ x) (hlt : x < 2 ^ 53) :
    ∃ r, JsNumber.round x = .finite r ∧ (∀ n : ℤ, n ≤ x → n ≤ r)
      ∧ ∀ n : ℤ, x ≤ n → r ≤ n := by
  obtain ⟨k, hk⟩ := ulp_unit hx hlt
  have hu := ulp_pos x
  have hscale : ∀ n : ℤ, (n : ℚ) = (n * 2 ^ k : ℤ) * ulp x := by
    intro n
    push_cast
    rw [mul_assoc, hk, mul_one]
  have hbelow : ∀ n : ℤ, n ≤ x → (n : ℚ) ≤ roundEven (x / ulp x) * ulp x := by
    intro n hn
    rw [hscale n]
    refine mul_le_mul_of_nonneg_right (Int.cast_le.mpr (le_roundEven ?_)) hu.le
    rw [le_div_iff₀ hu, ← hscale n]
    exact hn
  have habove : ∀ n : ℤ, x ≤ n → roundEven (x / ulp x) * ulp x ≤ (n : ℚ) := by
    intro n hn
    rw [hscale n]
    refine mul_le_mul_of_nonneg_right (Int.cast_le.mpr (roundEven_le ?_)) hu.le
    rw [div_le_iff₀ hu, ← hscale n]
    exact hn
  refine ⟨_, (round_finite hx).mpr ⟨rfl, ?_⟩, hbelow, habove⟩
  have hbound := habove (2 ^ 53) (by exact_mod_cast hlt.le)
  rw [Int.cast_pow, Int.cast_ofNat] at hbound
  exact hbound.trans_lt (pow_lt_pow_right₀ one_lt_two (by norm_num))

/-- A number the language has. -/
def JsNumber.Representable : JsNumber → Prop
  | .finite q => JsNumber.round q = .finite q
  | _ => True

theorem JsNumber.round_ne_nan (q : ℚ) : JsNumber.round q ≠ .nan := by
  rw [JsNumber.round]
  split
  next => nofun
  next =>
    split
    next => nofun
    next => nofun

/-- Integers below 2^53 are numbers of the language. -/
theorem JsNumber.round_natCast {n : ℕ} (h : n < 2 ^ 53) :
    JsNumber.round n = .finite n := by
  obtain ⟨r, hr, hbelow, habove⟩ := @round_between n n.cast_nonneg
    (by exact_mod_cast h)
  have hn : r = n := le_antisymm (habove n (by simp)) (hbelow n (by simp))
  rw [hr, hn]

-- ========================================================= the clock

/-- The most milliseconds a time value has, so the most `Date.now()`
answers. -/
def maxTimeValue : ℕ := 8640000000000000

/-- **A clock's whole seconds** are not rounded away. The quotient by a
thousand is rounded, but not past the next integer, so its floor is that of
the exact one. -/
theorem floor_clock {now : ℕ} (h : now ≤ maxTimeValue) :
    (JsNumber.round (now / 1000)).floor = .finite ((now / 1000 : ℕ) : ℚ) := by
  have hnow : (now : ℚ) ≤ 8640000000000000 := by exact_mod_cast h
  have hclock : (0 : ℚ) ≤ now / 1000 := by positivity
  have hsplit : (now : ℚ) = 1000 * (now / 1000 : ℕ) + (now % 1000 : ℕ) := by
    exact_mod_cast (Nat.div_add_mod now 1000).symm
  have hmod : ((now % 1000 : ℕ) : ℚ) ≤ 999 := by
    exact_mod_cast Nat.le_of_lt_succ (Nat.mod_lt now (by norm_num))
  obtain ⟨r, hr, hbelow, -⟩ := JsNumber.round_between hclock (by linarith)
  have hle : ((now / 1000 : ℕ) : ℚ) ≤ r := by
    have hrest : (0 : ℚ) ≤ (now % 1000 : ℕ) := Nat.cast_nonneg _
    have hcast := hbelow (now / 1000 : ℕ) (by
      rw [Int.cast_natCast]
      linarith)
    exact_mod_cast hcast
  -- a millisecond is more than the clock is rounded by
  have hlt : r < (now / 1000 : ℕ) + 1 := by
    have herror := (abs_le.mp (JsNumber.round_error hr)).2
    rw [abs_of_nonneg hclock] at herror
    linarith
  have hfloor : ⌊r⌋ = (now / 1000 : ℕ) := by
    rw [Int.floor_eq_iff]
    exact ⟨by exact_mod_cast hle, by exact_mod_cast hlt⟩
  rw [hr, JsNumber.floor, hfloor, Int.cast_natCast]

/-- Seconds since the epoch, in digits. -/
theorem toText_natCast (rt : Runtime) {n : ℕ} (h : n < 10 ^ 21) :
    (JsNumber.finite n).toText rt = decimal n := by
  have hlt : (n : ℚ) < 10 ^ 21 := by exact_mod_cast h
  rw [JsNumber.toText, Int.floor_natCast, Int.toNat_natCast,
    if_pos ⟨(Int.cast_natCast n).symm, n.cast_nonneg, hlt⟩]

end KxcoPostQuantum
