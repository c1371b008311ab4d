/-
Numbers and the texts of numbers, as far as they are whole: `parseInt`,
`toString` with a radix and `padStart`.

`parseInt` is lenient. White space and a sign may stand in front, for
radix 16 also `0x`, and what follows the last digit is not looked at. Of
two digits and nothing else it is their value (`parseInt_pair`).
-/
import KxcoPostQuantum.Lib.Ecma

namespace Lib.Ecma

-- =============================================================== digits

/-- The value of a letter or a digit. -/
def digitValue (c : UInt16) : Option Nat :=
  let n := c.toNat
  if 48 ≤ n ∧ n ≤ 57 then some (n - 48)
  else if 97 ≤ n ∧ n ≤ 122 then some (n - 97 + 10)
  else if 65 ≤ n ∧ n ≤ 90 then some (n - 65 + 10)
  else none

/-- The value of a digit of a radix. -/
def radixDigit (radix : Nat) (c : UInt16) : Option Nat :=
  (digitValue c).filter (· < radix)

/-- What digits stand for. -/
def digitsValue (radix : Nat) (s : Text) : Nat :=
  (s.filterMap (radixDigit radix)).foldl (fun n d => n * radix + d) 0

-- ============================================================= parseInt

/-- A sign, if there is one, and what is behind it. -/
def splitSign : Text → Int × Text
  | 45 :: s => (-1, s)
  | 43 :: s => (1, s)
  | s => (1, s)

/-- Without the `0x` in front. -/
def dropPrefix : Text → Text
  | 48 :: 120 :: s => s
  | 48 :: 88 :: s => s
  | s => s

/-- `parseInt(s, radix)`, for a radix from 2 to 36; none is `NaN`. -/
def parseInt (radix : Nat) (s : Text) : Option Int :=
  let (sign, s) := splitSign (s.dropWhile isSpace)
  let s := if radix = 16 then dropPrefix s else s
  let digits := s.takeWhile fun c => (radixDigit radix c).isSome
  if digits = [] then none else some (sign * digitsValue radix digits)

/-- A digit is no white space and no sign. -/
theorem digit_plain {radix : Nat} {c : UInt16} {d : Nat}
    (h : radixDigit radix c = some d) :
    isSpace c = false ∧ c ≠ 45 ∧ c ≠ 43 := by
  have hvalue : (digitValue c).isSome = true := by
    obtain ⟨hd, -⟩ := Option.filter_eq_some_iff.mp h
    rw [hd]
    rfl
  have hrange : 48 ≤ c.toNat ∧ c.toNat ≤ 122 := by
    by_contra hc
    have hnone : digitValue c = none := by
      unfold digitValue
      simp only
      rw [if_neg (by omega), if_neg (by omega), if_neg (by omega)]
    rw [hnone] at hvalue
    cases hvalue
  refine ⟨?_, ?_, ?_⟩
  · unfold isSpace
    simp only [Bool.or_eq_false_iff, Bool.and_eq_false_iff,
      decide_eq_false_iff_not]
    omega
  · rintro rfl
    exact absurd hrange.1 (by decide)
  · rintro rfl
    exact absurd hrange.1 (by decide)

/-- In front of a digit there is no `0x` to drop, for `x` is none, not even
of radix 16. -/
theorem dropPrefix_pair {c d : UInt16} {l : Nat}
    (hd : radixDigit 16 d = some l) : dropPrefix [c, d] = [c, d] := by
  have hx : d ≠ 120 ∧ d ≠ 88 := by
    constructor
    · rintro rfl
      cases hd
    · rintro rfl
      cases hd
  unfold dropPrefix
  split
  next h =>
    injection h with _ h
    injection h with h
    exact absurd h hx.1
  next h =>
    injection h with _ h
    injection h with h
    exact absurd h hx.2
  next => rfl

/-- **Two digits** are read as their value, whatever `parseInt` would take
in other places. -/
theorem parseInt_pair {c d : UInt16} {h l : Nat}
    (hc : radixDigit 16 c = some h) (hd : radixDigit 16 d = some l) :
    parseInt 16 [c, d] = some ((h * 16 + l : Nat) : Int) := by
  obtain ⟨hspace, hminus, hplus⟩ := digit_plain hc
  have hsign : splitSign [c, d] = (1, [c, d]) := by
    unfold splitSign
    split
    next h' => exact absurd (List.cons.inj h').1 hminus
    next h' => exact absurd (List.cons.inj h').1 hplus
    next => rfl
  have hdigits : [c, d].takeWhile (fun c => (radixDigit 16 c).isSome)
      = [c, d] := by
    rw [List.takeWhile_cons_of_pos (by rw [hc]; rfl),
      List.takeWhile_cons_of_pos (by rw [hd]; rfl), List.takeWhile_nil]
  have hvalue : digitsValue 16 [c, d] = h * 16 + l := by
    unfold digitsValue
    rw [List.filterMap_cons_some hc, List.filterMap_cons_some hd]
    show (0 * 16 + h) * 16 + l = _
    rw [Nat.zero_mul, Nat.zero_add]
  unfold parseInt
  rw [List.dropWhile_cons_of_neg (by rw [hspace]; exact Bool.false_ne_true),
    hsign]
  simp only [if_true, dropPrefix_pair hd, hdigits, hvalue, Int.one_mul]
  rfl

example : parseInt 16 [48, 120, 49] = some 1 := by decide

example : parseInt 16 [32, 97] = some 10 := by decide

example : parseInt 16 [45, 49] = some (-1) := by decide

-- ============================================================= toString

/-- `n.toString(radix)` of a whole number. -/
def toRadix (radix n : Nat) : Text :=
  (Nat.toDigits radix n).map fun c => c.toNat.toUInt16

/-- `s.padStart(length, fill)`, of a fill of one unit. -/
def padStart (s : Text) (length : Nat) (fill : UInt16) : Text :=
  List.replicate (length - s.length) fill ++ s

end Lib.Ecma
