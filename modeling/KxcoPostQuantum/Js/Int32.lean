/-
Arithmetic on integers the way the language does it: products are rounded
to binary64, the bitwise operators take their operands modulo 2^32, and
the slots of a typed array convert what is written to them.

Numbers that are integers are integers here. Nothing is lost of those the
lattice code works on: a product below 2^53 is exact (`nearest_of_lt`), and
a slot keeps a number of its range (`get_set`).

# Words

`toInt32` and `toUint32` are the two readings of the low 32 bits. Shifts
take their count modulo 32. On numbers that fit, the operators are the
usual ones: a mask is a remainder, a shift a product or a quotient, and an
`or` of two numbers without a common bit is their sum.

# Typed arrays

`ArrayElement` says what a slot of a type makes of an integer. `get` and
`set` are the reading and the writing of a slot, and `Keeps` is the range
of those it keeps as they are.
-/
import KxcoPostQuantum.Js.Number
import KxcoPostQuantum.Lib.Loop

namespace KxcoPostQuantum

-- ============================================================= numbers

/-- `ToInt32`. -/
def toInt32 (x : Int) : Int := x.bmod (2 ^ 32)

/-- A number in range is stored as it is. -/
theorem toInt32_of_range {x : Int} (hlow : -2 ^ 31 ≤ x) (hhigh : x < 2 ^ 31) :
    toInt32 x = x := by
  unfold toInt32
  rw [Int.bmod_eq_of_le] <;> omega

/-- The number nearest to an integer. -/
def nearest (z : Int) : Int :=
  match JsNumber.round z with
  | .finite q => ⌊q⌋
  | _ => 0

/-- Integers below 2^53 are numbers: there is a place for each of their
bits, so nothing is there to round. -/
theorem nearest_of_lt {z : Int} (h : |z| < 2 ^ 53) : nearest z = z := by
  have habs : |(z : ℚ)| < 2 ^ 53 := by
    rw [← Int.cast_abs]
    exact_mod_cast h
  have hround : JsNumber.round z = .finite z := by
    obtain ⟨k, hk⟩ := ulp_unit (abs_nonneg (z : ℚ)) habs
    have hulp : ulp |(z : ℚ)| = ulp z := by
      unfold ulp
      rw [abs_abs]
    rw [hulp] at hk
    have hpos := ulp_pos z
    have hmultiple : (z : ℚ) / ulp z = ((z * 2 ^ k : ℤ) : ℚ) := by
      rw [div_eq_iff hpos.ne']
      push_cast
      rw [mul_assoc, hk, mul_one]
    have hback : (roundEven ((z : ℚ) / ulp z) : ℚ) * ulp z = z := by
      rw [hmultiple, roundEven_intCast]
      push_cast
      rw [mul_assoc, hk, mul_one]
    have hlarge : (2 : ℚ) ^ 53 < 2 ^ 1024 :=
      pow_lt_pow_right₀ one_lt_two (by norm_num)
    rw [abs_lt] at habs
    unfold JsNumber.round
    simp only [hback]
    rw [if_neg (not_le.mpr (habs.2.trans hlarge)),
      if_neg (not_le.mpr ((neg_lt_neg hlarge).trans habs.1))]
  unfold nearest
  rw [hround]
  exact Int.floor_intCast z

/-- `a * b`. -/
def times (a b : Int) : Int := nearest (a * b)

/-- A product below 2^53 is exact. -/
theorem times_of_lt {a b : Int} (h : |a * b| < 2 ^ 53) : times a b = a * b :=
  nearest_of_lt h

/-- A product is exact where its factors are small enough together. -/
theorem times_of_le {a b m n : Int} (ha : |a| ≤ m) (hb : |b| ≤ n)
    (h : m * n < 2 ^ 53) : times a b = a * b := by
  apply times_of_lt
  rw [abs_mul]
  calc |a| * |b| ≤ m * n :=
        mul_le_mul ha hb (abs_nonneg b) ((abs_nonneg a).trans ha)
    _ < 2 ^ 53 := h

/-- `Math.floor(a / b)`. -/
def floorQuotient (a b : Int) : Int :=
  match JsNumber.round (a / b : ℚ) with
  | .finite q => ⌊q⌋
  | _ => 0

/-- A quotient without a remainder is exact. -/
theorem floorQuotient_mul {k b : Int} (hb : b ≠ 0) (hk : |k| < 2 ^ 53) :
    floorQuotient (k * b) b = k := by
  have hquotient : ((k * b : Int) : ℚ) / (b : ℚ) = k := by
    rw [Int.cast_mul, mul_div_cancel_right₀ _ (Int.cast_ne_zero.mpr hb)]
  unfold floorQuotient
  rw [hquotient]
  exact nearest_of_lt hk

/-- An integer in a template literal. -/
def intText (z : Int) : JsString :=
  if z < 0 then js "-" ++ decimal z.natAbs else decimal z.natAbs

-- ============================================================= bitwise

/-- `ToUint32`. -/
def toUint32 (x : Int) : Nat := (x % 2 ^ 32).toNat

/-- `a & b`. -/
def bitAnd (a b : Int) : Int := toInt32 (toUint32 a &&& toUint32 b : Nat)

/-- `a | b`. -/
def bitOr (a b : Int) : Int := toInt32 (toUint32 a ||| toUint32 b : Nat)

/-- `a << k`. -/
def shl (a : Int) (k : Nat) : Int := toInt32 (toUint32 a <<< (k % 32) : Nat)

/-- `a >> k`. -/
def shr (a : Int) (k : Nat) : Int := toInt32 a >>> (k % 32)

/-- `a >>> k`. -/
def ushr (a : Int) (k : Nat) : Int := (toUint32 a >>> (k % 32) : Nat)

/-- The low bits of a number, as the remainder by a power of two. For a
negative number too, since the operand is taken as a word of thirty-two bits
first. -/
theorem bitAnd_mask (x : Int) {d : Nat} (hd : d < 32) :
    bitAnd x (2 ^ d - 1) = x % 2 ^ d := by
  have hpow : (2 : Int) ^ d ≤ 2 ^ 31 :=
    pow_le_pow_right₀ (by norm_num) (by omega)
  have hpos : (0 : Int) < 2 ^ d := by positivity
  have hmask : toUint32 (2 ^ d - 1) = 2 ^ d - 1 := by
    unfold toUint32
    rw [Int.emod_eq_of_lt (by omega) (by omega)]
    zify [Nat.one_le_two_pow (n := d)]
    omega
  have hmod : x % 2 ^ 32 % 2 ^ d = x % 2 ^ d :=
    Int.emod_emod_of_dvd x (pow_dvd_pow 2 (by omega))
  have hlow := Int.emod_nonneg x hpos.ne'
  have hhigh := Int.emod_lt_of_pos x hpos
  unfold bitAnd
  rw [hmask, Nat.and_two_pow_sub_one_eq_mod]
  have hcast : ((toUint32 x % 2 ^ d : Nat) : Int) = x % 2 ^ d := by
    unfold toUint32
    rw [Int.natCast_emod, Int.toNat_of_nonneg (Int.emod_nonneg x (by norm_num)),
      Nat.cast_pow, Nat.cast_ofNat, hmod]
  rw [hcast, toInt32_of_range (by omega) (by omega)]

/-- A number of 32 bits is its own word. -/
theorem toUint32_natCast {n : Nat} (h : n < 2 ^ 32) : toUint32 n = n := by
  unfold toUint32
  rw [Int.emod_eq_of_lt (by omega) (by exact_mod_cast h), Int.toNat_natCast]

/-- A number of 31 bits is its own word with a sign, too. -/
theorem toInt32_natCast {n : Nat} (h : n < 2 ^ 31) : toInt32 n = n :=
  toInt32_of_range (by omega) (by exact_mod_cast h)

/-- Bits above those there are. -/
theorem bitOr_shl {a b k : Nat} (ha : a < 2 ^ k) (h : a + b * 2 ^ k < 2 ^ 31)
    (hk : k < 32) : bitOr a (shl b k) = (a + b * 2 ^ k : Nat) := by
  have hb : b < 2 ^ 31 := by
    have := Nat.le_mul_of_pos_right b (Nat.two_pow_pos k)
    omega
  have hor : a ||| b * 2 ^ k = a + b * 2 ^ k := by
    rw [Nat.or_comm, Nat.mul_comm, ← Nat.two_pow_add_eq_or_of_lt ha,
      Nat.add_comm]
  have hshift : shl b k = (b * 2 ^ k : Nat) := by
    unfold shl
    rw [toUint32_natCast (by omega : b < 2 ^ 32), Nat.mod_eq_of_lt hk,
      Nat.shiftLeft_eq, toInt32_natCast (by omega)]
  unfold bitOr
  rw [hshift, toUint32_natCast (by omega : a < 2 ^ 32),
    toUint32_natCast (by omega : b * 2 ^ k < 2 ^ 32), hor, toInt32_natCast h]

/-- A shift to the right divides. -/
theorem shr_natCast {a k : Nat} (ha : a < 2 ^ 31) (hk : k < 32) :
    shr a k = (a / 2 ^ k : Nat) := by
  unfold shr
  rw [toInt32_natCast ha, Nat.mod_eq_of_lt hk, Int.shiftRight_eq_div_pow]
  push_cast
  rfl

/-- A shift to the left multiplies where no bit is lost. -/
theorem shl_natCast {a k : Nat} (h : a * 2 ^ k < 2 ^ 31) (hk : k < 32) :
    shl a k = (a * 2 ^ k : Nat) := by
  have ha := Nat.le_mul_of_pos_right a (Nat.two_pow_pos k)
  unfold shl
  rw [toUint32_natCast (by omega), Nat.mod_eq_of_lt hk, Nat.shiftLeft_eq,
    toInt32_natCast h]

/-- The unsigned shift divides any word. -/
theorem ushr_natCast {a k : Nat} (ha : a < 2 ^ 32) (hk : k < 32) :
    ushr a k = (a / 2 ^ k : Nat) := by
  unfold ushr
  rw [toUint32_natCast ha, Nat.mod_eq_of_lt hk, Nat.shiftRight_eq_div_pow]

/-- The integer a number is truncated to. -/
def JsNumber.truncate : JsNumber → Int
  | .finite q => q.num.tdiv q.den
  | _ => 0

/-- An integer has no fraction to lose. -/
@[simp] theorem JsNumber.truncate_intCast (z : Int) :
    (JsNumber.finite z).truncate = z := by
  show (z : ℚ).num.tdiv (z : ℚ).den = z
  rw [Rat.num_intCast, Rat.den_intCast, Nat.cast_one, Int.tdiv_one]

/-- A quotient that is not too large truncates to the whole quotient: the
next integer is farther away than rounding reaches. -/
theorem truncate_round {a b : Nat} (hb : 0 < b) (hb' : b ≤ 2 ^ 20)
    (ha : a ≤ b * 2 ^ 20) : (JsNumber.round (a / b : ℚ)).truncate = (a / b : Nat) := by
  have hbpos : (0 : ℚ) < b := by exact_mod_cast hb
  have hnonneg : (0 : ℚ) ≤ a / b := by positivity
  have hlarge : (a : ℚ) / b ≤ 2 ^ 20 := by
    rw [div_le_iff₀ hbpos, mul_comm]
    exact_mod_cast ha
  obtain ⟨r, hr, hbelow, -⟩ := JsNumber.round_between hnonneg
    (hlarge.trans_lt (by norm_num))
  have herror := JsNumber.round_error hr
  -- between the quotient and the next integer there is one part in `b`
  have hnext : (a : ℚ) / b + 1 / b ≤ (a / b : Nat) + 1 := by
    rw [← add_div, div_le_iff₀ hbpos]
    have hsplit := Nat.div_add_mod a b
    have hmod := Nat.mod_lt a hb
    have hle : a + 1 ≤ (a / b + 1) * b := by
      calc a + 1 = b * (a / b) + a % b + 1 := by rw [hsplit]
        _ ≤ b * (a / b) + b := by omega
        _ = (a / b + 1) * b := by ring
    exact_mod_cast hle
  have hlow : ((a / b : Nat) : ℚ) ≤ r := by
    apply hbelow ((a / b : Nat) : ℤ)
    rw [Int.cast_natCast, le_div_iff₀ hbpos]
    exact_mod_cast Nat.div_mul_le_self a b
  have hpart : (1 : ℚ) / 2 ^ 20 ≤ 1 / b :=
    one_div_le_one_div_of_le hbpos (by exact_mod_cast hb')
  have hhigh : r < (a / b : Nat) + 1 := by
    rw [abs_of_nonneg hnonneg] at herror
    have hup := (abs_le.mp herror).2
    have hreach : ((a : ℚ) / b + 1) / 2 ^ 53 < 1 / 2 ^ 20 := by
      rw [div_lt_div_iff₀ (by positivity) (by positivity)]
      linarith
    linarith
  have hfloor : ⌊r⌋ = ((a / b : Nat) : ℤ) := by
    rw [Int.floor_eq_iff]
    exact ⟨by exact_mod_cast hlow, by exact_mod_cast hhigh⟩
  have hpos : 0 ≤ r.num := Rat.num_nonneg.mpr ((Nat.cast_nonneg _).trans hlow)
  rw [hr]
  show r.num.tdiv r.den = _
  rw [Int.tdiv_eq_ediv_of_nonneg hpos, ← Rat.floor_def]
  exact hfloor

-- ============================================================== arrays

/-- The element of a typed array of integers. -/
class ArrayElement (ε : Type) extends Inhabited ε where
  /-- What a slot reads as. -/
  number : ε → Int
  /-- What is kept of a number written to a slot. -/
  convert : Int → ε
  /-- The numbers a slot keeps. -/
  min : Int
  max : Int
  convert_number : ∀ e, convert (number e) = e
  number_default : number default = 0
  number_convert : ∀ x, min ≤ x → x ≤ max → number (convert x) = x
  number_bounds : ∀ e, min ≤ number e ∧ number e ≤ max

/-- The elements of an `Int32Array`. -/
instance : ArrayElement Int32 where
  number := Int32.toInt
  convert := Int32.ofInt
  min := -2 ^ 31
  max := 2 ^ 31 - 1
  convert_number := Int32.ofInt_toInt
  number_default := rfl
  number_convert x hmin hmax :=
    Int32.toInt_ofInt_of_le hmin (by omega)
  number_bounds e := by
    have hlow := e.le_toInt
    have hhigh := e.toInt_lt
    omega

/-- The elements of a `Uint16Array`. -/
instance : ArrayElement UInt16 where
  number e := e.toNat
  convert := UInt16.ofInt
  min := 0
  max := 2 ^ 16 - 1
  convert_number e := by
    unfold UInt16.ofInt
    rw [Int.emod_eq_of_lt (by omega) (by have := e.toNat_lt; omega)]
    exact UInt16.ofNat_toNat
  number_default := rfl
  number_convert x hmin hmax := by
    have hlt : x.toNat < UInt16.size := by
      show x.toNat < 65536
      omega
    unfold UInt16.ofInt
    rw [Int.emod_eq_of_lt hmin (by omega), UInt16.toNat_ofNat_of_lt' hlt,
      Int.toNat_of_nonneg hmin]
  number_bounds e := by
    have hlt := e.toNat_lt
    omega

/-- The elements of a `Uint8Array`. -/
instance : ArrayElement UInt8 where
  number e := e.toNat
  convert := UInt8.ofInt
  min := 0
  max := 2 ^ 8 - 1
  convert_number e := by
    unfold UInt8.ofInt
    rw [Int.emod_eq_of_lt (by omega) (by have := e.toNat_lt; omega)]
    exact UInt8.ofNat_toNat
  number_default := rfl
  number_convert x hmin hmax := by
    have hlt : x.toNat < UInt8.size := by
      show x.toNat < 256
      omega
    unfold UInt8.ofInt
    rw [Int.emod_eq_of_lt hmin (by omega), UInt8.toNat_ofNat_of_lt' hlt,
      Int.toNat_of_nonneg hmin]
  number_bounds e := by
    have hlt := e.toNat_lt
    omega

section

variable {ε : Type} [ArrayElement ε] {n : Nat}

/-- `a[i]`. -/
def get (a : Vector ε n) (i : Nat) : Int := ArrayElement.number (Lib.load a i)

/-- `a[i] = x`. -/
def set (a : Vector ε n) (i : Nat) (x : Int) : Vector ε n :=
  Lib.store a i (ArrayElement.convert x)

/-- The slots of an array keep the number. -/
def Keeps (ε : Type) [ArrayElement ε] (x : Int) : Prop :=
  ArrayElement.min ε ≤ x ∧ x ≤ ArrayElement.max ε

variable {a b : Vector ε n} {i j : Nat} {x : Int}

/-- What is stored is read where it was stored, if it fits. -/
@[simp] theorem get_set (hi : i < n) (hx : Keeps ε x) :
    get (set a i x) i = x := by
  unfold get set
  rw [Lib.load_store_self hi, ArrayElement.number_convert x hx.1 hx.2]

/-- What an array was made of is read from it, if it fits. -/
@[simp] theorem get_ofFn {f : Nat → Int} (hi : i < n) (hf : Keeps ε (f i)) :
    get (Vector.ofFn fun j : Fin n => ArrayElement.convert (ε := ε) (f j)) i
      = f i := by
  unfold get
  rw [Lib.load_ofFn hi]
  exact ArrayElement.number_convert _ hf.1 hf.2

/-- Storing changes nothing in another place. -/
theorem get_set_of_ne (h : i ≠ j) : get (set a i x) j = get a j := by
  unfold get set
  rw [Lib.load_store_of_ne h]

/-- What is read fits. -/
theorem get_keeps (a : Vector ε n) (i : Nat) : Keeps ε (get a i) :=
  ArrayElement.number_bounds _

/-- Arrays with the same numbers are the same. -/
theorem ext_get (h : ∀ i < n, get a i = get b i) : a = b := by
  apply Lib.ext_load
  intro i hi
  rw [← ArrayElement.convert_number (Lib.load a i),
    ← ArrayElement.convert_number (Lib.load b i)]
  exact congrArg ArrayElement.convert (h i hi)

/-- A loop over an array in place, each pass on the slot of its counter: a
slot below the bound holds what its pass made of what it held, the others
hold what they did. -/
theorem get_loop_set {f : Nat → Int → Int} {m : Nat} (hm : m ≤ n)
    (hf : ∀ i < m, Keeps ε (f i (get a i))) (j : Nat) :
    get (Lib.loop m (fun i a => set a i (f i (get a i))) a) j
      = if j < m then f j (get a j) else get a j := by
  have hslots := Lib.load_loop_store (a := a)
    (f := fun i e => ArrayElement.convert (f i (ArrayElement.number e))) hm j
  have hloop : Lib.loop m (fun i a => set a i (f i (get a i))) a
      = Lib.loop m (fun i a => Lib.store a i
        (ArrayElement.convert (f i (ArrayElement.number (Lib.load a i))))) a := rfl
  rw [hloop]
  unfold get at *
  rw [hslots]
  split
  next h => exact ArrayElement.number_convert _ (hf j h).1 (hf j h).2
  next => rfl

/-- `new Array(n)`. -/
def zeros (ε : Type) [ArrayElement ε] (n : Nat) : Vector ε n :=
  Vector.replicate n default

/-- A new array is zeros. -/
@[simp] theorem get_zeros : get (zeros ε n) i = 0 := by
  unfold get zeros Lib.load
  rw [Vector.getElem?_replicate]
  split
  next => exact ArrayElement.number_default
  next => exact ArrayElement.number_default

end

end KxcoPostQuantum
