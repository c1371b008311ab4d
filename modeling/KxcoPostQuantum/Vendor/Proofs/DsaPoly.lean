/-
ML-DSA polynomials: the transform and the operations on coefficients.

The constants of ml-dsa.js make a sound transform (`sound`), so a product of
two transforms decodes to the negacyclic convolution of what they are
transforms of (`ntt_product`). `get_*` say what each operation leaves in a
slot, and `hat_*` what it does to a transform. A row of the matrix times a
vector is the sum of the products (`hat_rowSum`), whether the row is sampled
on the way or before (`rowTimes_ok`).
-/
import KxcoPostQuantum.Vendor.MlDsa
import KxcoPostQuantum.Vendor.Proofs.Ntt

namespace KxcoPostQuantum.Vendor.MlDsa

open Lib Lib.Ntt Lib.Negacyclic CrystalOpts

/-- The modulus. -/
abbrev q : ℕ := 8380417

/-- The ring the scheme works in. -/
abbrev Rq : Type := Lib.Negacyclic.Ring (ZMod q) N

-- ============================================================ instance

/-- Each power in the table is a root of its node. The table is checked
entry by entry. -/
theorem zeta_square : ∀ g < 2 ^ 8, 1 ≤ g →
    Q ∣ crystals.zeta g ^ 2 - node crystals.zeta g := by decide +kernel

/-- The table read from its end has the inverses, with the other sign. -/
theorem zeta_opposite : ∀ t < 8, ∀ b < 2 ^ t, Q ∣ crystals.zeta (2 ^ t + b)
    * crystals.zeta (N - (1 + 2 ^ 8 - 2 ^ (t + 1) + b)) + 1 := by
  decide +kernel

/-- A number of 31 bits and a sign fits in an `Int32Array`. -/
theorem keeps_of_abs {x : ℤ} (h : |x| ≤ 2 ^ 31 - 1) : Keeps Int32 x := by
  rw [abs_le] at h
  exact ⟨show -2 ^ 31 ≤ x by omega, show x ≤ 2 ^ 31 - 1 by omega⟩

/-- A reduced number fits in an `Int32Array`. -/
theorem keeps_of_reduced {x : ℤ} (h : Reduced Q x) : Keeps Int32 x := by
  obtain ⟨hlow, hhigh⟩ := h
  apply keeps_of_abs
  rw [abs_le]
  unfold Q at hhigh
  omega

/-- **The options of ML-DSA are sound**: eight stages on 256 slots. -/
theorem sound : crystals.Sound Int32 N 8 q where
  stages := by decide
  size := rfl
  modulus := rfl
  one_lt := by decide
  small := by decide
  keeps := keeps_of_reduced
  factor := ⟨by decide, by decide⟩
  square := zeta_square
  opposite := zeta_opposite
  inverse := by decide

/-- The array is the transform of the ring element. -/
abbrev IsHat (x : Rq) (p : Poly) : Prop := Hat crystals 8 x p

/-- The ring element a polynomial stands for. -/
noncomputable abbrev ringOf (p : Poly) : Rq := poly q p

/-- What `mod` returns is reduced. -/
theorem reduced_mod (a : ℤ) : Reduced Q (mod a Q) := by
  rw [show mod a Q = a % Q from sound.mod_eq a]
  exact reduced_emod sound.q_pos a

/-- What `mod` returns is of the same class. -/
theorem cast_mod (a : ℤ) : ((mod a Q : ℤ) : ZMod q) = a := by
  rw [show mod a Q = a % Q from sound.mod_eq a]
  exact sound.cast_emod a

-- =============================================================== slots

section

variable {a b p : Poly} {i : ℕ}

/-- `map` goes slot by slot, where what it stores fits. -/
theorem get_mapPoly {f : ℤ → ℤ} (hf : ∀ i < N, Keeps Int32 (f (get p i)))
    (hi : i < N) : get (mapPoly f p) i = f (get p i) := by
  have hloop := get_loop_set (f := fun _ x => f x) le_rfl hf i
  rwa [if_pos hi] at hloop

/-- Addition, slot by slot. -/
theorem get_polyAdd (hi : i < N) :
    get (polyAdd a b) i = mod (get a i + get b i) Q := by
  have hloop := get_loop_set (a := a) (f := fun i x => mod (x + get b i) Q) le_rfl
    (fun i _ => keeps_of_reduced (reduced_mod _)) i
  rwa [if_pos hi] at hloop

/-- Subtraction, slot by slot. -/
theorem get_polySub (hi : i < N) :
    get (polySub a b) i = mod (get a i - get b i) Q := by
  have hloop := get_loop_set (a := a) (f := fun i x => mod (x - get b i) Q) le_rfl
    (fun i _ => keeps_of_reduced (reduced_mod _)) i
  rwa [if_pos hi] at hloop

/-- The product of transforms, slot by slot. -/
theorem get_MultiplyNTTs (hi : i < N) :
    get (MultiplyNTTs a b) i = mod (times (get a i) (get b i)) Q := by
  have hloop := get_loop_set (a := newPoly)
    (f := fun i _ => mod (times (get a i) (get b i)) Q) le_rfl
    (fun i _ => keeps_of_reduced (reduced_mod _)) i
  rwa [if_pos hi] at hloop

/-- The shift of a high part loses no bit: what is shifted has ten bits, so
the word has room for it. -/
theorem get_polyShiftl (hp : ∀ i < N, Reduced (2 ^ 10) (get p i)) (hi : i < N) :
    get (polyShiftl p) i = get p i * 2 ^ D := by
  have hshift : ∀ i < N, shl (get p i) D = get p i * 2 ^ D := by
    intro i hi
    obtain ⟨hlow, hhigh⟩ := hp i hi
    obtain ⟨n, hn⟩ := Int.eq_ofNat_of_zero_le hlow
    rw [hn] at hhigh ⊢
    have hlt : n < 2 ^ 10 := by exact_mod_cast hhigh
    unfold shl D
    rw [toUint32_natCast (by omega), Nat.shiftLeft_eq,
      toInt32_natCast (by norm_num; omega)]
    push_cast
    rfl
  have hloop := get_loop_set (a := p) (f := fun _ x => shl x D) le_rfl
    (fun i hi => by
      rw [hshift i hi]
      obtain ⟨hlow, hhigh⟩ := hp i hi
      unfold D
      exact keeps_of_abs (abs_le.mpr (by omega))) i
  rw [if_pos hi] at hloop
  exact hloop.trans (hshift i hi)

/-- A sum is reduced, whatever the summands are. -/
theorem reduced_polyAdd : AllOk (Reduced Q) (polyAdd a b) := by
  intro i hi
  rw [get_polyAdd hi]
  exact reduced_mod _

/-- A difference is reduced, likewise. -/
theorem reduced_polySub : AllOk (Reduced Q) (polySub a b) := by
  intro i hi
  rw [get_polySub hi]
  exact reduced_mod _

/-- A slot is reduced, as its class is. -/
theorem eq_mod_of_cast {x y : ℤ} (hx : Reduced Q x)
    (h : (x : ZMod q) = y) : x = mod y Q :=
  sound.reduced_injective hx (reduced_mod y) (h.trans (cast_mod y).symm)

/-- A sum stands for the sum in the ring. -/
theorem ringOf_polyAdd : ringOf (polyAdd a b) = ringOf a + ringOf b := by
  apply value_add
  intro i hi
  unfold image
  rw [get_polyAdd hi, cast_mod, Int.cast_add]

/-- A difference stands for the difference in the ring. -/
theorem ringOf_polySub : ringOf (polySub a b) = ringOf a - ringOf b := by
  apply value_sub
  intro i hi
  unfold image
  rw [get_polySub hi, cast_mod, Int.cast_sub]

end

-- ========================================================== transforms

section

variable {x y : Rq} {a b : Poly}

/-- The transform of a sum is the sum of the transforms. -/
theorem hat_polyAdd (ha : IsHat x a) (hb : IsHat y b) :
    IsHat (x + y) (polyAdd a b) := by
  apply sound.hat_add ha hb reduced_polyAdd
  intro i hi
  unfold image
  rw [get_polyAdd hi, cast_mod, Int.cast_add]

/-- The transform of a difference is the difference of the transforms. -/
theorem hat_polySub (ha : IsHat x a) (hb : IsHat y b) :
    IsHat (x - y) (polySub a b) := by
  apply sound.hat_sub ha hb reduced_polySub
  intro i hi
  unfold image
  rw [get_polySub hi, cast_mod, Int.cast_sub]

/-- **The transform of a product is the product**, which is taken slot by
slot. The factors are reduced, so the loop's products are integers that a
number holds. -/
theorem hat_MultiplyNTTs (ha : IsHat x a) (hb : IsHat y b) :
    IsHat (x * y) (MultiplyNTTs a b) := by
  have hproduct : ∀ i < N, image (ZMod q) (MultiplyNTTs a b) i
      = image (ZMod q) a i * image (ZMod q) b i := by
    intro i hi
    obtain ⟨hlow, hhigh⟩ := ha.reduced i hi
    obtain ⟨hlow', hhigh'⟩ := hb.reduced i hi
    unfold image
    rw [get_MultiplyNTTs hi, times_of_le (m := 2 ^ 23) (n := 2 ^ 23)
      (abs_le.mpr (by unfold crystals Q at hhigh; dsimp only at hhigh; omega))
      (abs_le.mpr (by unfold crystals Q at hhigh'; dsimp only at hhigh'; omega))
      (by norm_num), cast_mod, Int.cast_mul]
  apply sound.hat_mul ha hb
  · intro i hi
    rw [get_MultiplyNTTs hi]
    exact reduced_mod _
  · -- blocks have one slot
    intro block hblock
    have hi : block < N := hblock
    have hlen : crystals.blockLen = 1 := rfl
    have hchunk : ∀ v : ℕ → ZMod q, chunk v (block * 1) 1
        = Polynomial.C (v block) := by
      intro v
      unfold chunk
      rw [Finset.sum_range_one, Nat.mul_one, Nat.add_zero, pow_zero, mul_one]
    rw [hlen, hchunk, hchunk, hchunk, hproduct block hi, map_mul, sub_self]
    exact dvd_zero _

/-- A new polynomial is the transform of zero. -/
theorem hat_newPoly : IsHat 0 newPoly := sound.hat_zero

/-- A polynomial with coefficients that are small enough, encoded. -/
theorem hat_encode {p : Poly} (hp : ∀ i < N, |get p i| ≤ 2 ^ 30) :
    IsHat (ringOf p) (crystals.encode p) := sound.hat_encode hp

/-- A transform decodes to the one reduced polynomial of its element. -/
theorem hat_decode {p : Poly} (hp : IsHat x p) :
    AllOk (Reduced Q) (crystals.decode p) ∧ ringOf (crystals.decode p) = x :=
  sound.hat_decode hp

/-- **A product of transforms** decodes to the negacyclic convolution of the
factors, reduced. These need not be reduced themselves. -/
theorem ntt_product {a b : Poly} (ha : ∀ i < N, |get a i| ≤ 2 ^ 30)
    (hb : ∀ i < N, |get b i| ≤ 2 ^ 30) {i : ℕ} (hi : i < N) :
    get (crystals.decode (MultiplyNTTs (crystals.encode a)
        (crystals.encode b))) i
      = convolve N (get a) (get b) i % Q := by
  obtain ⟨hred, hring⟩ := hat_decode
    (hat_MultiplyNTTs (hat_encode ha) (hat_encode hb))
  have hnontrivial := sound.nontrivial
  have hvalue : value N (image (ZMod q) (crystals.decode (MultiplyNTTs
      (crystals.encode a) (crystals.encode b))))
        = value N (convolve N (image (ZMod q) a) (image (ZMod q) b)) :=
    hring.trans (value_mul _ _)
  have hslot := (value_eq_iff (by decide)).mp hvalue i hi
  rw [← show mod (convolve N (get a) (get b) i) Q
    = convolve N (get a) (get b) i % Q from sound.mod_eq _]
  apply eq_mod_of_cast (hred i hi)
  rw [cast_convolve]
  exact hslot

end

/-- **The transform is the ring's**: decoding and encoding undo each other,
and a product of transforms decodes to the negacyclic convolution. The
factors need not be reduced, only so small that no product of the loop is
rounded. -/
theorem transform_exact {p a b : Poly} (hp : AllOk (Reduced Q) p)
    (ha : ∀ i < N, |get a i| ≤ 2 ^ 30) (hb : ∀ i < N, |get b i| ≤ 2 ^ 30) :
    crystals.decode (crystals.encode p) = p
      ∧ crystals.encode (crystals.decode p) = p
      ∧ ∀ i < N, get (crystals.decode (MultiplyNTTs (crystals.encode a)
          (crystals.encode b))) i = convolve N (get a) (get b) i % Q :=
  ⟨sound.decode_encode hp, sound.encode_decode hp,
    fun _ hi => ntt_product ha hb hi⟩

/-- A reduced polynomial of 256 different coefficients, and one of both
signs. -/
def ramp : Poly := Vector.ofFn fun i => ArrayElement.convert (32768 * (i : ℕ))

def slope : Poly := Vector.ofFn fun i =>
  ArrayElement.convert (4194304 * (128 - (i : ℕ)))

/-- The first transformed both ways, then multiplied by the second: no
coefficient of either is that of another place, so an index that is out of
step would show. -/
theorem transform_exact_ramp :
    crystals.decode (crystals.encode ramp) = ramp
      ∧ crystals.encode (crystals.decode ramp) = ramp
      ∧ ∀ i < N, get (crystals.decode (MultiplyNTTs (crystals.encode ramp)
          (crystals.encode slope))) i
        = convolve N (get ramp) (get slope) i % Q := by
  have hramp : ∀ i < N, get ramp i = 32768 * (i : ℤ) := by
    intro i hi
    have hlt : i < 256 := hi
    exact get_ofFn (f := fun i => 32768 * (i : ℤ)) hi
      (keeps_of_abs (abs_le.mpr (by omega)))
  have hslope : ∀ i < N, get slope i = 4194304 * (128 - (i : ℤ)) := by
    intro i hi
    have hlt : i < 256 := hi
    exact get_ofFn (f := fun i => 4194304 * (128 - (i : ℤ))) hi
      (keeps_of_abs (abs_le.mpr (by omega)))
  apply transform_exact
  · intro i hi
    have hlt : i < 256 := hi
    rw [hramp i hi]
    unfold Reduced Q
    omega
  · intro i hi
    have hlt : i < 256 := hi
    rw [hramp i hi, abs_le]
    omega
  · intro i hi
    have hlt : i < 256 := hi
    rw [hslope i hi, abs_le]
    omega

-- ============================================================ matrices

/-- A row times a vector, both transforms. -/
def rowSum (L : ℕ) (A : ℕ → Poly) (vHat : List Poly) : Poly :=
  loop L (fun j t => polyAdd t (MultiplyNTTs (A j) (nth vHat j))) newPoly

/-- **A row times a vector** is the sum of the products. -/
theorem hat_rowSum {L : ℕ} {A : ℕ → Poly} {vHat : List Poly} {a v : ℕ → Rq}
    (hA : ∀ j < L, IsHat (a j) (A j)) (hv : ∀ j < L, IsHat (v j) (nth vHat j)) :
    IsHat (∑ j ∈ Finset.range L, a j * v j) (rowSum L A vHat) := by
  unfold rowSum
  apply loop_induction (P := fun l (t : Poly) =>
    IsHat (∑ j ∈ Finset.range l, a j * v j) t)
  · exact hat_newPoly
  · intro j hj t ht
    rw [Finset.sum_range_succ]
    exact hat_polyAdd ht (hat_MultiplyNTTs (hA j hj) (hv j hj))

/-- The entries of a row are sampled. -/
def Sampled (h : Hashes) (fuel : ℕ) (rho : Bytes) (L i : ℕ) (A : ℕ → Poly) :
    Prop :=
  ∀ j < L, RejNTTPoly fuel (XOF128 h rho j i) = .ok (A j)

/-- A row that is sampled on the way. -/
theorem rowTimes_ok {P : Params} {h : Hashes} {fuel i : ℕ} {rho : Bytes}
    {vHat : List Poly} {t : Poly} :
    rowTimes P h fuel rho i vHat = .ok t
      ↔ ∃ A, Sampled h fuel rho P.L i A ∧ t = rowSum P.L A vHat :=
  loopM_draw

end KxcoPostQuantum.Vendor.MlDsa
