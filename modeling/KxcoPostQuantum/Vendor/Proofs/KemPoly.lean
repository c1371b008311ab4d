/-
ML-KEM polynomials: the transform, which ends in blocks of two slots, and
the operations on coefficients.

The constants of ml-kem.js make a sound transform (`sound`). A block of a
transform is a polynomial of degree one, and `BaseCaseMultiply` multiplies
two of them modulo the modulus of the block (`hat_MultiplyNTTs`), so a
product of transforms decodes to the negacyclic convolution
(`ntt_exact`). `get_*` say what each operation leaves in a slot, and
`hat_*` what it does to a transform.
-/
import KxcoPostQuantum.Vendor.MlKem
import KxcoPostQuantum.Vendor.Proofs.Ntt

namespace KxcoPostQuantum.Vendor.MlKem

open Lib Lib.Ntt Lib.Negacyclic CrystalOpts

/-- The modulus. -/
abbrev q : ℕ := 3329

/-- The ring the scheme works in. -/
abbrev Rq : Type := Lib.Negacyclic.Ring (ZMod q) N

-- ============================================================ instance

/-- Each power in the table is a root of its node. The table is checked
entry by entry. -/
theorem zeta_square : ∀ g < 2 ^ 7, 1 ≤ g →
    Q ∣ crystals.zeta g ^ 2 - node crystals.zeta g := by decide +kernel

/-- The table read from its end has the inverses, with the other sign. -/
theorem zeta_opposite : ∀ t < 7, ∀ b < 2 ^ t, Q ∣ crystals.zeta (2 ^ t + b)
    * crystals.zeta (N - (1 + 2 ^ 7 - 2 ^ (t + 1) + b)) + 1 := by
  decide +kernel

/-- A reduced number fits in a `Uint16Array`. -/
theorem keeps_of_reduced {x : ℤ} (h : Reduced Q x) : Keeps UInt16 x := by
  obtain ⟨hlow, hhigh⟩ := h
  unfold Q at hhigh
  exact ⟨hlow, show x ≤ 2 ^ 16 - 1 by omega⟩

/-- **The options of ML-KEM are sound**: seven stages on 256 slots. -/
theorem sound : crystals.Sound UInt16 N 7 q where
  stages := by decide
  size := rfl
  modulus := rfl
  one_lt := by decide
  small := by decide
  keeps := keeps_of_reduced
  factor := ⟨by decide, by decide⟩
  square := zeta_square
  opposite := zeta_opposite
  inverse := by decide

/-- The array is the transform of the ring element. -/
abbrev IsHat (x : Rq) (p : Poly) : Prop := Hat crystals 7 x p

/-- The ring element a polynomial stands for. -/
noncomputable abbrev ringOf (p : Poly) : Rq := poly q p

/-- The ring element of some integers. -/
noncomputable abbrev ringOfInts (c : ℕ → ℤ) : Rq :=
  value N fun i => (c i : ZMod q)

/-- Reduction of ML-KEM is the remainder. -/
theorem mod_Q (a : ℤ) : mod a Q = a % Q := sound.mod_eq a

/-- A remainder is reduced. -/
theorem reduced_mod (a : ℤ) : Reduced Q (a % Q) := reduced_emod sound.q_pos a

/-- A remainder is of the same class. -/
theorem cast_mod (a : ℤ) : ((a % Q : ℤ) : ZMod q) = a := sound.cast_emod a

/-- A reduced number has twelve bits. -/
theorem abs_of_reduced {x : ℤ} (h : Reduced Q x) : |x| ≤ 2 ^ 12 := by
  obtain ⟨hlow, hhigh⟩ := h
  unfold Q at hhigh
  rw [abs_le]
  omega

-- =============================================================== slots

section

variable {a b f g : Poly} {i : ℕ}

/-- Addition, slot by slot: one subtraction of the modulus is enough. -/
theorem get_polyAdd (ha : AllOk (Reduced Q) a) (hb : AllOk (Reduced Q) b)
    (hi : i < N) : get (polyAdd a b) i = (get a i + get b i) % Q := by
  have hslot : ∀ i < N, (if Q ≤ get a i + get b i then get a i + get b i - Q
      else get a i + get b i) = (get a i + get b i) % Q := by
    intro i hi
    obtain ⟨hlow, hhigh⟩ := ha i hi
    obtain ⟨hlow', hhigh'⟩ := hb i hi
    split
    next h =>
      rw [← Int.sub_emod_right, Int.emod_eq_of_lt (by omega) (by omega)]
    next h => rw [Int.emod_eq_of_lt (by omega) (by omega)]
  have hloop := get_loop_set (a := a) (f := fun i x =>
    if Q ≤ x + get b i then x + get b i - Q else x + get b i) le_rfl
    (fun i hi => by
      rw [hslot i hi]
      exact keeps_of_reduced (reduced_mod _)) i
  rw [if_pos hi] at hloop
  exact hloop.trans (hslot i hi)

/-- Subtraction, slot by slot. -/
theorem get_polySub (ha : AllOk (Reduced Q) a) (hb : AllOk (Reduced Q) b)
    (hi : i < N) : get (polySub a b) i = (get a i - get b i) % Q := by
  have hslot : ∀ i < N, (if get a i - get b i < 0 then get a i - get b i + Q
      else get a i - get b i) = (get a i - get b i) % Q := by
    intro i hi
    obtain ⟨hlow, hhigh⟩ := ha i hi
    obtain ⟨hlow', hhigh'⟩ := hb i hi
    split
    next h =>
      rw [← Int.add_emod_right, Int.emod_eq_of_lt (by omega) (by omega)]
    next h => rw [Int.emod_eq_of_lt (by omega) (by omega)]
  have hloop := get_loop_set (a := a) (f := fun i x =>
    if x - get b i < 0 then x - get b i + Q else x - get b i) le_rfl
    (fun i hi => by
      rw [hslot i hi]
      exact keeps_of_reduced (reduced_mod _)) i
  rw [if_pos hi] at hloop
  exact hloop.trans (hslot i hi)

/-- A sum is reduced. -/
theorem reduced_polyAdd (ha : AllOk (Reduced Q) a) (hb : AllOk (Reduced Q) b) :
    AllOk (Reduced Q) (polyAdd a b) := by
  intro i hi
  rw [get_polyAdd ha hb hi]
  exact reduced_mod _

/-- A difference is reduced. -/
theorem reduced_polySub (ha : AllOk (Reduced Q) a) (hb : AllOk (Reduced Q) b) :
    AllOk (Reduced Q) (polySub a b) := by
  intro i hi
  rw [get_polySub ha hb hi]
  exact reduced_mod _

/-- A sum stands for the sum in the ring. -/
theorem ringOf_polyAdd (ha : AllOk (Reduced Q) a) (hb : AllOk (Reduced Q) b) :
    ringOf (polyAdd a b) = ringOf a + ringOf b := by
  apply value_add
  intro i hi
  unfold image
  rw [get_polyAdd ha hb hi, cast_mod, Int.cast_add]

/-- A difference stands for the difference in the ring. -/
theorem ringOf_polySub (ha : AllOk (Reduced Q) a) (hb : AllOk (Reduced Q) b) :
    ringOf (polySub a b) = ringOf a - ringOf b := by
  apply value_sub
  intro i hi
  unfold image
  rw [get_polySub ha hb hi, cast_mod, Int.cast_sub]

/-- A polynomial of the residues of some integers. -/
theorem ringOf_eq {c : ℕ → ℤ} (h : ∀ i < N, get a i = c i % Q) :
    ringOf a = ringOfInts c := by
  apply value_congr
  intro i hi
  unfold image
  rw [h i hi, cast_mod]

end

-- ============================================================= products

/-- The constant of the modulus of a block, as `MultiplyNTTs` has it. -/
def gamma (i : ℕ) : ℤ :=
  let z := get (crystals.getZettas UInt16 N) (64 + i / 2)
  if i % 2 = 1 then -z else z

/-- The signed powers of the products are the roots of the lowest nodes: of
two nodes that have one parent the first has the power of the parent, and
the second its negative. -/
theorem gamma_eq {i : ℕ} (hi : i < 2 ^ 7) :
    gamma i = node crystals.zeta (2 ^ 7 + i) ∧ |gamma i| ≤ 2 ^ 12 := by
  have hzeta : get (crystals.getZettas UInt16 N) (64 + i / 2)
      = crystals.zeta (64 + i / 2) := by
    apply sound.get_zettas
    unfold N
    omega
  have habs := abs_of_reduced (sound.reduced_zeta (64 + i / 2))
  unfold gamma
  simp only [hzeta]
  by_cases hodd : i % 2 = 1
  · have hnode := node_odd crystals.zeta (g := 64 + i / 2) (by omega)
    rw [show 2 * (64 + i / 2) + 1 = 2 ^ 7 + i by omega] at hnode
    rw [if_pos hodd, hnode, abs_neg]
    exact ⟨rfl, habs⟩
  · have hnode := node_even crystals.zeta (64 + i / 2)
    rw [show 2 * (64 + i / 2) = 2 ^ 7 + i by omega] at hnode
    rw [if_neg hodd, hnode]
    exact ⟨rfl, habs⟩

section

variable {f g : Poly}

/-- No product is rounded, as the factors have twelve bits, so the two slots
are those of the product modulo a square minus the root. -/
theorem baseCaseMultiply_eq {a0 a1 b0 b1 z : ℤ} (ha0 : Reduced Q a0)
    (ha1 : Reduced Q a1) (hb0 : Reduced Q b0) (hb1 : Reduced Q b1)
    (hz : |z| ≤ 2 ^ 12) :
    BaseCaseMultiply a0 a1 b0 b1 z
      = ((a1 * b1 % Q * z + a0 * b0) % Q, (a0 * b1 + a1 * b0) % Q) := by
  have hexact : ∀ {x y : ℤ}, |x| ≤ 2 ^ 12 → |y| ≤ 2 ^ 12 → times x y = x * y :=
    fun hx hy => times_of_le hx hy (by norm_num)
  have hinner := abs_of_reduced (reduced_mod (a1 * b1))
  unfold BaseCaseMultiply
  rw [hexact (abs_of_reduced ha1) (abs_of_reduced hb1),
    hexact (abs_of_reduced ha0) (abs_of_reduced hb0),
    hexact (abs_of_reduced ha0) (abs_of_reduced hb1),
    hexact (abs_of_reduced ha1) (abs_of_reduced hb0), mod_Q (a1 * b1),
    hexact hinner hz, mod_Q, mod_Q]

/-- What a pass of `MultiplyNTTs` makes of the block `i`. -/
def blockProduct (f g : Poly) (i : ℕ) : ℤ × ℤ :=
  BaseCaseMultiply (get f (2 * i)) (get f (2 * i + 1)) (get g (2 * i))
    (get g (2 * i + 1)) (gamma i)

/-- The loop over the blocks, each of two slots. -/
theorem multiplyNTTs_eq : MultiplyNTTs f g = loop (N / 2) (fun i f =>
    set (set f (2 * i) (blockProduct f g i).1) (2 * i + 1)
      (blockProduct f g i).2) f := rfl

/-- A reduced number is read as it was stored. -/
theorem get_of_reduced {x : ℤ} {a : Poly} {i : ℕ} (hi : i < N)
    (hx : Reduced Q x) : get (set a i x) i = x :=
  get_set hi (keeps_of_reduced hx)

/-- Both slots of a block of a product are reduced. -/
theorem blockProduct_reduced (i : ℕ) : Reduced Q (blockProduct f g i).1
    ∧ Reduced Q (blockProduct f g i).2 := by
  have hmod : ∀ a, Reduced Q (mod a Q) := by
    intro a
    rw [mod_Q]
    exact reduced_mod a
  exact ⟨hmod _, hmod _⟩

/-- Each block of the product is made of the blocks of the factors. The loop
writes over its first factor, so what it still reads has to be shown to be
as it was. -/
theorem get_MultiplyNTTs {i : ℕ} (hi : i < N / 2) :
    get (MultiplyNTTs f g) (2 * i) = (blockProduct f g i).1
      ∧ get (MultiplyNTTs f g) (2 * i + 1) = (blockProduct f g i).2 := by
  rw [multiplyNTTs_eq]
  -- blocks that have been come by hold products, the others what they held
  have hloop := loop_induction (n := N / 2) (s := f)
    (b := fun i (f : Poly) => set (set f (2 * i) (blockProduct f g i).1)
      (2 * i + 1) (blockProduct f g i).2)
    (P := fun m t => (∀ i < N / 2, i < m →
        get t (2 * i) = (blockProduct f g i).1
          ∧ get t (2 * i + 1) = (blockProduct f g i).2)
      ∧ ∀ x, 2 * m ≤ x → get t x = get f x)
    ⟨fun i _ h => absurd h (Nat.not_lt_zero i), fun _ _ => rfl⟩
    (by
      rintro m hm t ⟨hdone, hrest⟩
      have hsame : blockProduct t g m = blockProduct f g m := by
        unfold blockProduct
        rw [hrest (2 * m) le_rfl, hrest (2 * m + 1) (by omega)]
      have hslot : 2 * m + 1 < N := by
        unfold N at hm ⊢
        omega
      obtain ⟨hred, hred'⟩ := @blockProduct_reduced f g m
      rw [hsame]
      constructor
      · intro i hi him
        by_cases heq : i = m
        · subst heq
          rw [get_set_of_ne (by omega), get_of_reduced (by omega) hred,
            get_of_reduced hslot hred']
          exact ⟨rfl, rfl⟩
        · rw [get_set_of_ne (by omega), get_set_of_ne (by omega),
            get_set_of_ne (by omega), get_set_of_ne (by omega)]
          exact hdone i hi (by omega)
      · intro x hx
        rw [get_set_of_ne (by omega), get_set_of_ne (by omega)]
        exact hrest x (by omega))
  exact hloop.1 i hi hi

/-- All slots of a product are reduced. -/
theorem reduced_MultiplyNTTs : AllOk (Reduced Q) (MultiplyNTTs f g) := by
  intro x hx
  have hhalf : x / 2 < N / 2 := by
    unfold N at hx ⊢
    omega
  obtain ⟨hfst, hsnd⟩ := @get_MultiplyNTTs f g _ hhalf
  obtain ⟨hred, hred'⟩ := @blockProduct_reduced f g (x / 2)
  by_cases hodd : x % 2 = 1
  · rw [show x = 2 * (x / 2) + 1 by omega, hsnd]
    exact hred'
  · rw [show x = 2 * (x / 2) by omega, hfst]
    exact hred

end

-- ========================================================== transforms

section

variable {x y : Rq} {a b : Poly}

/-- The transform of a sum is the sum of the transforms. -/
theorem hat_polyAdd (ha : IsHat x a) (hb : IsHat y b) :
    IsHat (x + y) (polyAdd a b) := by
  apply sound.hat_add ha hb (reduced_polyAdd ha.reduced hb.reduced)
  intro i hi
  unfold image
  rw [get_polyAdd ha.reduced hb.reduced hi, cast_mod, Int.cast_add]

/-- A block of two slots. -/
theorem chunk_two (v : ℕ → ZMod q) (i : ℕ) : chunk v (i * 2) 2
    = Polynomial.C (v (2 * i)) + Polynomial.C (v (2 * i + 1)) * Polynomial.X := by
  unfold chunk
  rw [Finset.sum_range_succ, Finset.sum_range_one, Nat.mul_comm i 2,
    Nat.add_zero, pow_zero, mul_one, pow_one]

/-- The root of a lowest node. -/
theorem roots_node {i : ℕ} (hi : i < 2 ^ 7) :
    node (crystals.roots UInt16 N q) (2 ^ 7 + i) = (gamma i : ℤ) := by
  rw [(gamma_eq hi).1]
  unfold node
  split
  next => rw [Int.cast_neg, Int.cast_one]
  next =>
    have hroot : crystals.roots UInt16 N q ((2 ^ 7 + i) / 2)
        = (crystals.zeta ((2 ^ 7 + i) / 2) : ℤ) := by
      apply sound.roots_eq
      unfold N
      omega
    split
    next => rw [hroot]
    next => rw [hroot, Int.cast_neg]

/-- **A block-wise product** of transforms is the transform of the
product. -/
theorem hat_MultiplyNTTs (ha : IsHat x a) (hb : IsHat y b) :
    IsHat (x * y) (MultiplyNTTs a b) := by
  apply sound.hat_mul ha hb reduced_MultiplyNTTs
  intro i hi
  have hlen : crystals.blockLen = 2 := rfl
  have hslot : 2 * i + 1 < N := by
    unfold N
    omega
  obtain ⟨hfst, hsnd⟩ := @get_MultiplyNTTs a b i (by unfold N; omega)
  unfold blockProduct at hfst hsnd
  rw [baseCaseMultiply_eq (ha.reduced _ (by omega)) (ha.reduced _ hslot)
    (hb.reduced _ (by omega)) (hb.reduced _ hslot) (gamma_eq hi).2] at hfst hsnd
  have hlow : image (ZMod q) (MultiplyNTTs a b) (2 * i)
      = image (ZMod q) a (2 * i + 1) * image (ZMod q) b (2 * i + 1)
          * (gamma i : ℤ) + image (ZMod q) a (2 * i) * image (ZMod q) b (2 * i) := by
    unfold image
    rw [hfst, cast_mod, Int.cast_add, Int.cast_mul, cast_mod, Int.cast_mul,
      Int.cast_mul]
  have hhigh : image (ZMod q) (MultiplyNTTs a b) (2 * i + 1)
      = image (ZMod q) a (2 * i) * image (ZMod q) b (2 * i + 1)
        + image (ZMod q) a (2 * i + 1) * image (ZMod q) b (2 * i) := by
    unfold image
    rw [hsnd, cast_mod, Int.cast_add, Int.cast_mul, Int.cast_mul]
  rw [hlen, chunk_two, chunk_two, chunk_two, hlow, hhigh, roots_node hi]
  refine ⟨Polynomial.C (image (ZMod q) a (2 * i + 1)
    * image (ZMod q) b (2 * i + 1)), ?_⟩
  simp only [map_add, map_mul]
  ring

/-- A new polynomial is the transform of zero. -/
theorem hat_newPoly : IsHat 0 newPoly := sound.hat_zero

/-- A reduced polynomial, encoded. -/
theorem hat_encode {p : Poly} (hp : AllOk (Reduced Q) p) :
    IsHat (ringOf p) (crystals.encode p) := by
  apply sound.hat_encode
  intro i hi
  exact sound.accepts_of_reduced (hp i hi)

/-- A transform decodes to the one reduced polynomial of its element. -/
theorem hat_decode {p : Poly} (hp : IsHat x p) :
    AllOk (Reduced Q) (crystals.decode p) ∧ ringOf (crystals.decode p) = x :=
  sound.hat_decode hp

/-- A slot of a polynomial that stands for the same as some integers. -/
theorem slot_of_ringOf {p : Poly} (hp : AllOk (Reduced Q) p) {c : ℕ → ℤ}
    (h : ringOf p = ringOfInts c) {i : ℕ} (hi : i < N) : get p i = c i % Q := by
  have hnontrivial := sound.nontrivial
  have hslot := (value_eq_iff (by decide)).mp h i hi
  apply sound.reduced_injective (hp i hi) (reduced_mod _)
  rw [cast_mod]
  exact hslot

/-- **A product of transforms** decodes to the negacyclic convolution. -/
theorem ntt_product (ha : AllOk (Reduced Q) a) (hb : AllOk (Reduced Q) b)
    {i : ℕ} (hi : i < N) :
    get (crystals.decode (MultiplyNTTs (crystals.encode a)
        (crystals.encode b))) i
      = convolve N (get a) (get b) i % Q := by
  obtain ⟨hred, hring⟩ := hat_decode
    (hat_MultiplyNTTs (hat_encode ha) (hat_encode hb))
  apply slot_of_ringOf hred _ hi
  calc ringOf (crystals.decode (MultiplyNTTs (crystals.encode a)
        (crystals.encode b))) = ringOf a * ringOf b := hring
    _ = value N (convolve N (image (ZMod q) a) (image (ZMod q) b)) :=
        value_mul _ _
    _ = ringOfInts (convolve N (get a) (get b)) := by
        apply value_congr
        intro i _
        rw [cast_convolve]
        rfl

end

/-- **The transform is the ring's**: decoding and encoding undo each other,
and a product of transforms decodes to the negacyclic convolution. This
transform stops one stage short, so its product is not slot by slot but pair
by pair. -/
theorem ntt_exact {p a b : Poly} (hp : AllOk (Reduced Q) p)
    (ha : AllOk (Reduced Q) a) (hb : AllOk (Reduced Q) b) :
    crystals.decode (crystals.encode p) = p
      ∧ crystals.encode (crystals.decode p) = p
      ∧ ∀ i < N, get (crystals.decode (MultiplyNTTs (crystals.encode a)
          (crystals.encode b))) i = convolve N (get a) (get b) i % Q :=
  ⟨sound.decode_encode hp, sound.encode_decode hp,
    fun _ hi => ntt_product ha hb hi⟩

/-- A polynomial of 256 different coefficients. -/
def ramp : Poly := Vector.ofFn fun i => ArrayElement.convert (13 * (i : ℕ))

/-- Its coefficients are below the modulus. -/
theorem reduced_ramp : AllOk (Reduced Q) ramp := by
  intro i hi
  have hlt : i < 256 := hi
  have hreduced : Reduced Q (13 * (i : ℤ)) := by
    unfold Reduced Q
    omega
  rw [show get ramp i = 13 * (i : ℤ) from
    get_ofFn (f := fun i => 13 * (i : ℤ)) hi (keeps_of_reduced hreduced)]
  exact hreduced

/-- Transformed both ways, and squared. -/
theorem ntt_exact_ramp :
    crystals.decode (crystals.encode ramp) = ramp
      ∧ crystals.encode (crystals.decode ramp) = ramp
      ∧ ∀ i < N, get (crystals.decode (MultiplyNTTs (crystals.encode ramp)
          (crystals.encode ramp))) i = convolve N (get ramp) (get ramp) i % Q :=
  ntt_exact reduced_ramp reduced_ramp reduced_ramp

-- ============================================================ matrices

/-- A row times a vector, both transforms. -/
def rowSum (K : ℕ) (A : ℕ → Poly) (vHat : List Poly) (t : Poly) : Poly :=
  loop K (fun j t => polyAdd t (MultiplyNTTs (A j) (nth vHat j))) t

/-- **A row times a vector** is the sum of the products. By induction over
the entries, each added to what there is. -/
theorem hat_rowSum {K : ℕ} {A : ℕ → Poly} (vHat : List Poly) {a v : ℕ → Rq}
    {x : Rq} {t : Poly} (hA : ∀ j < K, IsHat (a j) (A j))
    (hv : ∀ j < K, IsHat (v j) (nth vHat j)) (ht : IsHat x t) :
    IsHat (x + ∑ j ∈ Finset.range K, a j * v j) (rowSum K A vHat t) := by
  unfold rowSum
  apply loop_induction (P := fun l (t : Poly) =>
    IsHat (x + ∑ j ∈ Finset.range l, a j * v j) t)
  · rw [Finset.sum_range_zero, add_zero]
    exact ht
  · intro j hj t ht
    rw [Finset.sum_range_succ, ← add_assoc]
    exact hat_polyAdd ht (hat_MultiplyNTTs (hA j hj) (hv j hj))

end KxcoPostQuantum.Vendor.MlKem
