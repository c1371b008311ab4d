/-
The transforms of the two schemes, as a ring isomorphism.

`Sound` collects what an instance of `genCrystals` must satisfy: the sizes,
and three facts about its constants, that each root is a square root of
the one above it, that the roots an inverse stage multiplies by undo those
of the forward stage, and that `F` undoes the doublings. Under it `decode`
undoes `encode` (`decode_encode`) and `encode` undoes `decode`
(`encode_decode`) on reduced coefficients, and in no step is a product
rounded or a coefficient cut off by its slot.

`Hat x p` says that the array `p` is the transform of the ring element
`x`. Encoding makes the transform of what an array stands for
(`hat_encode`), decoding makes what the transform is of (`hat_decode`), and
sums and block-wise products of transforms are those of the ring
(`Hat.linear`, `Hat.mul`).
-/
import KxcoPostQuantum.Vendor.Crystals
import KxcoPostQuantum.Vendor.Proofs.Fft
import KxcoPostQuantum.Lib.Negacyclic
import Mathlib.Data.ZMod.Basic

namespace KxcoPostQuantum.Vendor

open Lib Lib.Ntt Lib.Negacyclic

-- ============================================================ reduction

/-- `mod` is the remainder of the division that rounds down. -/
theorem mod_eq {a m : ℤ} (hm : 0 < m) (hsmall : m ≤ 2 ^ 31) : mod a m = a % m := by
  have hlow := Int.emod_nonneg a hm.ne'
  have hhigh := Int.emod_lt_of_pos a hm
  have hsame : toInt32 (a % m) = a % m := toInt32_of_range (by omega) (by omega)
  have htmod := Int.tmod_eq_emod (a := a) (b := m)
  unfold mod
  by_cases hcase : 0 ≤ a ∨ m ∣ a
  · rw [if_pos hcase, Nat.cast_zero, sub_zero] at htmod
    simp only [htmod, hsame, if_pos hlow]
  · have hbelow : toInt32 (a % m - m) = a % m - m :=
      toInt32_of_range (by omega) (by omega)
    rw [if_neg hcase, Int.natAbs_of_nonneg hm.le] at htmod
    simp only [htmod, hbelow]
    rw [if_neg (by omega), show m + (a % m - m) = a % m by ring, hsame, hsame]

/-- The centered remainder, the positive one of two in the middle. -/
theorem smod_eq {a m : ℤ} (hm : 0 < m) (hsmall : m < 2 ^ 31) :
    smod a m = if m / 2 < a % m then a % m - m else a % m := by
  have hlow := Int.emod_nonneg a hm.ne'
  have hhigh := Int.emod_lt_of_pos a hm
  have hsame : toInt32 (a % m) = a % m := toInt32_of_range (by omega) (by omega)
  have hhalf : shr m 1 = m / 2 := by
    unfold shr
    rw [toInt32_of_range (by omega) hsmall, Int.shiftRight_eq_div_pow]
    rfl
  unfold smod
  simp only [mod_eq hm hsmall.le, hsame, hhalf]
  split
  next =>
    have hbelow : toInt32 (a % m - m) = a % m - m :=
      toInt32_of_range (by omega) (by omega)
    rw [hbelow, hbelow]
  next => exact hsame

/-- A number is reduced. -/
def Reduced (m x : ℤ) : Prop := 0 ≤ x ∧ x < m

/-- A remainder is reduced. -/
theorem reduced_emod {m : ℤ} (hm : 0 < m) (a : ℤ) : Reduced m (a % m) :=
  ⟨Int.emod_nonneg a hm.ne', Int.emod_lt_of_pos a hm⟩

namespace CrystalOpts

variable {o : CrystalOpts} {ε : Type} [ArrayElement ε] {N T q : ℕ}

-- ============================================================ instances

/-- The entry of the table of roots. -/
def zeta (o : CrystalOpts) (i : ℕ) : ℤ :=
  ((o.ROOT_OF_UNITY ^ reverseBits i.toUInt32 o.brvBits : ℕ) : ℤ) % o.Q

/-- What a slot may hold before a transform: reduced numbers for Kyber,
others as well for Dilithium. -/
def Accepts (o : CrystalOpts) (x : ℤ) : Prop :=
  if o.isKyber then Reduced o.Q x else |x| ≤ 2 ^ 30

/-- The length of the blocks a transform ends with. -/
def blockLen (o : CrystalOpts) : ℕ := 2 ^ (if o.isKyber then 1 else 0)

/-- The sizes and the constants of an instance fit together. -/
structure Sound (o : CrystalOpts) (ε : Type) [ArrayElement ε] (N T q : ℕ) :
    Prop where
  stages : T ≠ 0
  size : 2 ^ T * o.blockLen = N
  modulus : o.Q = q
  one_lt : 1 < q
  small : q ≤ 2 ^ 23
  keeps : ∀ {x}, Reduced o.Q x → Keeps ε x
  factor : Reduced o.Q o.F
  square : ∀ g < 2 ^ T, 1 ≤ g → o.Q ∣ o.zeta g ^ 2 - node o.zeta g
  opposite : ∀ t < T, ∀ b < 2 ^ t,
    o.Q ∣ o.zeta (2 ^ t + b) * o.zeta (N - (1 + 2 ^ T - 2 ^ (t + 1) + b)) + 1
  inverse : o.Q ∣ o.F * 2 ^ T - 1

variable (h : o.Sound ε N T q)

include h

/-- The modulus is positive. -/
theorem Sound.q_pos : 0 < o.Q := by
  have := h.one_lt
  have := h.modulus
  omega

/-- The modulus has 23 bits at most. -/
theorem Sound.q_le : o.Q ≤ 2 ^ 23 := by
  have := h.small
  have := h.modulus
  omega

/-- Reduction by the options' modulus is the remainder. -/
theorem Sound.mod_eq (a : ℤ) : mod a o.Q = a % o.Q :=
  Vendor.mod_eq h.q_pos (h.q_le.trans (by norm_num))

/-- A remainder is of the class of the number. -/
theorem Sound.cast_emod (a : ℤ) : ((a % o.Q : ℤ) : ZMod q) = a := by
  rw [h.modulus]
  exact ZMod.intCast_mod a q

/-- The class of zero is the multiples of the modulus. -/
theorem Sound.cast_eq_zero {a : ℤ} : (a : ZMod q) = 0 ↔ o.Q ∣ a := by
  rw [h.modulus]
  exact ZMod.intCast_zmod_eq_zero_iff_dvd a q

/-- Reduced numbers are the same when their classes are. -/
theorem Sound.reduced_injective {a b : ℤ} (ha : Reduced o.Q a)
    (hb : Reduced o.Q b) (hab : (a : ZMod q) = b) : a = b := by
  have hdvd : o.Q ∣ a - b := by
    rw [← h.cast_eq_zero, Int.cast_sub, hab, sub_self]
  have heq : a % o.Q = b % o.Q :=
    Int.emod_eq_emod_iff_emod_sub_eq_zero.mpr (Int.emod_eq_zero_of_dvd hdvd)
  rwa [Int.emod_eq_of_lt ha.1 ha.2, Int.emod_eq_of_lt hb.1 hb.2] at heq

-- =========================================================== operations

/-- Reduced numbers are among those the butterflies take. -/
theorem Sound.accepts_of_reduced {x : ℤ} (hx : Reduced o.Q x) :
    o.Accepts x := by
  have hle := h.q_le
  obtain ⟨hlow, hhigh⟩ := hx
  unfold Accepts
  split
  next => exact ⟨hlow, hhigh⟩
  next =>
    rw [abs_le]
    omega

/-- The numbers the butterflies take are at most 2^30. -/
theorem Sound.abs_le_of_accepts {x : ℤ} (hx : o.Accepts x) : |x| ≤ 2 ^ 30 := by
  have hle := h.q_le
  unfold Accepts at hx
  split at hx
  next =>
    obtain ⟨hlow, hhigh⟩ := hx
    rw [abs_le]
    omega
  next => exact hx

/-- No product is rounded: a factor has 31 bits at most and the other 23,
and a number holds 53. -/
theorem Sound.product {a b : ℤ} (ha : |a| ≤ 2 ^ 30) (hb : Reduced o.Q b) :
    toInt32 (mod (times (toInt32 a) (toInt32 b)) o.Q) = a * b % o.Q := by
  have hle := h.q_le
  have hpos := h.q_pos
  obtain ⟨hlow, hhigh⟩ := hb
  have habs : |b| ≤ 2 ^ 23 - 1 := by
    rw [abs_le]
    omega
  have hmod := reduced_emod hpos (a * b)
  have hrange := abs_le.mp ha
  rw [toInt32_of_range (by omega : -2 ^ 31 ≤ a) (by omega),
    toInt32_of_range (by omega : -2 ^ 31 ≤ b) (by omega),
    times_of_le ha habs (by norm_num), h.mod_eq,
    toInt32_of_range (by have := hmod.1; omega) (by have := hmod.2; omega)]

/-- The field operations are those of the ring of residues: each gives a
reduced number, of the class that the ring's gives of the classes. -/
theorem Sound.models :
    Models ε (ZMod q) o.field o.Accepts (Reduced o.Q) := by
  have hpos := h.q_pos
  have hle := h.q_le
  have hmodulus : ((o.Q : ℤ) : ZMod q) = 0 := h.cast_eq_zero.mpr dvd_rfl
  have hsmall : ∀ {x : ℤ}, -2 ^ 31 ≤ x → x < 2 ^ 31 → toInt32 x = x :=
    toInt32_of_range
  have hproduct : ∀ {a b : ℤ}, o.Accepts a → Reduced o.Q b →
      o.field.mul a b = a * b % o.Q := by
    intro a b ha hb
    unfold field
    split
    next => exact h.product (h.abs_le_of_accepts ha) hb
    next => exact h.product (h.abs_le_of_accepts ha) hb
  have hsum : ∀ {a b : ℤ}, o.Accepts a → o.Accepts b →
      o.field.add a b = (a + b) % o.Q := by
    intro a b ha hb
    unfold field
    unfold Accepts at ha hb
    split
    next hkyber =>
      rw [if_pos hkyber] at ha hb
      obtain ⟨ha, ha'⟩ := ha
      obtain ⟨hb, hb'⟩ := hb
      show (if o.Q ≤ toInt32 (a + b) then toInt32 (toInt32 (a + b) - o.Q)
        else toInt32 (a + b)) = _
      rw [hsmall (by omega) (by omega)]
      split
      next hge =>
        rw [hsmall (by omega) (by omega), ← Int.sub_emod_right,
          Int.emod_eq_of_lt (by omega) (by omega)]
      next hlt => rw [Int.emod_eq_of_lt (by omega) (by omega)]
    next hkyber =>
      rw [if_neg hkyber, abs_le] at ha hb
      have hmod := reduced_emod hpos (a + b)
      obtain ⟨hlow, hhigh⟩ := hmod
      show toInt32 (mod (toInt32 a + toInt32 b) o.Q) = _
      rw [hsmall (by omega : -2 ^ 31 ≤ a) (by omega),
        hsmall (by omega : -2 ^ 31 ≤ b) (by omega), h.mod_eq,
        hsmall (by omega) (by omega)]
  have hdifference : ∀ {a b : ℤ}, o.Accepts a → o.Accepts b →
      o.field.sub a b = (a - b) % o.Q := by
    intro a b ha hb
    unfold field
    unfold Accepts at ha hb
    split
    next hkyber =>
      rw [if_pos hkyber] at ha hb
      obtain ⟨ha, ha'⟩ := ha
      obtain ⟨hb, hb'⟩ := hb
      show (if toInt32 (a - b) < 0 then toInt32 (toInt32 (a - b) + o.Q)
        else toInt32 (a - b)) = _
      rw [hsmall (by omega) (by omega)]
      split
      next hneg =>
        rw [hsmall (by omega) (by omega), ← Int.add_emod_right,
          Int.emod_eq_of_lt (by omega) (by omega)]
      next hnonneg => rw [Int.emod_eq_of_lt (by omega) (by omega)]
    next hkyber =>
      rw [if_neg hkyber, abs_le] at ha hb
      have hmod := reduced_emod hpos (a - b)
      obtain ⟨hlow, hhigh⟩ := hmod
      show toInt32 (mod (toInt32 a - toInt32 b) o.Q) = _
      rw [hsmall (by omega : -2 ^ 31 ≤ a) (by omega),
        hsmall (by omega : -2 ^ 31 ≤ b) (by omega), h.mod_eq,
        hsmall (by omega) (by omega)]
  refine ⟨h.keeps, h.accepts_of_reduced, ?_, ?_, ?_, ?_, ?_, ?_⟩
  · intro a b ha hb
    rw [hsum ha hb]
    exact reduced_emod hpos _
  · intro a b ha hb
    rw [hdifference ha hb]
    exact reduced_emod hpos _
  · intro a b ha hb
    rw [hproduct ha hb]
    exact reduced_emod hpos _
  · intro a b ha hb
    rw [hsum ha hb, h.cast_emod, Int.cast_add]
  · intro a b ha hb
    rw [hdifference ha hb, h.cast_emod, Int.cast_sub]
  · intro a b ha hb
    rw [hproduct ha hb, h.cast_emod, Int.cast_mul]

-- ================================================================ roots

/-- The powers of the root are stored reduced. -/
theorem Sound.reduced_zeta (i : ℕ) : Reduced o.Q (o.zeta i) :=
  reduced_emod h.q_pos _

/-- Each power of the root is stored in its slot. -/
theorem Sound.get_zettas {i : ℕ} (hi : i < N) :
    get (o.getZettas ε N) i = o.zeta i := by
  have hsame : ∀ i, toInt32 (o.zeta i) = o.zeta i := by
    intro i
    have hle := h.q_le
    obtain ⟨hlow, hhigh⟩ := h.reduced_zeta i
    exact toInt32_of_range (by omega) (by omega)
  have hloop := get_loop_set (a := zeros ε N) (m := N)
    (f := fun i _ => toInt32 (o.zeta i)) le_rfl
    (fun i _ => by
      rw [hsame]
      exact h.keeps (h.reduced_zeta i)) i
  rw [if_pos hi, hsame] at hloop
  exact hloop

/-- The roots of the loops are the powers of the root, and zero behind the
end. -/
theorem Sound.root_eq (dit : Bool) (i : ℕ) :
    (o.nttOpts ε N dit).root i = if i < N then o.zeta i else 0 := by
  have hload : (o.nttOpts ε N dit).root i = get (o.getZettas ε N) i := by
    unfold CoreOpts.root get load nttOpts
    simp only [Array.getD_eq_getD_getElem?, Vector.getElem?_toArray]
  rw [hload]
  split
  next hi => exact h.get_zettas hi
  next hi =>
    unfold get load
    rw [Vector.getElem?_eq_none (not_lt.mp hi)]
    exact ArrayElement.number_default

/-- So they are reduced wherever they are read. -/
theorem Sound.reduced_root (dit : Bool) (i : ℕ) :
    Reduced o.Q ((o.nttOpts ε N dit).root i) := by
  rw [h.root_eq]
  split
  next => exact h.reduced_zeta i
  next => exact ⟨le_rfl, h.q_pos⟩

omit h

/-- The roots of a transform, in the ring of residues. -/
def roots (o : CrystalOpts) (ε : Type) [ArrayElement ε] (N q : ℕ) (g : ℕ) : ZMod q :=
  ((o.nttOpts ε N false).root g : ℤ)

include h

/-- Their classes, below the size. -/
theorem Sound.roots_eq {g : ℕ} (hg : g < N) :
    o.roots ε N q g = (o.zeta g : ℤ) := by
  unfold roots
  rw [h.root_eq, if_pos hg]

/-- The stages do not go beyond the size of the array. -/
theorem Sound.stages_le : 2 ^ T ≤ N := by
  have hpos : 0 < o.blockLen := Nat.two_pow_pos _
  rw [← h.size]
  exact Nat.le_mul_of_pos_right _ hpos

/-- The roots of the stages square to those of the nodes above them. -/
theorem Sound.roots_square : Roots (o.roots ε N q) (2 ^ T) := by
  have hle := h.stages_le
  refine ⟨?_⟩
  intro g hg hlt
  have hsquare := h.cast_eq_zero.mpr (h.square g hlt hg)
  rw [Int.cast_sub, Int.cast_pow, sub_eq_zero] at hsquare
  rw [h.roots_eq (by omega), hsquare]
  unfold node
  split
  next => rw [Int.cast_neg, Int.cast_one]
  next =>
    split
    next => rw [h.roots_eq (by omega)]
    next => rw [h.roots_eq (by omega), Int.cast_neg]

/-- The roots of an inverse stage undo those of the forward one. -/
theorem Sound.roots_opposite {t b : ℕ} (ht : t < T) (hb : b < 2 ^ t) :
    o.roots ε N q (2 ^ t + b)
      * (o.nttOpts ε N true).inverseRoot (ZMod q) T t b = -1 := by
  have hle := h.stages_le
  have hpow : 2 ^ t + 2 ^ t ≤ 2 ^ T := by
    rw [← Nat.two_mul, ← pow_succ']
    exact Nat.pow_le_pow_right two_pos ht
  have hzero := h.cast_eq_zero.mpr (h.opposite t ht b hb)
  rw [Int.cast_add, Int.cast_mul, Int.cast_one] at hzero
  unfold CoreOpts.inverseRoot
  rw [h.roots_eq (by omega), h.root_eq, if_pos (by omega)]
  exact eq_neg_of_add_eq_zero_left hzero

-- =========================================================== transforms

/-- `encode` is the stages, one after another. -/
theorem Sound.encode_eq (v : Vector ε N) :
    o.encode v = after o.field (o.nttOpts ε N false) v T := by
  have hlog : log2 N - (o.nttOpts ε N false).skipStages = T := by
    rw [log2_size h.size]
    exact Nat.add_sub_cancel _ _
  unfold encode core
  simp only [hlog]
  rfl

/-- `decode` is the stages, then each slot times the factor, which is the
inverse of the power of two that the stages leave. -/
theorem Sound.get_decode {v : Vector ε N} {x : ℕ} (hx : x < N)
    (hv : AllOk (Reduced o.Q) (after o.field (o.nttOpts ε N true) v T)) :
    get (o.decode v) x
      = o.F * get (after o.field (o.nttOpts ε N true) v T) x % o.Q := by
  have hlog : log2 N - (o.nttOpts ε N true).skipStages = T := by
    rw [log2_size h.size]
    exact Nat.add_sub_cancel _ _
  have hcore : core o.field (o.nttOpts ε N true) v
      = after o.field (o.nttOpts ε N true) v T := by
    unfold core
    simp only [hlog]
    rfl
  have hscale : ∀ i < N, mod (times o.F
      (get (after o.field (o.nttOpts ε N true) v T) i)) o.Q
        = o.F * get (after o.field (o.nttOpts ε N true) v T) i % o.Q := by
    intro i hi
    have hle := h.q_le
    obtain ⟨hlow, hhigh⟩ := hv i hi
    obtain ⟨hF, hF'⟩ := h.factor
    rw [h.mod_eq, times_of_le (m := 2 ^ 23) (n := 2 ^ 23)
      (abs_le.mpr (by omega)) (abs_le.mpr (by omega)) (by norm_num)]
  unfold decode
  rw [hcore, get_loop_set (f := fun _ y => mod (times o.F y) o.Q) le_rfl
    (fun i hi => by
      rw [hscale i hi]
      exact h.keeps (reduced_emod h.q_pos _)), if_pos hx]
  exact hscale x hx

/-- The transform of an array, block by block. -/
theorem Sound.encode_residues {v : Vector ε N} (hv : AllOk o.Accepts v) :
    AllOk (Reduced o.Q) (o.encode v)
      ∧ Residues (o.roots ε N q) T o.blockLen (image (ZMod q) v)
        (image (ZMod q) (o.encode v)) := by
  obtain ⟨hred, hsplit⟩ := split_stages h.models (T := T)
    (o := o.nttOpts ε N false) rfl rfl (h.reduced_root false) h.size hv
  have hT := h.stages
  rw [h.encode_eq]
  constructor
  · have hlast := hred (T - 1) (by omega)
    rwa [Nat.sub_add_cancel (Nat.one_le_iff_ne_zero.mpr hT)] at hlast
  · have hrun := residue_run (l := o.blockLen)
      (fun t => image (ZMod q) (after o.field (o.nttOpts ε N false) v t))
      h.roots_square rfl hsplit T le_rfl
    rwa [Nat.sub_self, pow_zero, Nat.mul_one] at hrun

/-- Reduced numbers stay reduced on the way back. -/
theorem Sound.reduced_decode {p : Vector ε N} (hp : AllOk (Reduced o.Q) p) :
    AllOk (Reduced o.Q) (after o.field (o.nttOpts ε N true) p T)
      ∧ AllOk (Reduced o.Q) (o.decode p) := by
  obtain ⟨hred, -⟩ := merge_stages h.models (T := T)
    (o := o.nttOpts ε N true) rfl rfl (h.reduced_root true) h.size
    (fun x hx => h.accepts_of_reduced (hp x hx))
  have hT := h.stages
  have hlast := hred (T - 1) (by omega)
  rw [Nat.sub_add_cancel (Nat.one_le_iff_ne_zero.mpr hT)] at hlast
  refine ⟨hlast, ?_⟩
  intro x hx
  rw [h.get_decode hx hlast]
  exact reduced_emod h.q_pos _

/-- The classes of what is decoded. -/
theorem Sound.image_decode {p : Vector ε N} (hp : AllOk (Reduced o.Q) p)
    {x : ℕ} (hx : x < N) : image (ZMod q) (o.decode p) x
      = o.F * image (ZMod q) (after o.field (o.nttOpts ε N true) p T) x := by
  unfold image
  rw [h.get_decode hx (h.reduced_decode hp).1, h.cast_emod, Int.cast_mul]

/-- The factor undoes the doubling of each stage. -/
theorem Sound.cast_inverse : (o.F : ZMod q) * 2 ^ T = 1 := by
  have hzero := h.cast_eq_zero.mpr h.inverse
  rw [Int.cast_sub, Int.cast_mul, Int.cast_pow, Int.cast_one,
    Int.cast_ofNat] at hzero
  exact sub_eq_zero.mp hzero

/-- **Decoding undoes encoding**, in the ring of residues: mergings undo
splittings up to a power of two, and the factor is its inverse. -/
theorem Sound.decode_transform {v p : Vector ε N} (hv : AllOk o.Accepts v)
    (hp : AllOk (Reduced o.Q) p)
    (hpv : ∀ x < N, image (ZMod q) p x = image (ZMod q) (o.encode v) x) :
    ∀ x < N, image (ZMod q) (o.decode p) x = image (ZMod q) v x := by
  obtain ⟨-, hsplit⟩ := split_stages h.models (T := T)
    (o := o.nttOpts ε N false) rfl rfl (h.reduced_root false) h.size hv
  obtain ⟨-, hmerge⟩ := merge_stages h.models (T := T)
    (o := o.nttOpts ε N true) rfl rfl (h.reduced_root true) h.size
    (fun x hx => h.accepts_of_reduced (hp x hx))
  intro x hx
  rw [← h.size] at hx
  rw [h.encode_eq] at hpv
  have hrun := merge_run (l := o.blockLen)
    (w := fun t => image (ZMod q) (after o.field (o.nttOpts ε N false) v t))
    (u := fun t => image (ZMod q) (after o.field (o.nttOpts ε N true) p t))
    hsplit hmerge (fun t ht b hb => h.roots_opposite ht hb)
    (fun y hy => hpv y (h.size ▸ hy)) T le_rfl x hx
  rw [Nat.sub_self] at hrun
  rw [h.image_decode hp (h.size ▸ hx), hrun, ← mul_assoc, h.cast_inverse,
    one_mul]
  rfl

/-- **Encoding undoes decoding**, in the ring of residues, by the same with
the two runs exchanged. -/
theorem Sound.encode_transform {p : Vector ε N} (hp : AllOk (Reduced o.Q) p) :
    ∀ x < N, image (ZMod q) (o.encode (o.decode p)) x = image (ZMod q) p x := by
  have hred := (h.reduced_decode hp).2
  obtain ⟨-, hsplit⟩ := split_stages h.models (T := T)
    (o := o.nttOpts ε N false) rfl rfl (h.reduced_root false) h.size
    (fun x hx => h.accepts_of_reduced (hred x hx))
  obtain ⟨-, hmerge⟩ := merge_stages h.models (T := T)
    (o := o.nttOpts ε N true) rfl rfl (h.reduced_root true) h.size
    (fun x hx => h.accepts_of_reduced (hp x hx))
  intro x hx
  rw [← h.size] at hx
  have hrun := split_run (l := o.blockLen) (s := (o.F : ZMod q))
    (w := fun t => image (ZMod q) (after o.field (o.nttOpts ε N true) p t))
    (u := fun t => image (ZMod q)
      (after o.field (o.nttOpts ε N false) (o.decode p) t))
    hmerge hsplit (fun t ht b hb => h.roots_opposite ht hb)
    (fun y hy => h.image_decode hp (h.size ▸ hy)) T le_rfl x hx
  rw [Nat.sub_self, h.cast_inverse, one_mul] at hrun
  rw [h.encode_eq]
  exact hrun

omit h

/-- Reduced arrays are the same when their classes are. -/
theorem Sound.ext_image (h : o.Sound ε N T q) {u v : Vector ε N}
    (hu : AllOk (Reduced o.Q) u) (hv : AllOk (Reduced o.Q) v)
    (huv : ∀ x < N, image (ZMod q) u x = image (ZMod q) v x) : u = v :=
  ext_get fun x hx => h.reduced_injective (hu x hx) (hv x hx) (huv x hx)

include h

/-- **Decoding undoes encoding.** -/
theorem Sound.decode_encode {v : Vector ε N} (hv : AllOk (Reduced o.Q) v) :
    o.decode (o.encode v) = v := by
  have haccepts : AllOk o.Accepts v :=
    fun x hx => h.accepts_of_reduced (hv x hx)
  have hred := (h.encode_residues haccepts).1
  exact h.ext_image (h.reduced_decode hred).2 hv
    (h.decode_transform haccepts hred fun _ _ => rfl)

/-- **Encoding undoes decoding.** -/
theorem Sound.encode_decode {p : Vector ε N} (hp : AllOk (Reduced o.Q) p) :
    o.encode (o.decode p) = p := by
  have hred := (h.reduced_decode hp).2
  have hencode := (h.encode_residues
    fun x hx => h.accepts_of_reduced (hred x hx)).1
  exact h.ext_image hencode hp (h.encode_transform hp)

-- ============================================================ the ring

omit h

/-- The ring element an array stands for. -/
noncomputable def poly (q : ℕ) {ε : Type} [ArrayElement ε] {N : ℕ}
    (v : Vector ε N) : Ring (ZMod q) N := value N (image (ZMod q) v)

/-- The array is the transform of the ring element. -/
structure Hat (o : CrystalOpts) (T : ℕ) {q : ℕ} {ε : Type} [ArrayElement ε] {N : ℕ}
    (x : Ring (ZMod q) N) (p : Vector ε N) : Prop where
  reduced : AllOk (Reduced o.Q) p
  residues : ∃ v, value N v = x
    ∧ Residues (o.roots ε N q) T o.blockLen v (image (ZMod q) p)

include h

/-- The classes are more than one. -/
theorem Sound.nontrivial : Nontrivial (ZMod q) :=
  have : Fact (1 < q) := ⟨h.one_lt⟩
  inferInstance

/-- **Encoding an array** gives the transform of what it stands for. -/
theorem Sound.hat_encode {v : Vector ε N} (hv : AllOk o.Accepts v) :
    Hat o T (poly q v) (o.encode v) :=
  ⟨(h.encode_residues hv).1, _, rfl, (h.encode_residues hv).2⟩

/-- The array of the reduced numbers of some classes. -/
theorem Sound.exists_array (w : ℕ → ZMod q) :
    ∃ v : Vector ε N, AllOk (Reduced o.Q) v
      ∧ ∀ x < N, image (ZMod q) v x = w x := by
  have hq : NeZero q := ⟨by have := h.one_lt; omega⟩
  have hval : ∀ x, Reduced o.Q ((w x).val : ℤ) := by
    intro x
    rw [h.modulus]
    exact ⟨Int.natCast_nonneg _, Int.ofNat_lt.mpr (ZMod.val_lt (w x))⟩
  let v : Vector ε N := Vector.ofFn fun i : Fin N =>
    ArrayElement.convert ((w i).val : ℤ)
  have hget : ∀ x < N, get v x = ((w x).val : ℤ) := by
    intro x hx
    exact get_ofFn (f := fun x => ((w x).val : ℤ)) hx (h.keeps (hval x))
  refine ⟨v, ?_, ?_⟩
  · intro x hx
    rw [hget x hx]
    exact hval x
  · intro x hx
    unfold image
    rw [hget x hx, Int.cast_natCast, ZMod.natCast_zmod_val]

/-- **Decoding a transform** gives the reduced array of its element, and
there is only one such array. -/
theorem Sound.hat_decode {x : Ring (ZMod q) N} {p : Vector ε N}
    (hp : Hat o T x p) :
    AllOk (Reduced o.Q) (o.decode p) ∧ poly q (o.decode p) = x := by
  have := h.nontrivial
  obtain ⟨hred, w, rfl, hres⟩ := hp
  refine ⟨(h.reduced_decode hred).2, ?_⟩
  obtain ⟨v, hv, hvw⟩ := h.exists_array (ε := ε) (N := N) w
  have haccepts : AllOk o.Accepts v :=
    fun x hx => h.accepts_of_reduced (hv x hx)
  -- the transform of `w` is the one `encode` makes of the array
  have hsame : ∀ x < N, image (ZMod q) p x = image (ZMod q) (o.encode v) x := by
    intro x hx
    rw [← h.size] at hx
    apply Residues.unique (Nat.two_pow_pos _).ne' hres _ x hx
    exact (h.encode_residues haccepts).2.congr
      (fun y hy => hvw y (h.size ▸ hy)) (fun _ _ => rfl)
  apply value_congr
  intro x hx
  rw [h.decode_transform haccepts hred hsame x hx, hvw x hx]

/-- An array is the transform of one element. -/
theorem Sound.hat_unique {x y : Ring (ZMod q) N} {p : Vector ε N}
    (hx : Hat o T x p) (hy : Hat o T y p) : x = y :=
  (h.hat_decode hx).2.symm.trans (h.hat_decode hy).2

/-- Every reduced array is a transform. -/
theorem Sound.exists_hat {p : Vector ε N} (hp : AllOk (Reduced o.Q) p) :
    ∃ x : Ring (ZMod q) N, Hat o T x p := by
  have hred := (h.reduced_decode hp).2
  have hhat := h.hat_encode (fun x hx => h.accepts_of_reduced (hred x hx))
  rw [h.encode_decode hp] at hhat
  exact ⟨_, hhat⟩

/-- Sums of transforms are the transforms of sums. -/
theorem Sound.hat_linear (k : ZMod q) {x y : Ring (ZMod q) N}
    {u v w : Vector ε N} (hu : Hat o T x u) (hv : Hat o T y v)
    (hw : AllOk (Reduced o.Q) w)
    (hsum : ∀ i < N, image (ZMod q) w i
      = image (ZMod q) u i + k * image (ZMod q) v i) :
    Hat o T (x + AdjoinRoot.of _ k * y) w := by
  obtain ⟨-, a, rfl, ha⟩ := hu
  obtain ⟨-, b, rfl, hb⟩ := hv
  refine ⟨hw, fun i => a i + k * b i, value_linear k fun _ _ => rfl, ?_⟩
  exact Residues.linear k ha hb (fun _ _ => rfl)
    fun i hi => hsum i (h.size ▸ hi)

/-- A sum of transforms is the transform of the sum. -/
theorem Sound.hat_add {x y : Ring (ZMod q) N} {u v w : Vector ε N}
    (hu : Hat o T x u) (hv : Hat o T y v) (hw : AllOk (Reduced o.Q) w)
    (hsum : ∀ i < N, image (ZMod q) w i
      = image (ZMod q) u i + image (ZMod q) v i) : Hat o T (x + y) w := by
  have hhat := h.hat_linear 1 hu hv hw fun i hi => by rw [hsum i hi, one_mul]
  rwa [map_one, one_mul] at hhat

/-- A difference of transforms is the transform of the difference. -/
theorem Sound.hat_sub {x y : Ring (ZMod q) N} {u v w : Vector ε N}
    (hu : Hat o T x u) (hv : Hat o T y v) (hw : AllOk (Reduced o.Q) w)
    (hsum : ∀ i < N, image (ZMod q) w i
      = image (ZMod q) u i - image (ZMod q) v i) : Hat o T (x - y) w := by
  have hhat := h.hat_linear (-1) hu hv hw fun i hi => by rw [hsum i hi]; ring
  rwa [map_neg, map_one, neg_one_mul, ← sub_eq_add_neg] at hhat

/-- **Products of transforms** are the transforms of products: blocks are
multiplied modulo what they are residues of. -/
theorem Sound.hat_mul {x y : Ring (ZMod q) N} {u v w : Vector ε N}
    (hu : Hat o T x u) (hv : Hat o T y v) (hw : AllOk (Reduced o.Q) w)
    (hproduct : IsProduct (o.roots ε N q) T o.blockLen (image (ZMod q) u)
      (image (ZMod q) v) (image (ZMod q) w)) : Hat o T (x * y) w := by
  have := h.nontrivial
  obtain ⟨-, a, rfl, ha⟩ := hu
  obtain ⟨-, b, rfl, hb⟩ := hv
  refine ⟨hw, convolve N a b, (value_mul a b).symm, ?_⟩
  apply Residues.mul h.roots_square ha hb hproduct
  rw [h.size]
  exact value_eq_mul_iff.mp (value_mul a b).symm

/-- The transform of zero is zero. -/
theorem Sound.hat_zero : Hat o T (0 : Ring (ZMod q) N) (zeros ε N) := by
  have hzero : ∀ i < N, image (ZMod q) (zeros ε N) i = 0 := by
    intro i _
    unfold image
    rw [get_zeros, Int.cast_zero]
  have hred : AllOk (Reduced o.Q) (zeros ε N) := by
    intro i _
    rw [get_zeros]
    exact ⟨le_rfl, h.q_pos⟩
  obtain ⟨x, hx⟩ := h.exists_hat hred
  have hhat := h.hat_sub hx hx hred fun i hi => by rw [hzero i hi, sub_zero]
  rwa [sub_self] at hhat

end CrystalOpts

end KxcoPostQuantum.Vendor
