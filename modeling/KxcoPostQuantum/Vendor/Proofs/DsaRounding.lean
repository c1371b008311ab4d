/-
Rounding in ML-DSA: high and low bits, and the hint between them.

The multiples of `2 * GAMMA2` are the middles of buckets; the last one is
the first again, since `HINT_M` buckets are one less than the modulus.
`Splits P x r1 r0` says that `x` lies in the bucket `r1` at the offset `r0`.
Every number splits in one way only (`Splits.unique`), and `decompose`
finds it (`decompose_splits`).

From it the rest follows by looking where numbers lie. A number that moves
less than its distance to the edge stays in its bucket (`highBits_near`).
One that moves by less than a bucket comes to the same or to a neighbouring
bucket, and the hint that `MakeHint` takes from the offset brings
`UseHint` back (`useHint_makeHint`). Power2Round splits a number into
multiples of `2 ^ D` (`power2Round_spec`).
-/
import KxcoPostQuantum.Vendor.Proofs.DsaPoly

namespace KxcoPostQuantum.Vendor.MlDsa

variable (P : Params)

-- ============================================================ constants

/-- Half of a bucket where there are 44 of them. -/
theorem gamma2_1 : GAMMA2_1 = 95232 :=
  floorQuotient_mul (k := 95232) (b := 88) (by norm_num) (by norm_num)

/-- Half of a bucket where there are 16 of them. -/
theorem gamma2_2 : GAMMA2_2 = 261888 :=
  floorQuotient_mul (k := 261888) (b := 32) (by norm_num) (by norm_num)

/-- The two bucket sizes, with the number of buckets. -/
theorem gamma2_cases : (P.GAMMA2 = 95232 ∧ HINT_M P = 44)
    ∨ (P.GAMMA2 = 261888 ∧ HINT_M P = 16) := by
  have hcount : ∀ k b : ℤ, b ≠ 0 → |k| < 2 ^ 53 → Q - 1 = k * b →
      2 * P.GAMMA2 = b → HINT_M P = k := by
    intro k b hb hk hQ hgamma
    unfold HINT_M
    rw [hQ, hgamma]
    exact floorQuotient_mul hb hk
  rcases P.gamma2_known with h | h
  · rw [gamma2_1] at h
    exact Or.inl ⟨h, hcount 44 190464 (by norm_num) (by norm_num) (by decide)
      (by rw [h]; norm_num)⟩
  · rw [gamma2_2] at h
    exact Or.inr ⟨h, hcount 16 523776 (by norm_num) (by norm_num) (by decide)
      (by rw [h]; norm_num)⟩

-- ============================================================== buckets

/-- The number lies in the bucket `r1`, at the offset `r0`. -/
structure Splits (x r1 r0 : ℤ) : Prop where
  bucket : 0 ≤ r1 ∧ r1 < HINT_M P
  offset : -P.GAMMA2 ≤ r0 ∧ r0 ≤ P.GAMMA2
  edge : r0 = -P.GAMMA2 → r1 = 0
  eq : Q ∣ x - (r1 * (2 * P.GAMMA2) + r0)

variable {P} {x y r1 r0 s1 s0 : ℤ}

/-- A number lies in one bucket only, at one offset. Two places for it are
less than the modulus apart, so they are the same place, and two offsets are
less than a bucket apart, but for the edge, which the first bucket alone
has. -/
theorem Splits.unique (h : Splits P x r1 r0) (h' : Splits P x s1 s0) :
    r1 = s1 ∧ r0 = s0 := by
  obtain ⟨⟨hr1, hr1'⟩, ⟨hr0, hr0'⟩, hedge, hr⟩ := h
  obtain ⟨⟨hs1, hs1'⟩, ⟨hs0, hs0'⟩, hedge', hs⟩ := h'
  have hdvd := dvd_sub hs hr
  obtain ⟨k, hk⟩ := hdvd
  unfold Q at hk
  -- the two places are less than the modulus apart, so they are the same
  have hsame : r1 * (2 * P.GAMMA2) + r0 = s1 * (2 * P.GAMMA2) + s0 := by
    rcases gamma2_cases P with ⟨hgamma, hcount⟩ | ⟨hgamma, hcount⟩
    · rw [hgamma] at hr0 hr0' hs0 hs0' hk ⊢
      have hzero : k = 0 := by omega
      omega
    · rw [hgamma] at hr0 hr0' hs0 hs0' hk ⊢
      have hzero : k = 0 := by omega
      omega
  rcases lt_trichotomy r1 s1 with hlt | heq | hlt
  · exfalso
    have hstep := Int.mul_le_mul_of_nonneg_right (Int.add_one_le_of_lt hlt)
      (show 0 ≤ 2 * P.GAMMA2 by omega)
    rw [add_mul, one_mul] at hstep
    have hedge' := hedge' (by omega)
    omega
  · rw [heq] at hsame ⊢
    omega
  · exfalso
    have hstep := Int.mul_le_mul_of_nonneg_right (Int.add_one_le_of_lt hlt)
      (show 0 ≤ 2 * P.GAMMA2 by omega)
    rw [add_mul, one_mul] at hstep
    have hedge := hedge (by omega)
    omega

/-- The centered remainder of a reduced number, and what it leaves. -/
theorem smod_bucket {x a : ℤ} (ha : 0 < a) (hsmall : a < 2 ^ 31)
    (heven : a % 2 = 0) : ∃ k, x = k * a + smod x a
      ∧ -a < 2 * smod x a ∧ 2 * smod x a ≤ a := by
  have hlow := Int.emod_nonneg x ha.ne'
  have hhigh := Int.emod_lt_of_pos x ha
  have hdiv := Int.mul_ediv_add_emod x a
  rw [smod_eq ha hsmall]
  split
  next h =>
    refine ⟨x / a + 1, ?_, by omega, by omega⟩
    rw [add_mul, one_mul, mul_comm (x / a)]
    omega
  next h =>
    refine ⟨x / a, ?_, by omega, by omega⟩
    rw [mul_comm (x / a)]
    omega

/-- **decompose finds the bucket**, by the two cases of the program: where
what is left of the high part is the modulus less one, the high bits are
zero and the offset is one less. -/
theorem decompose_splits (x : ℤ) :
    Splits P x (decompose P x).1 (decompose P x).2 := by
  obtain ⟨hlow, hhigh⟩ := reduced_mod x
  have hclass : Q ∣ x - mod x Q := by
    rw [show mod x Q = x % Q from sound.mod_eq x]
    exact Int.dvd_self_sub_emod
  have hgamma : 0 < 2 * P.GAMMA2 ∧ 2 * P.GAMMA2 < 2 ^ 30 := by
    rcases gamma2_cases P with ⟨h, -⟩ | ⟨h, -⟩ <;> omega
  obtain ⟨k, hk, hmin, hmax⟩ := smod_bucket (x := mod x Q) hgamma.1
    (by omega) (by omega)
  have hsmall : toInt32 (smod (mod x Q) (2 * P.GAMMA2))
      = smod (mod x Q) (2 * P.GAMMA2) := toInt32_of_range (by omega) (by omega)
  unfold decompose
  simp only [hsmall]
  generalize mod x Q = rPlus at *
  generalize smod rPlus (2 * P.GAMMA2) = e at *
  have hquotient : floorQuotient (rPlus - e) (2 * P.GAMMA2) = k := by
    rw [show rPlus - e = k * (2 * P.GAMMA2) by omega]
    apply floorQuotient_mul (by omega)
    rw [abs_lt]
    unfold Q at hhigh
    rcases gamma2_cases P with ⟨h, -⟩ | ⟨h, -⟩ <;> rw [h] at hk hmin hmax <;> omega
  obtain ⟨c, hc⟩ := hclass
  unfold Q at hc hhigh
  split
  next htop =>
    unfold Q at htop
    have hedge : toInt32 (e - 1) = e - 1 := toInt32_of_range (by omega) (by omega)
    rw [hedge]
    refine ⟨?_, ?_, fun _ => rfl, ⟨c + 1, ?_⟩⟩
    · rcases gamma2_cases P with ⟨-, h⟩ | ⟨-, h⟩ <;> omega
    · dsimp only
      omega
    · dsimp only
      unfold Q
      omega
  next htop =>
    unfold Q at htop
    rw [hquotient]
    have hk' : toInt32 k = k := by
      apply toInt32_of_range
      · rcases gamma2_cases P with ⟨h, -⟩ | ⟨h, -⟩ <;> rw [h] at hk hmin hmax
          <;> omega
      · rcases gamma2_cases P with ⟨h, -⟩ | ⟨h, -⟩ <;> rw [h] at hk hmin hmax
          <;> omega
    rw [hk']
    refine ⟨?_, ?_, ?_, ⟨c, ?_⟩⟩
    · rcases gamma2_cases P with ⟨h, h'⟩ | ⟨h, h'⟩ <;> rw [h] at hk hmin hmax
        <;> omega
    · dsimp only
      omega
    · dsimp only
      omega
    · dsimp only
      unfold Q
      omega

/-- Where a number lies is what decompose finds. -/
theorem Splits.decompose_eq (h : Splits P x r1 r0) : decompose P x = (r1, r0) := by
  obtain ⟨hbucket, hoffset⟩ := (decompose_splits x).unique h
  exact Prod.ext hbucket hoffset

/-- A number's two parts. -/
theorem decompose_eta (x : ℤ) :
    decompose P x = (HighBits P x, LowBits P x) := rfl

/-- Numbers that differ by a multiple of the modulus have the same parts. -/
theorem decompose_congr (h : Q ∣ x - y) : decompose P x = decompose P y := by
  have hy := decompose_splits (P := P) y
  have hx : Splits P x (decompose P y).1 (decompose P y).2 := by
    refine ⟨hy.bucket, hy.offset, hy.edge, ?_⟩
    have hsum := h.add hy.eq
    rwa [sub_add_sub_cancel] at hsum
  exact hx.decompose_eq

/-- **A number that stays clear of the edge stays in its bucket**: where its
offset is further from the edge than it is moved, it keeps its high bits. -/
theorem highBits_near {b : ℤ} (hlow : |LowBits P x| < P.GAMMA2 - b)
    (hmove : |y - x| ≤ b) : HighBits P y = HighBits P x := by
  have hx := decompose_splits (P := P) x
  rw [abs_lt] at hlow
  rw [abs_le] at hmove
  unfold LowBits at hlow
  have hy : Splits P y (decompose P x).1 ((decompose P x).2 + (y - x)) := by
    refine ⟨hx.bucket, by omega, by omega, ?_⟩
    have heq := hx.eq
    rwa [show y - ((decompose P x).1 * (2 * P.GAMMA2)
        + ((decompose P x).2 + (y - x)))
      = x - ((decompose P x).1 * (2 * P.GAMMA2) + (decompose P x).2) by ring]
  unfold HighBits
  rw [hy.decompose_eq]

/-- The bucket of a number, in the circle of buckets. -/
def bucket (P : Params) (r : ℤ) : ℤ := toInt32 (mod r (HINT_M P))

/-- The buckets go round: one before the first is the last, and one behind
the last is the first. -/
theorem bucket_eq {r : ℤ} (hr : -1 ≤ r ∧ r ≤ HINT_M P) : bucket P r
    = if r = -1 then HINT_M P - 1 else if r = HINT_M P then 0 else r := by
  have hcases := gamma2_cases P
  have hmod : mod r (HINT_M P)
      = if r = -1 then HINT_M P - 1 else if r = HINT_M P then 0 else r := by
    rw [mod_eq (by omega) (by omega)]
    split
    next h =>
      rw [h, ← Int.add_emod_right, Int.emod_eq_of_lt (by omega) (by omega)]
      ring
    next =>
      split
      next h => rw [h, Int.emod_self]
      next => exact Int.emod_eq_of_lt (by omega) (by omega)
  unfold bucket
  rw [hmod]
  apply toInt32_of_range
  · split
    next => omega
    next => split <;> omega
  · split
    next => omega
    next => split <;> omega

/-- The offset is still one of the bucket `r1`. -/
def Stays (P : Params) (r1 s : ℤ) : Prop :=
  (-P.GAMMA2 < s ∧ s ≤ P.GAMMA2) ∨ (s = -P.GAMMA2 ∧ r1 = 0)

/-- Where a number comes to that moves by less than a bucket: it stays, or
it comes to the upper half of the previous bucket, or to the lower half of
the next. -/
theorem moved_cases {z : ℤ} (hx : decompose P x = (r1, r0))
    (hs : |r0 + z| < 2 * P.GAMMA2) :
    (Stays P r1 (r0 + z) ∧ decompose P (x + z) = (r1, r0 + z))
      ∨ (¬Stays P r1 (r0 + z)
        ∧ ∃ s0, 0 < s0 ∧ decompose P (x + z) = (bucket P (r1 - 1), s0))
      ∨ (¬Stays P r1 (r0 + z)
        ∧ ∃ s0, s0 ≤ 0 ∧ decompose P (x + z) = (bucket P (r1 + 1), s0)) := by
  have hsplits := decompose_splits (P := P) x
  rw [hx] at hsplits
  obtain ⟨⟨hbucket, hbucket'⟩, -, -, hclass⟩ := hsplits
  dsimp only at hbucket hbucket' hclass
  have hsplit : ∀ {s1 s0}, 0 ≤ s1 ∧ s1 < HINT_M P →
      -P.GAMMA2 ≤ s0 ∧ s0 ≤ P.GAMMA2 → (s0 = -P.GAMMA2 → s1 = 0) →
      Q ∣ r1 * (2 * P.GAMMA2) + (r0 + z) - (s1 * (2 * P.GAMMA2) + s0) →
      decompose P (x + z) = (s1, s0) := by
    intro s1 s0 hs1 hs0 hedge hdvd
    apply Splits.decompose_eq
    refine ⟨hs1, hs0, hedge, ?_⟩
    rw [show x + z - (s1 * (2 * P.GAMMA2) + s0)
      = x - (r1 * (2 * P.GAMMA2) + r0)
        + (r1 * (2 * P.GAMMA2) + (r0 + z) - (s1 * (2 * P.GAMMA2) + s0)) by ring]
    exact hclass.add hdvd
  have hgamma := gamma2_cases P
  have hcircle : HINT_M P * (2 * P.GAMMA2) = Q - 1 := by
    unfold Q
    rcases hgamma with ⟨h, h'⟩ | ⟨h, h'⟩ <;> rw [h, h'] <;> norm_num
  rw [abs_lt] at hs
  generalize r0 + z = s at *
  by_cases hstays : Stays P r1 s
  · have hstays' := hstays
    unfold Stays at hstays'
    exact Or.inl ⟨hstays, hsplit ⟨hbucket, hbucket'⟩ (by omega) (by omega)
      ⟨0, by ring⟩⟩
  · right
    have hleaves := hstays
    unfold Stays at hleaves
    by_cases hdown : s ≤ -P.GAMMA2
    · refine Or.inl ⟨hstays, ?_⟩
      rw [bucket_eq (by omega)]
      by_cases hzero : r1 = 0
      · rw [if_pos (by omega)]
        exact ⟨s + 2 * P.GAMMA2 + 1, by omega, hsplit (by omega) (by omega)
          (by omega) ⟨-1, by rw [hzero, sub_mul, one_mul, hcircle]; ring⟩⟩
      · rw [if_neg (by omega), if_neg (by omega)]
        exact ⟨s + 2 * P.GAMMA2, by omega, hsplit (by omega) (by omega)
          (by omega) ⟨0, by ring⟩⟩
    · refine Or.inr ⟨hstays, ?_⟩
      rw [bucket_eq (by omega), if_neg (by omega)]
      by_cases hlast : r1 + 1 = HINT_M P
      · have hr1 : r1 * (2 * P.GAMMA2) = Q - 1 - 2 * P.GAMMA2 := by
          rw [← hcircle, ← hlast]
          ring
        rw [if_pos hlast]
        exact ⟨s - 2 * P.GAMMA2 - 1, by omega, hsplit (by omega) (by omega)
          (fun _ => rfl) ⟨1, by rw [hr1]; ring⟩⟩
      · rw [if_neg hlast]
        exact ⟨s - 2 * P.GAMMA2, by omega, hsplit (by omega) (by omega)
          (by omega) ⟨0, by ring⟩⟩

/-- A step back in the circle. -/
theorem bucket_step {d : ℤ} (hd : d = 1 ∨ d = -1)
    (hr : 0 ≤ r1 ∧ r1 < HINT_M P) : bucket P (bucket P (r1 + d) - d) = r1 := by
  have hcases := gamma2_cases P
  rw [bucket_eq (r := r1 + d) (by omega)]
  rcases hd with rfl | rfl
  · rw [if_neg (by omega)]
    split
    next =>
      rw [bucket_eq (by omega), if_pos (by omega)]
      omega
    next =>
      rw [bucket_eq (by omega), if_neg (by omega), if_neg (by omega)]
      omega
  · split
    next =>
      rw [bucket_eq (by omega), if_neg (by omega), if_pos (by omega)]
      omega
    next =>
      rw [if_neg (by omega), bucket_eq (by omega), if_neg (by omega),
        if_neg (by omega)]
      omega

/-- A neighbour is another bucket. -/
theorem bucket_ne {d : ℤ} (hd : d = 1 ∨ d = -1)
    (hr : 0 ≤ r1 ∧ r1 < HINT_M P) : bucket P (r1 + d) ≠ r1 := by
  have hcases := gamma2_cases P
  rw [bucket_eq (by omega)]
  split
  next => omega
  next => split <;> omega

-- ================================================================ hints

/-- A hint leads to the bucket above where the offset is positive. -/
theorem useHint_up (h : decompose P x = (r1, r0)) (hr0 : 0 < r0) :
    UseHint P 1 x = bucket P (r1 + 1) := by
  unfold UseHint
  rw [h]
  simp only
  rw [if_pos trivial, if_pos hr0]
  rfl

/-- A hint leads to the bucket below where it is not. -/
theorem useHint_down (h : decompose P x = (r1, r0)) (hr0 : r0 ≤ 0) :
    UseHint P 1 x = bucket P (r1 - 1) := by
  unfold UseHint
  rw [h]
  simp only
  rw [if_pos trivial, if_neg (not_lt.mpr hr0)]
  rfl

/-- No hint leads to the bucket itself. -/
theorem useHint_zero (h : decompose P x = (r1, r0)) :
    UseHint P 0 x = toInt32 r1 := by
  unfold UseHint
  rw [h]
  simp only
  rw [if_neg (by norm_num)]

instance (r1 s : ℤ) : Decidable (Stays P r1 s) :=
  inferInstanceAs (Decidable (_ ∨ _))

/-- The hint is zero where the number stays in its bucket, as far as the
numbers go that a signer adds: less than two widths. -/
theorem makeHint_eq {s : ℤ} (hs : |s| < 2 * P.GAMMA2) :
    MakeHint P (mod s Q) r1 = if Stays P r1 s then 0 else 1 := by
  rw [abs_lt] at hs
  have hgamma := gamma2_cases P
  have hmod : mod s Q = if 0 ≤ s then s else s + Q := by
    rw [show mod s Q = s % Q from sound.mod_eq s]
    unfold Q
    split
    next => exact Int.emod_eq_of_lt (by omega) (by omega)
    next =>
      rw [← Int.add_emod_right]
      exact Int.emod_eq_of_lt (by omega) (by omega)
  unfold MakeHint
  rw [hmod]
  apply if_congr _ rfl rfl
  unfold Q Stays
  split
  next => omega
  next => omega

/-- **The hint brings back the bucket** of a number that moves by less than
a bucket from the middle of the one it is in. -/
theorem useHint_makeHint {z : ℤ} (hs : |LowBits P x + z| < 2 * P.GAMMA2) :
    UseHint P (MakeHint P (mod (LowBits P x + z) Q) (HighBits P x)) (x + z)
      = HighBits P x := by
  have hbucket : 0 ≤ HighBits P x ∧ HighBits P x < HINT_M P :=
    (decompose_splits x).bucket
  have hcases := gamma2_cases P
  rw [makeHint_eq hs]
  rcases moved_cases (decompose_eta x) hs with ⟨hstays, h⟩ | ⟨hstays, s0, hs0, h⟩
    | ⟨hstays, s0, hs0, h⟩
  · rw [if_pos hstays, useHint_zero h]
    exact toInt32_of_range (by omega) (by omega)
  · rw [if_neg hstays, useHint_up h hs0]
    exact bucket_step (d := -1) (Or.inr rfl) hbucket
  · rw [if_neg hstays, useHint_down h hs0]
    exact bucket_step (d := 1) (Or.inl rfl) hbucket

/-- **The hint is set where the high bits change**, which is how FIPS 204
defines it, and then brings back the old ones. The program does not compute
the definition: it looks at the low bits only, with a case of its own where
they are the least and the high bits are zero. -/
theorem makeHint_iff (P : Params) (x : ℤ) {z : ℤ} (hz : |z| < P.GAMMA2) :
    (MakeHint P (mod (LowBits P x + z) Q) (HighBits P x) = 1
        ↔ HighBits P (x + z) ≠ HighBits P x)
      ∧ UseHint P (MakeHint P (mod (LowBits P x + z) Q) (HighBits P x)) (x + z)
        = HighBits P x := by
  have hoffset : -P.GAMMA2 ≤ LowBits P x ∧ LowBits P x ≤ P.GAMMA2 :=
    (decompose_splits x).offset
  have hs : |LowBits P x + z| < 2 * P.GAMMA2 := by
    rw [abs_lt] at *
    omega
  refine ⟨?_, useHint_makeHint hs⟩
  have hbucket : 0 ≤ HighBits P x ∧ HighBits P x < HINT_M P :=
    (decompose_splits x).bucket
  have hhigh : HighBits P (x + z) = (decompose P (x + z)).1 := rfl
  rw [makeHint_eq hs, hhigh]
  rcases moved_cases (decompose_eta x) hs with ⟨hstays, h⟩ | ⟨hstays, s0, -, h⟩
    | ⟨hstays, s0, -, h⟩
  · rw [if_pos hstays, h]
    exact iff_of_false (by norm_num) (not_not_intro rfl)
  · rw [if_neg hstays, h]
    exact iff_of_true rfl (bucket_ne (d := -1) (Or.inr rfl) hbucket)
  · rw [if_neg hstays, h]
    exact iff_of_true rfl (bucket_ne (d := 1) (Or.inl rfl) hbucket)

/-- The number 95232 is the last of its bucket: one more needs a hint. -/
theorem makeHint_iff_one : (MakeHint (PARAMS .ml_dsa44) (mod (LowBits
        (PARAMS .ml_dsa44) 95232 + 1) Q) (HighBits (PARAMS .ml_dsa44) 95232) = 1
      ↔ HighBits (PARAMS .ml_dsa44) (95232 + 1)
        ≠ HighBits (PARAMS .ml_dsa44) 95232)
    ∧ UseHint (PARAMS .ml_dsa44) (MakeHint (PARAMS .ml_dsa44) (mod (LowBits
        (PARAMS .ml_dsa44) 95232 + 1) Q) (HighBits (PARAMS .ml_dsa44) 95232))
        (95232 + 1)
      = HighBits (PARAMS .ml_dsa44) 95232 :=
  makeHint_iff (PARAMS .ml_dsa44) 95232
    (by
      rw [show (PARAMS .ml_dsa44).GAMMA2 = 95232 from gamma2_1]
      norm_num)

-- ========================================================== Power2Round

/-- Power2Round splits a reduced number into a multiple of `2 ^ D`, of ten
bits, and a remainder of thirteen. -/
theorem power2Round_spec (x : ℤ) :
    (Power2Round x).1 * 2 ^ D + (Power2Round x).2 = mod x Q
      ∧ Reduced (2 ^ 10) (Power2Round x).1
      ∧ -2 ^ 12 < (Power2Round x).2 ∧ (Power2Round x).2 ≤ 2 ^ 12 := by
  obtain ⟨hlow, hhigh⟩ := reduced_mod x
  obtain ⟨k, hk, hmin, hmax⟩ := smod_bucket (x := mod x Q) (a := 2 ^ D)
    (by decide) (by decide) (by decide)
  unfold Power2Round
  dsimp only
  generalize mod x Q = rPlus at *
  generalize smod rPlus (2 ^ D) = e at *
  unfold Q at hhigh
  have hpow : (2 : ℤ) ^ D = 8192 := by decide
  rw [hpow] at hk hmin hmax ⊢
  have he : toInt32 e = e := toInt32_of_range (by omega) (by omega)
  have hquotient : floorQuotient (rPlus - e) 8192 = k := by
    rw [show rPlus - e = k * 8192 by omega]
    exact floorQuotient_mul (by norm_num) (abs_lt.mpr (by omega))
  rw [he, hquotient, toInt32_of_range (by omega) (by omega)]
  refine ⟨by omega, ⟨by omega, by omega⟩, by omega, by omega⟩

end KxcoPostQuantum.Vendor.MlDsa
