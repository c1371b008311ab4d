/-
A signature that is made is accepted.

The argument is the one of the scheme. What the verifier computes of a row
is `w - c * s2 + c * t0` (`approx_eq`), the challenge times a short vector
is short (`challenge_short`), and the signer goes on only where `w - c * s2`
stays clear of the edges of its bucket and `c * t0` moves it by less than a
bucket. So the hint brings the verifier back to the high bits of `w`
(`polyUseHint_honest`), which hash to the challenge again. Where the signer
returns at all it has been through such a pass (`signLoop_ok`), and what it
returns is read back as it was written (`sig_writes`).
-/
import KxcoPostQuantum.Vendor.Proofs.DsaKeys

namespace KxcoPostQuantum.Vendor.MlDsa

open Lib Lib.Ntt Lib.Negacyclic CrystalOpts

-- ========================================================== coefficients

/-- Numbers that differ by a multiple of the modulus are reduced alike. -/
theorem mod_congr {x y : ℤ} (h : Q ∣ x - y) : mod x Q = mod y Q := by
  rw [show mod x Q = x % Q from sound.mod_eq x,
    show mod y Q = y % Q from sound.mod_eq y]
  exact (Int.modEq_iff_dvd.mpr h).symm

/-- A number and what it is reduced to differ by a multiple of the
modulus. -/
theorem dvd_sub_mod (x : ℤ) : Q ∣ x - mod x Q := by
  rw [show mod x Q = x % Q from sound.mod_eq x]
  exact Int.dvd_self_sub_emod

/-- So do a number and what it is reduced to around zero. -/
theorem dvd_sub_smod (x : ℤ) : Q ∣ x - smod x Q := by
  have hclass : Q ∣ x - x % Q := Int.dvd_self_sub_emod
  rw [smod_eq (by decide) (by decide)]
  split
  next =>
    rw [show x - (x % Q - Q) = x - x % Q + Q by ring]
    exact hclass.add dvd_rfl
  next => exact hclass

/-- Such numbers are reduced around zero alike. -/
theorem smod_congr {x y : ℤ} (h : Q ∣ x - y) : smod x Q = smod y Q := by
  have hsame : x % Q = y % Q := (Int.modEq_iff_dvd.mpr h).symm
  rw [smod_eq (by decide) (by decide), smod_eq (by decide) (by decide), hsame]

variable {P : Params}

/-- A hint is used on the class of a number, not on the number. -/
theorem useHint_congr {x y : ℤ} (hint : ℤ) (h : Q ∣ x - y) :
    UseHint P hint x = UseHint P hint y := by
  unfold UseHint
  rw [decompose_congr h]

/-- **A coefficient of the verifier**: it comes from `w` by the small `e`
and the moderate `t`, and the hint brings back the high bits of `w`. -/
theorem useHint_honest {w e x t b : ℤ} (hx : Q ∣ x - (w - e)) (he : |e| ≤ b)
    (hlow : |LowBits P x| < P.GAMMA2 - b) (ht : |smod t Q| < P.GAMMA2) :
    UseHint P (MakeHint P (mod (LowBits P x + t) Q) (HighBits P w))
      (mod (x + t) Q) = HighBits P w := by
  have hb : 0 ≤ b := (abs_nonneg e).trans he
  have hnear : HighBits P (x + e) = HighBits P x :=
    highBits_near hlow (by rwa [add_sub_cancel_left])
  have hhigh : HighBits P w = HighBits P x := by
    rw [← hnear]
    unfold HighBits
    rw [decompose_congr (x := x + e) (y := w)]
    rwa [show x + e - w = x - (w - e) by ring]
  have hmoved : mod (LowBits P x + t) Q = mod (LowBits P x + smod t Q) Q := by
    apply mod_congr
    rw [add_sub_add_left_eq_sub]
    exact dvd_sub_smod t
  have hplace : Q ∣ mod (x + t) Q - (x + smod t Q) := by
    have hmod := (dvd_sub_mod (x + t)).neg_right
    rw [neg_sub] at hmod
    have hsum := hmod.add (dvd_sub_smod t)
    rwa [show mod (x + t) Q - (x + t) + (t - smod t Q)
      = mod (x + t) Q - (x + smod t Q) by ring] at hsum
  rw [hhigh, hmoved, useHint_congr _ hplace]
  apply useHint_makeHint
  rw [abs_lt] at *
  omega

/-- A hint is a bit. -/
theorem makeHint_binary (z r : ℤ) : MakeHint P z r = 0 ∨ MakeHint P z r = 1 := by
  unfold MakeHint
  split
  next => exact Or.inl rfl
  next => exact Or.inr rfl

-- ========================================================== polynomials

section

variable {a b p w cs2 ct0 : Poly}

/-- A polynomial passes the check of its norm where all its coefficients,
around zero, are below the bound. -/
theorem polyChknorm_false {B : ℤ} :
    polyChknorm p B = false ↔ ∀ j < N, |smod (get p j) Q| < B := by
  unfold polyChknorm
  rw [List.any_eq_false]
  constructor
  · intro h j hj
    have hlt := h j (List.mem_range.mpr hj)
    rw [decide_eq_true_iff] at hlt
    exact not_le.mp hlt
  · intro h j hj
    rw [decide_eq_true_iff]
    exact not_le.mpr (h j (List.mem_range.mp hj))

/-- Both parts of a number fit in an `Int32Array`. -/
theorem keeps_of_decompose (x : ℤ) :
    Keeps Int32 (HighBits P x) ∧ Keeps Int32 (LowBits P x) := by
  obtain ⟨hbucket, hoffset, -, -⟩ := decompose_splits (P := P) x
  have hcases := gamma2_cases P
  refine ⟨keeps_of_abs (abs_le.mpr ?_), keeps_of_abs (abs_le.mpr ?_)⟩
  · unfold HighBits
    omega
  · unfold LowBits
    omega

/-- The high part of a polynomial, slot by slot. -/
theorem get_highBits {j : ℕ} (hj : j < N) :
    get (mapPoly (HighBits P) p) j = HighBits P (get p j) :=
  get_mapPoly (fun i _ => (keeps_of_decompose (get p i)).1) hj

/-- The low part of a polynomial, slot by slot. -/
theorem get_lowBits {j : ℕ} (hj : j < N) :
    get (mapPoly (LowBits P) p) j = LowBits P (get p j) :=
  get_mapPoly (fun i _ => (keeps_of_decompose (get p i)).2) hj

/-- The low bits are their own centered remainders. -/
theorem smod_lowBits (x : ℤ) : smod (LowBits P x) Q = LowBits P x := by
  obtain ⟨-, hoffset, -, -⟩ := decompose_splits (P := P) x
  have hcases := gamma2_cases P
  apply smod_of_small
  unfold LowBits
  rw [abs_lt]
  omega

/-- A row of zeros and ones has as many ones as they sum up to. -/
theorem sum_binary (hp : Binary p) :
    ((List.range N).map (get p)).sum = (ones p).length := by
  have hrun : ∀ n ≤ N,
      ((List.range n).map (get p)).sum = (onesBelow p n).length := by
    intro n
    induction n with
    | zero => intro _; rfl
    | succ n ih =>
        intro hn
        rw [List.range_succ, List.map_append, List.sum_append,
          ih (Nat.le_of_succ_le hn), onesBelow_succ, List.map_singleton,
          List.sum_singleton]
        rcases hp n hn with h | h
        · rw [h, if_neg (not_not_intro rfl), add_zero]
        · rw [h, if_pos one_ne_zero, List.length_append, List.length_singleton]
          push_cast
          rfl
  exact hrun N le_rfl

/-- **The hint of a row**, and how many it has: zeros and ones, which are
counted while they are made. -/
theorem polyMakeHint_spec :
    (∀ j < N, get (polyMakeHint P a b).1 j = MakeHint P (get a j) (get b j))
      ∧ Binary (polyMakeHint P a b).1
      ∧ (polyMakeHint P a b).2 = (ones (polyMakeHint P a b).1).length := by
  have hrun := loop_induction (n := N)
    (b := fun i (s : Poly × ℤ) =>
      let h := MakeHint P (get a i) (get b i)
      (set s.1 i h, s.2 + h))
    (s := (newPoly, 0))
    (P := fun n s => (∀ j < n, get s.1 j = MakeHint P (get a j) (get b j))
      ∧ s.2 = ((List.range n).map fun j => MakeHint P (get a j) (get b j)).sum)
    ⟨fun j hj => absurd hj (Nat.not_lt_zero j), rfl⟩
    (by
      rintro n hn ⟨v, cnt⟩ ⟨hslots, hsum⟩
      dsimp only at hslots hsum ⊢
      have hkeeps : Keeps Int32 (MakeHint P (get a n) (get b n)) := by
        apply keeps_of_abs
        rcases makeHint_binary (P := P) (get a n) (get b n) with h | h
          <;> rw [h] <;> norm_num
      refine ⟨?_, ?_⟩
      · intro j hj
        rcases Nat.lt_succ_iff_lt_or_eq.mp hj with hlt | rfl
        · rw [get_set_of_ne (by omega)]
          exact hslots j hlt
        · exact get_set hn hkeeps
      · rw [List.range_succ, List.map_append, List.sum_append, ← hsum,
          List.map_singleton, List.sum_singleton])
  obtain ⟨hslots, hsum⟩ := hrun
  have hbinary : Binary (polyMakeHint P a b).1 := by
    intro j hj
    rw [show get (polyMakeHint P a b).1 j = _ from hslots j hj]
    exact makeHint_binary _ _
  refine ⟨hslots, hbinary, ?_⟩
  rw [← sum_binary hbinary]
  refine Eq.trans hsum (congrArg List.sum (List.map_congr_left ?_))
  intro j hj
  exact (hslots j (List.mem_range.mp hj)).symm

/-- **A row of the verifier**: the hint brings back the high bits of the
signer's row. The verifier's own differs from it by what the two norms keep
below the width of a bucket. -/
theorem polyUseHint_honest {beta : ℤ} {e : ℕ → ℤ}
    (he : ∀ j < N, Q ∣ get cs2 j - e j ∧ |e j| ≤ beta)
    (hlow : polyChknorm (mapPoly (LowBits P) (polySub w cs2))
      (P.GAMMA2 - beta) = false)
    (hct0 : polyChknorm ct0 P.GAMMA2 = false) :
    polyUseHint P (polyAdd (polySub w cs2) ct0)
        (polyMakeHint P (polyAdd (mapPoly (LowBits P) (polySub w cs2)) ct0)
          (mapPoly (HighBits P) w)).1
      = mapPoly (HighBits P) w := by
  rw [polyChknorm_false] at hlow hct0
  have hslot : ∀ j < N, UseHint P (get (polyMakeHint P
      (polyAdd (mapPoly (LowBits P) (polySub w cs2)) ct0)
        (mapPoly (HighBits P) w)).1 j) (get (polyAdd (polySub w cs2) ct0) j)
      = HighBits P (get w j) := by
    intro j hj
    have hlow := hlow j hj
    rw [get_lowBits hj, smod_lowBits] at hlow
    rw [polyMakeHint_spec.1 j hj, get_polyAdd hj, get_polyAdd hj,
      get_lowBits hj, get_highBits hj]
    apply useHint_honest (e := e j) _ (he j hj).2 hlow (hct0 j hj)
    rw [get_polySub hj]
    have hmod := (dvd_sub_mod (get w j - get cs2 j)).neg_right
    rw [neg_sub] at hmod
    have hsum := hmod.sub (he j hj).1
    rwa [show mod (get w j - get cs2 j) Q - (get w j - get cs2 j)
        - (get cs2 j - e j)
      = mod (get w j - get cs2 j) Q - (get w j - e j) by ring] at hsum
  apply ext_get
  intro j hj
  have hloop := get_loop_set (a := polyAdd (polySub w cs2) ct0)
    (f := fun i x => UseHint P (get (polyMakeHint P
      (polyAdd (mapPoly (LowBits P) (polySub w cs2)) ct0)
        (mapPoly (HighBits P) w)).1 i) x) le_rfl (fun i hi => by
      rw [hslot i hi]
      exact (keeps_of_decompose (get w i)).1) j
  rw [if_pos hj, hslot j hj] at hloop
  rw [get_highBits hj]
  exact hloop

end

/-- The widths of the words of `W1Coder`. -/
theorem w1_cases (P : Params) : (P.GAMMA2 = GAMMA2_1
      ∧ (if P.GAMMA2 = GAMMA2_1 then 6 else 4) = 6)
    ∨ (P.GAMMA2 = GAMMA2_2 ∧ (if P.GAMMA2 = GAMMA2_1 then 6 else 4) = 4) := by
  rcases P.gamma2_known with h | h
  · exact Or.inl ⟨h, if_pos h⟩
  · refine Or.inr ⟨h, if_neg ?_⟩
    rw [h, gamma2_1, gamma2_2]
    norm_num

/-- The coder of `w1` writes words as they are. -/
theorem w1_involutive (P : Params) :
    Involutive (if P.GAMMA2 = GAMMA2_1 then 6 else 4) id pure := by
  refine ⟨?_, fun _ _ => rfl, ?_, ?_⟩
  · rcases w1_cases P with ⟨-, h⟩ | ⟨-, h⟩ <;> omega
  · intro w hw
    apply keeps_of_abs
    rw [abs_le]
    dsimp only [id]
    rcases w1_cases P with ⟨-, hbits⟩ | ⟨-, hbits⟩ <;> rw [hbits] at hw
      <;> omega
  · intro x y hxy
    exact (Except.ok.inj hxy).symm

/-- The coefficients are numbers of buckets. -/
def Buckets (P : Params) (p : Poly) : Prop :=
  ∀ j < N, 0 ≤ get p j ∧ get p j < HINT_M P

/-- A vector of buckets can always be written. -/
theorem w1Vec_encode {w : List Poly} (hw : w.length = P.K)
    (hbuckets : ∀ p ∈ w, Buckets P p) : ∃ b, (W1Vec P).encode w = .ok b := by
  obtain ⟨b, hb⟩ := vecCoder_writes_of (c := W1Coder P) hw fun p hp => by
    apply (w1_involutive P).writes
    intro j hj
    obtain ⟨hlow, hhigh⟩ := hbuckets p hp j hj
    refine ⟨rfl, (get p j).toNat, ?_, (Int.toNat_of_nonneg hlow).symm⟩
    rcases w1_cases P with ⟨h, hbits⟩ | ⟨h, hbits⟩
    · rw [hbits]
      rw [gamma2_1] at h
      rcases gamma2_cases P with ⟨-, hcount⟩ | ⟨h', -⟩ <;> omega
    · rw [hbits]
      rw [gamma2_2] at h
      rcases gamma2_cases P with ⟨h', -⟩ | ⟨-, hcount⟩ <;> omega
  exact ⟨b, hb.encode⟩

/-- The high parts of a polynomial are buckets. -/
theorem buckets_highBits (p : Poly) : Buckets P (mapPoly (HighBits P) p) := by
  intro j hj
  rw [get_highBits hj]
  exact (decompose_splits (get p j)).bucket

/-- What a hint leads to is a bucket too, since one step beyond the last is
the first, and one before the first is the last. -/
theorem useHint_bucket (hint x : ℤ) :
    0 ≤ UseHint P hint x ∧ UseHint P hint x < HINT_M P := by
  have hsplits := decompose_splits (P := P) x
  have hcases := gamma2_cases P
  have hmod : ∀ y, 0 ≤ toInt32 (mod y (HINT_M P))
      ∧ toInt32 (mod y (HINT_M P)) < HINT_M P := by
    intro y
    have hlow := Int.emod_nonneg y (b := HINT_M P) (by omega)
    have hhigh := Int.emod_lt_of_pos y (b := HINT_M P) (by omega)
    rw [mod_eq (by omega) (by omega),
      toInt32_of_range (by omega) (by omega)]
    exact ⟨hlow, hhigh⟩
  unfold UseHint
  rw [decompose_eta] at hsplits ⊢
  obtain ⟨⟨hlow, hhigh⟩, -⟩ := hsplits
  dsimp only at hlow hhigh ⊢
  split
  next =>
    split
    next => exact hmod _
    next => exact hmod _
  next =>
    rw [toInt32_of_range (by omega) (by omega)]
    exact ⟨hlow, hhigh⟩

/-- The same for all slots of a polynomial. -/
theorem buckets_polyUseHint (u hint : Poly) :
    Buckets P (polyUseHint P u hint) := by
  have hcases := gamma2_cases P
  intro j hj
  have hloop := get_loop_set (a := u)
    (f := fun i x => UseHint P (get hint i) x) le_rfl (fun i _ => by
      have := useHint_bucket (P := P) (get hint i) (get u i)
      exact keeps_of_abs (abs_le.mpr (by omega))) j
  rw [if_pos hj] at hloop
  rw [show get (polyUseHint P u hint) j = _ from hloop]
  exact useHint_bucket _ _

-- ================================================================ rings

section

variable {a b c : Poly}

/-- A reduced polynomial is the only one for its element of the ring. -/
theorem ringOf_injective (ha : AllOk (Reduced Q) a) (hb : AllOk (Reduced Q) b)
    (h : ringOf a = ringOf b) : a = b := by
  have hnontrivial := sound.nontrivial
  apply ext_get
  intro j hj
  have hslot : ((get a j : ℤ) : ZMod q) = (get b j : ℤ) :=
    (value_eq_iff (by decide)).mp h j hj
  exact sound.reduced_injective (ha j hj) (hb j hj) hslot

/-- Coefficients that differ by multiples of the modulus stand for the same
element. -/
theorem ringOf_congr (h : ∀ j < N, Q ∣ get a j - get b j) :
    ringOf a = ringOf b := by
  apply value_congr
  intro j hj
  have hmod := mod_congr (h j hj)
  show ((get a j : ℤ) : ZMod q) = (get b j : ℤ)
  rw [← cast_mod, hmod, cast_mod]

/-- The product of two transforms does not depend on their order. -/
theorem MultiplyNTTs_comm (a b : Poly) : MultiplyNTTs a b = MultiplyNTTs b a := by
  apply ext_get
  intro j hj
  rw [get_MultiplyNTTs hj, get_MultiplyNTTs hj]
  unfold times
  rw [mul_comm]

/-- A secret is small enough to be encoded. -/
theorem small_of_short {p : Poly} (h : Short P p) :
    ∀ j < N, |get p j| ≤ 2 ^ 30 := by
  intro j hj
  have := h j hj
  have := P.eta_known
  omega

/-- So is a challenge. -/
theorem small_of_inBall {k i : ℕ} (h : InBall k i c) :
    ∀ j < N, |get c j| ≤ 2 ^ 30 :=
  fun j hj => (h.unit j hj).trans (by norm_num)

/-- **A challenge times a short polynomial** is short: at most `TAU` slots
of it are added up in each place, which is what `BETA` bounds. -/
theorem challenge_short {s : Poly} {k i : ℕ} (hc : InBall k i c)
    (hs : Short P s) : ∃ e : ℕ → ℤ, ∀ j < N,
      Q ∣ get (crystals.decode (MultiplyNTTs (crystals.encode s)
        (crystals.encode c))) j - e j ∧ |e j| ≤ k * P.ETA := by
  refine ⟨convolve N (get c) (get s), ?_⟩
  intro j hj
  rw [MultiplyNTTs_comm,
    ntt_product (small_of_inBall hc) (small_of_short hs) hj]
  have heta : 0 ≤ P.ETA := by
    have := P.eta_known
    omega
  refine ⟨?_, abs_convolve_le hc.weight.le heta hs hj⟩
  rw [← dvd_neg, neg_sub]
  exact Int.dvd_self_sub_emod

/-- The two parts of a rounded polynomial. -/
theorem ringOf_rounded {t : Poly} (t0 t1 : Poly)
    (h : (t0, t1) = polyPowerRound t) :
    ringOf (polyShiftl t1) = ringOf t - ringOf t0 := by
  obtain rfl : t0 = (polyPowerRound t).1 := congrArg Prod.fst h
  obtain rfl : t1 = (polyPowerRound t).2 := congrArg Prod.snd h
  have hhigh := high_polyPowerRound t
  apply value_sub
  intro j hj
  unfold image
  rw [get_polyShiftl hhigh hj, ← Int.cast_sub, ← cast_mod (get t j - _)]
  have hsum := polyPowerRound_sum (p := t) hj
  have hsame : get (polyPowerRound t).2 j * 2 ^ D
      = mod (get t j) Q - get (polyPowerRound t).1 j := by omega
  rw [hsame, cast_mod, Int.cast_sub, Int.cast_sub, cast_mod]

end

section

variable {L : ℕ} {A : ℕ → Poly} {s1 y z : List Poly} {s2 t0 t1 c : Poly}

/-- The row of a product of the matrix. -/
theorem ringOf_row {a : ℕ → Rq} {v : List Poly}
    (hA : ∀ j < L, IsHat (a j) (A j)) (hlength : v.length = L)
    (hv : ∀ p ∈ v, ∀ j < N, |get p j| ≤ 2 ^ 30) :
    IsHat (∑ j ∈ Finset.range L, a j * ringOf (nth v j))
      (rowSum L A (v.map crystals.encode)) := by
  apply hat_rowSum hA
  intro j hj
  have hj' : j < v.length := hlength ▸ hj
  rw [nth_map hj']
  exact hat_encode (hv _ (nth_mem hj'))

/-- **What the verifier computes of a row** is what the signer has looked
at: `w - c * s2 + c * t0`. -/
theorem approx_eq (hA : ∀ j < L, AllOk (Reduced Q) (A j))
    (hs1 : s1.length = L) (hs1' : ∀ p ∈ s1, ∀ j < N, |get p j| ≤ 2 ^ 30)
    (hy : y.length = L) (hy' : ∀ p ∈ y, ∀ j < N, |get p j| ≤ 2 ^ 30)
    (hz : z.length = L) (hz' : ∀ p ∈ z, ∀ j < N, |get p j| ≤ 2 ^ 30)
    (hs2 : ∀ j < N, |get s2 j| ≤ 2 ^ 30) (hc : ∀ j < N, |get c j| ≤ 2 ^ 30)
    (ht : (t0, t1) = polyPowerRound (polyAdd (crystals.decode
      (rowSum L A (s1.map crystals.encode))) s2))
    (hzy : ∀ i < L, ringOf (nth z i)
      = ringOf (nth s1 i) * ringOf c + ringOf (nth y i)) :
    crystals.decode (polySub (rowSum L A (z.map crystals.encode))
        (MultiplyNTTs (crystals.encode (polyShiftl t1)) (crystals.encode c)))
      = polyAdd (polySub (crystals.decode (rowSum L A (y.map crystals.encode)))
          (crystals.decode (MultiplyNTTs (crystals.encode s2)
            (crystals.encode c))))
        (crystals.decode (MultiplyNTTs (crystals.encode t0)
          (crystals.encode c))) := by
  choose! a ha using fun j hj => sound.exists_hat (hA j hj)
  have hlow : Low t0 := by
    rw [show t0 = _ from congrArg Prod.fst ht]
    exact low_polyPowerRound _
  have hhigh : High t1 := by
    rw [show t1 = _ from congrArg Prod.snd ht]
    exact high_polyPowerRound _
  have ht0 : ∀ j < N, |get t0 j| ≤ 2 ^ 30 := by
    intro j hj
    obtain ⟨hmin, hmax⟩ := hlow j hj
    rw [abs_le]
    omega
  have hshift : ∀ j < N, |get (polyShiftl t1) j| ≤ 2 ^ 30 := by
    intro j hj
    obtain ⟨hmin, hmax⟩ := hhigh j hj
    rw [get_polyShiftl hhigh hj, abs_le]
    unfold D
    omega
  have hc := hat_encode hc
  obtain ⟨happrox, hleft⟩ := hat_decode (hat_polySub (ringOf_row ha hz hz')
    (hat_MultiplyNTTs (hat_encode hshift) hc))
  obtain ⟨-, hw⟩ := hat_decode (ringOf_row ha hy hy')
  obtain ⟨-, hcs2⟩ := hat_decode (hat_MultiplyNTTs (hat_encode hs2) hc)
  obtain ⟨-, hct0⟩ := hat_decode (hat_MultiplyNTTs (hat_encode ht0) hc)
  obtain ⟨-, hAs1⟩ := hat_decode (ringOf_row ha hs1 hs1')
  apply ringOf_injective happrox reduced_polyAdd
  have hAz : ∑ j ∈ Finset.range L, a j * ringOf (nth z j)
      = (∑ j ∈ Finset.range L, a j * ringOf (nth s1 j)) * ringOf c
        + ∑ j ∈ Finset.range L, a j * ringOf (nth y j) := by
    rw [Finset.sum_mul, ← Finset.sum_add_distrib]
    apply Finset.sum_congr rfl
    intro j hj
    rw [hzy j (Finset.mem_range.mp hj)]
    ring
  rw [hleft, ringOf_polyAdd, ringOf_polySub, hw, hcs2, hct0, hAz,
    ringOf_rounded t0 t1 ht, ringOf_polyAdd, hAs1]
  ring

end

-- ============================================================= verifying

/-- What the verifier computes of a row. -/
def wTick (P : Params) (h : Hashes) (fuel : ℕ) (rho : Bytes)
    (t1 z hints : List Poly) (c : Poly) (i : ℕ) : Run Poly := do
  let ct12d := MultiplyNTTs (crystals.encode (polyShiftl (nth t1 i)))
    (crystals.encode c)
  let Az ← rowTimes P h fuel rho i (z.map crystals.encode)
  let wApprox := crystals.decode (polySub Az ct12d)
  return polyUseHint P wApprox (nth hints i)

/-- What a signature that is accepted has passed. -/
structure Verified (P : Params) (h : Hashes) (fuel : ℕ)
    (sig msg publicKey : Bytes) (externalMu : Bool) (rho : Bytes)
    (t1 : List Poly) (cTilde : Bytes) (z hints : List Poly) (c : Poly)
    (w1 : List Poly) (b1 : Bytes) : Prop where
  mu : externalMu = true → msg.length = CRH_BYTES
  key : (publicCoder P).decode publicKey = .ok (rho, t1, ())
  length : sig.length = (sigCoder P).bytesLen
  decode : (sigCoder P).decode sig = .ok (cTilde, z, some hints, ())
  norm : ∀ p ∈ z, polyChknorm p (P.GAMMA1 - P.BETA) = false
  challenge : SampleInBall P h fuel cTilde = .ok c
  rows : (List.range P.K).mapM (wTick P h fuel rho t1 z hints c) = .ok w1
  encode : (W1Vec P).encode w1 = .ok b1
  count : ∀ t ∈ hints, ((List.range N).map (get t)).sum ≤ P.OMEGA
  hash : cTilde = squeeze (h.shake256 (messageOf h externalMu
    (squeeze (h.shake256 publicKey) TR_BYTES) msg ++ b1)) P.C_TILDE_BYTES

section

variable {h : Hashes} {fuel : ℕ} {sig msg publicKey : Bytes}
  {externalMu : Bool}

/-- The loop over the polynomials of `z` looks for one that fails the check
of its norm. -/
theorem any_chknorm {z : List Poly} {B : ℤ} :
    z.any (polyChknorm · B) = true ↔ ¬∀ p ∈ z, polyChknorm p B = false := by
  rw [List.any_eq_true]
  push Not
  simp only [ne_eq, Bool.not_eq_false]

/-- The loop over the rows of the hint looks for one with too many ones. -/
theorem any_count {hints : List Poly} :
    (hints.any fun t => !decide (((List.range N).map (get t)).sum
        ≤ (P.OMEGA : ℤ))) = true
      ↔ ¬∀ t ∈ hints, ((List.range N).map (get t)).sum ≤ (P.OMEGA : ℤ) := by
  rw [List.any_eq_true]
  push Not
  apply exists_congr
  intro t
  rw [Bool.not_eq_true', decide_eq_false_iff_not, not_le]

/-- An external `mu` has to have the length of one; a message may have
any. -/
theorem checkMu_ok : checkMu externalMu msg = .ok ()
    ↔ (externalMu = true → msg.length = CRH_BYTES) := by
  unfold checkMu
  split
  next hext => rw [abytes_ok, imp_iff_right hext]
  next hext => exact iff_of_true rfl fun h => absurd h hext

/-- **When a signature is accepted**: its parts can be read, `z` is below
its norm, the ones of the hint are few enough, and the challenge is that of
the commitment which the parts come to. -/
theorem internalVerify_iff : internalVerify P h fuel sig msg publicKey externalMu
      = .ok true
    ↔ ∃ rho t1 cTilde z hints c w1 b1, Verified P h fuel sig msg publicKey
      externalMu rho t1 cTilde z hints c w1 b1 := by
  unfold internalVerify
  constructor
  · intro hrun
    obtain ⟨⟨⟩, hmu, hrun⟩ := run_bind_ok.mp hrun
    obtain ⟨⟨rho, t1, ⟨⟩⟩, hpublic, hrun⟩ := run_bind_ok.mp hrun
    dsimp only at hrun
    by_cases hlength : sig.length ≠ (sigCoder P).bytesLen
    · rw [if_pos hlength] at hrun
      cases hrun
    rw [if_neg hlength] at hrun
    obtain ⟨⟨cTilde, z, hints, ⟨⟩⟩, hdecode, hrun⟩ := run_bind_ok.mp hrun
    cases hints with
    | none => cases hrun
    | some hints =>
        dsimp only at hrun
        by_cases hnorm : z.any (polyChknorm · (P.GAMMA1 - P.BETA)) = true
        · rw [if_pos hnorm] at hrun
          cases hrun
        rw [if_neg hnorm] at hrun
        obtain ⟨c, hc, hrun⟩ := run_bind_ok.mp hrun
        obtain ⟨w1, hw1, hrun⟩ := run_bind_ok.mp hrun
        obtain ⟨b1, hb1, hrun⟩ := run_bind_ok.mp hrun
        by_cases hcount : (hints.any fun t => !decide
            (((List.range N).map (get t)).sum ≤ (P.OMEGA : ℤ))) = true
        · rw [if_pos hcount] at hrun
          cases hrun
        rw [if_neg hcount, if_neg hnorm] at hrun
        rw [any_chknorm, not_not] at hnorm
        rw [any_count, not_not] at hcount
        exact ⟨rho, t1, cTilde, z, hints, c, w1, b1, checkMu_ok.mp hmu, hpublic,
          not_not.mp hlength, hdecode, hnorm, hc, hw1, hb1, hcount,
          equalBytes_iff.mp (Except.ok.inj hrun)⟩
  · rintro ⟨rho, t1, cTilde, z, hints, c, w1, b1, hv⟩
    refine run_bind_ok.mpr ⟨(), checkMu_ok.mpr hv.mu,
      run_bind_ok.mpr ⟨_, hv.key, ?_⟩⟩
    dsimp only
    rw [if_neg (not_not_intro hv.length)]
    refine run_bind_ok.mpr ⟨_, hv.decode, ?_⟩
    have hnorm : ¬z.any (polyChknorm · (P.GAMMA1 - P.BETA)) = true := by
      rw [any_chknorm, not_not]
      exact hv.norm
    dsimp only
    rw [if_neg hnorm]
    refine run_bind_ok.mpr ⟨c, hv.challenge,
      run_bind_ok.mpr ⟨w1, hv.rows, run_bind_ok.mpr ⟨b1, hv.encode, ?_⟩⟩⟩
    rw [if_neg, if_neg hnorm]
    · exact congrArg Except.ok (equalBytes_iff.mpr hv.hash)
    · rw [any_count, not_not]
      exact hv.count

end

-- =============================================================== signing

/-- The `w` of a pass, for the mask `y`. -/
def commit (P : Params) (s : Signing) (y : List Poly) : List Poly :=
  (List.range P.K).map fun i => crystals.decode
    (rowSum P.L (nth (s.A.getD i [])) (y.map crystals.encode))

/-- The `z` of a pass. -/
def respond (P : Params) (s : Signing) (y : List Poly) (c : Poly) : List Poly :=
  (List.range P.L).map fun i => polyAdd (crystals.decode
    (MultiplyNTTs (nth s.s1 i) (crystals.encode c))) (nth y i)

/-- What a pass has gone through that returns a signature. -/
structure Passed (P : Params) (h : Hashes) (fuel : ℕ) (s : Signing)
    (sig : Bytes) (y : List Poly) (b1 cTilde : Bytes) (c : Poly)
    (hints : List (Poly × ℤ)) : Prop where
  y_length : y.length = P.L
  y_range : ∀ p ∈ y, ∀ j < N, |get p j| ≤ 2 ^ 30
  encode : (W1Vec P).encode ((commit P s y).map (mapPoly (HighBits P)))
    = .ok b1
  hash : cTilde = squeeze (h.shake256 (s.mu ++ b1)) P.C_TILDE_BYTES
  challenge : SampleInBall P h fuel cTilde = .ok c
  norm : ∀ p ∈ respond P s y c, polyChknorm p (P.GAMMA1 - P.BETA) = false
  rows : (List.range P.K).mapM (hintOf P s (crystals.encode c) (commit P s y)
    ((commit P s y).map (mapPoly (HighBits P)))) = .ok hints
  count : (hints.map (·.2)).sum ≤ P.OMEGA
  sig : (sigCoder P).encode
    (cTilde, respond P s y c, some (hints.map (·.1)), ()) = .ok sig

section

variable {h : Hashes} {fuel kappa passes : ℕ} {s : Signing} {sig : Bytes}

/-- The masks and the responses are small enough to be encoded. -/
theorem z_small {x : ℤ} (hx : Coded (if P.GAMMA1 = 2 ^ 17 then 18 else 20)
    (fun i => smod (P.GAMMA1 - i) Q) pure x) : |x| ≤ 2 ^ 30 := by
  have hrange := (z_coded P).mp hx
  have hgamma := P.gamma1_known
  rw [abs_le]
  omega

/-- A pass behind the mask. -/
def finish (P : Params) (h : Hashes) (fuel : ℕ) (s : Signing) (y : List Poly) :
    Run (Option Bytes) := do
  let b1 ← (W1Vec P).encode ((commit P s y).map (mapPoly (HighBits P)))
  let cTilde := squeeze (h.shake256 (s.mu ++ b1)) P.C_TILDE_BYTES
  let c ← SampleInBall P h fuel cTilde
  if (respond P s y c).any (polyChknorm · (P.GAMMA1 - P.BETA)) then return none
  match (List.range P.K).mapM (hintOf P s (crystals.encode c) (commit P s y)
    ((commit P s y).map (mapPoly (HighBits P)))) with
  | .error () => return none
  | .ok hints =>
      if (P.OMEGA : ℤ) < (hints.map (·.2)).sum then return none
      return some (← (sigCoder P).encode
        (cTilde, respond P s y c, some (hints.map (·.1)), ()))

/-- A pass draws its mask, then goes through the checks. -/
theorem attempt_eq : attempt P h fuel s kappa
    = (List.range P.L).mapM (fun i => (ZCoder P).decode
        (XOF256 h (ZCoder P).bytesLen s.rhoprime ((kappa + i) &&& 0xff)
          ((kappa + i) >>> 8) 0)) >>= finish P h fuel s := rfl

/-- **A pass that returns a signature** has gone through all its checks, and
the signature is the encoding of what it had then. -/
theorem finish_ok {y : List Poly} (hlength : y.length = P.L)
    (hrange : ∀ p ∈ y, ∀ j < N, |get p j| ≤ 2 ^ 30)
    (hrun : finish P h fuel s y = .ok (some sig)) :
    ∃ b1 cTilde c hints, Passed P h fuel s sig y b1 cTilde c hints := by
  unfold finish at hrun
  obtain ⟨b1, hb1, hrun⟩ := run_bind_ok.mp hrun
  obtain ⟨c, hc, hrun⟩ := run_bind_ok.mp hrun
  by_cases hnorm : (respond P s y c).any
      (polyChknorm · (P.GAMMA1 - P.BETA)) = true
  · rw [if_pos hnorm] at hrun
    cases hrun
  rw [if_neg hnorm] at hrun
  rw [any_chknorm, not_not] at hnorm
  cases hrows : (List.range P.K).mapM (hintOf P s (crystals.encode c)
      (commit P s y) ((commit P s y).map (mapPoly (HighBits P)))) with
  | error e =>
      rw [hrows] at hrun
      cases hrun
  | ok hints =>
      rw [hrows] at hrun
      dsimp only at hrun
      by_cases hcount : (P.OMEGA : ℤ) < (hints.map (·.2)).sum
      · rw [if_pos hcount] at hrun
        cases hrun
      rw [if_neg hcount] at hrun
      obtain ⟨b, hb, heq⟩ := run_map_ok.mp hrun
      obtain rfl := Option.some.inj heq
      exact ⟨b1, _, c, hints, hlength, hrange, hb1, rfl, hc, hnorm, hrows,
        not_lt.mp hcount, hb⟩

/-- A pass of the loop that returns a signature has passed, with some mask
that it has drawn. -/
theorem attempt_ok (hrun : attempt P h fuel s kappa = .ok (some sig)) :
    ∃ y b1 cTilde c hints, Passed P h fuel s sig y b1 cTilde c hints := by
  rw [attempt_eq] at hrun
  obtain ⟨y, hy, hrun⟩ := run_bind_ok.mp hrun
  obtain ⟨hlength, hy⟩ := drawn hy
  have hrange : ∀ p ∈ y, ∀ j < N, |get p j| ≤ 2 ^ 30 :=
    forall_mem fun i hi j hj => z_small ((z_involutive P).reads
      (length_squeeze _ _) (hy i (by omega)) j hj)
  exact ⟨y, finish_ok hlength hrange hrun⟩

/-- **What the loop returns** a pass of it has made, and that has passed all
checks. By induction over the passes. -/
theorem signLoop_ok (hrun : signLoop P h fuel s passes kappa = .ok sig) :
    ∃ y b1 cTilde c hints, Passed P h fuel s sig y b1 cTilde c hints := by
  induction passes generalizing kappa with
  | zero => cases hrun
  | succ passes ih =>
      unfold signLoop at hrun
      obtain ⟨res, hres, hrun⟩ := run_bind_ok.mp hrun
      cases res with
      | none => exact ih hrun
      | some res =>
          cases hrun
          exact attempt_ok hres

end

-- ================================================= signing and verifying

section

variable {h : Hashes} {fuel fuel' : ℕ} {s : Signing} {sig : Bytes}
  {y : List Poly} {b1 cTilde : Bytes} {c : Poly} {hints : List (Poly × ℤ)}

/-- A number reduced around zero is at most half of the modulus. -/
theorem abs_smod_le (x : ℤ) : |smod x Q| ≤ 2 ^ 22 := by
  have hlow := Int.emod_nonneg x (b := Q) (by decide)
  have hhigh := Int.emod_lt_of_pos x (b := Q) (by decide)
  rw [smod_eq (by decide) (by decide), abs_le]
  unfold Q at *
  split <;> omega

/-- A polynomial around zero, slot by slot. -/
theorem get_center {p : Poly} {j : ℕ} (hj : j < N) :
    get (mapPoly (smod · Q) p) j = smod (get p j) Q :=
  get_mapPoly (fun i _ => keeps_of_abs ((abs_smod_le _).trans (by norm_num))) hj

/-- It stands for the same element. -/
theorem ringOf_center (p : Poly) : ringOf (mapPoly (smod · Q) p) = ringOf p := by
  apply ringOf_congr
  intro j hj
  rw [get_center hj, ← dvd_neg, neg_sub]
  exact dvd_sub_smod _

/-- A row of the hint. -/
theorem hintOf_ok {cHat : Poly} {w w1 : List Poly} {i : ℕ} {r : Poly × ℤ} :
    hintOf P s cHat w w1 i = .ok r ↔
      let r0 := mapPoly (LowBits P) (polySub (nth w i)
        (crystals.decode (MultiplyNTTs (nth s.s2 i) cHat)))
      let ct0 := crystals.decode (MultiplyNTTs (nth s.t0 i) cHat)
      polyChknorm r0 (P.GAMMA2 - P.BETA) = false
        ∧ polyChknorm ct0 P.GAMMA2 = false
        ∧ polyMakeHint P (polyAdd r0 ct0) (nth w1 i) = r := by
  unfold hintOf
  dsimp only
  split
  next hbad =>
    refine iff_of_false (fun hok => by cases hok) fun hok => ?_
    rw [hok.1] at hbad
    cases hbad
  next hgood =>
    split
    next hbad =>
      refine iff_of_false (fun hok => by cases hok) fun hok => ?_
      rw [hok.2.1] at hbad
      cases hbad
    next hgood' =>
      constructor
      · intro hok
        exact ⟨Bool.eq_false_of_not_eq_true hgood,
          Bool.eq_false_of_not_eq_true hgood', Except.ok.inj hok⟩
      · rintro ⟨-, -, rfl⟩
        rfl

/-- The rows of a hint are bits, and each comes with the number of its
ones. -/
theorem hints_spec {cHat : Poly} {w w1 : List Poly} {n : ℕ}
    (h : (List.range n).mapM (hintOf P s cHat w w1) = .ok hints) :
    ∀ r ∈ hints, Binary r.1 ∧ r.2 = (ones r.1).length := by
  obtain ⟨-, hrows⟩ := mapM_range_ok.mp h
  intro r hr
  obtain ⟨i, hi, rfl⟩ := List.mem_iff_getElem.mp hr
  obtain ⟨-, -, heq⟩ := hintOf_ok.mp (hrows i hi)
  rw [← heq]
  exact polyMakeHint_spec.2

/-- There is one `w` for each row of the matrix. -/
theorem length_commit : (commit P s y).length = P.K := by
  unfold commit
  rw [List.length_map, List.length_range]

/-- Each `w` is its row times the mask. -/
theorem nth_commit {i : ℕ} (hi : i < P.K) : nth (commit P s y) i
    = crystals.decode (rowSum P.L (nth (s.A.getD i []))
      (y.map crystals.encode)) := by
  rw [nth_eq (by rwa [length_commit])]
  unfold commit
  rw [List.getElem_map, List.getElem_range]

/-- There is one `z` for each column of the matrix. -/
theorem length_respond : (respond P s y c).length = P.L := by
  unfold respond
  rw [List.length_map, List.length_range]

/-- Each `z` is the secret times the challenge, and the mask. -/
theorem nth_respond {i : ℕ} (hi : i < P.L) : nth (respond P s y c) i
    = polyAdd (crystals.decode (MultiplyNTTs (nth s.s1 i)
      (crystals.encode c))) (nth y i) := by
  rw [nth_eq (by rwa [length_respond])]
  unfold respond
  rw [List.getElem_map, List.getElem_range]

/-- The numbers that come with the rows add up to the ones of the hint. -/
theorem length_onesOf_eq (h : ∀ r ∈ hints, r.2 = (ones r.1).length) :
    ((onesOf (hints.map (·.1))).length : ℤ) = (hints.map (·.2)).sum := by
  induction hints with
  | nil => rfl
  | cons r hints ih =>
      have hrest := ih fun r hr => h r (List.mem_cons_of_mem _ hr)
      rw [List.map_cons, List.map_cons, List.sum_cons, ← hrest,
        h r List.mem_cons_self, onesOf, List.flatMap_cons, List.length_append]
      push_cast
      rfl

/-- **A signature is read back**, the coefficients of `z` centered: the
coder takes them by a residue, and the norm says that there is one near
zero. -/
theorem sig_writes {z hint : List Poly} (homega : P.OMEGA < 2 ^ 8)
    (hcTilde : cTilde.length = P.C_TILDE_BYTES) (hz : z.length = P.L)
    (hnorm : ∀ p ∈ z, polyChknorm p (P.GAMMA1 - P.BETA) = false)
    (hrows : hint.length = P.K) (hbinary : ∀ p ∈ hint, Binary p)
    (hroom : (onesOf hint).length ≤ P.OMEGA) :
    ∃ b, (sigCoder P).encode (cTilde, z, some hint, ()) = .ok b
      ∧ (sigCoder P).Writes
        (cTilde, z.map (mapPoly (smod · Q)), some hint, ()) b := by
  have hbeta : 0 ≤ P.BETA := by
    have := P.eta_known
    unfold Params.BETA
    exact mul_nonneg (Int.natCast_nonneg _) (by omega)
  have hcentered : ∀ p ∈ z,
      ∃ b, (ZCoder P).Writes (mapPoly (smod · Q) p) b := by
    intro p hp
    have hlt := polyChknorm_false.mp (hnorm p hp)
    apply (z_involutive P).writes
    intro j hj
    have hlt := hlt j hj
    rw [get_center hj]
    apply (z_coded P).mpr
    rw [abs_lt] at hlt
    omega
  obtain ⟨bz, hbz⟩ := vecCoder_writes_of (c := ZCoder P) (n := P.L)
    (u := z.map (mapPoly (smod · Q))) (by rw [List.length_map, hz])
    (List.forall_mem_map.mpr hcentered)
  have hhint := hintCoder_writes homega hrows hbinary hroom
  have hwrites : (sigCoder P).Writes
      (cTilde, z.map (mapPoly (smod · Q)), some hint, ()) _ :=
    splitCoder_writes (.raw_of hcTilde (.coder hbz (.coder hhint .nil)))
  -- the coder writes the centered coefficients of what it is given
  have hpoly : ∀ p, (ZCoder P).encode p
      = (ZCoder P).encode (mapPoly (smod · Q) p) := by
    intro p
    apply polyCoder_encode_congr
    intro j hj
    rw [get_center hj]
    apply smod_congr
    rw [sub_sub_sub_cancel_left, ← dvd_neg, neg_sub]
    exact dvd_sub_smod _
  have hmap : z.mapM (ZCoder P).encode
      = (z.map (mapPoly (smod · Q))).mapM (ZCoder P).encode := by
    rw [List.mapM_map]
    exact congrArg (fun f => z.mapM f) (funext hpoly)
  have hvec : (vecCoder (ZCoder P) P.L).encode z
      = (vecCoder (ZCoder P) P.L).encode (z.map (mapPoly (smod · Q))) := by
    unfold vecCoder
    dsimp only
    rw [List.length_map, hmap]
  have hsame : (sigCoder P).encode (cTilde, z, some hint, ())
      = (sigCoder P).encode
        (cTilde, z.map (mapPoly (smod · Q)), some hint, ()) := by
    unfold sigCoder splitCoder
    dsimp only
    unfold Fields.encode
    unfold Fields.encode
    rw [hvec]
  exact ⟨_, hsame.trans hwrites.encode, hwrites⟩

/-- The hash of a commitment has the length of `cTilde`. -/
theorem length_hash {b : Bytes} (h' : cTilde
    = squeeze (h.shake256 b) P.C_TILDE_BYTES) :
    cTilde.length = P.C_TILDE_BYTES := by
  rw [h']
  exact length_squeeze _ _

/-- Rows of hints that are few enough. -/
theorem room_of_count (hspec : ∀ r ∈ hints, Binary r.1
      ∧ r.2 = (ones r.1).length)
    (hcount : (hints.map (·.2)).sum ≤ P.OMEGA) :
    (onesOf (hints.map (·.1))).length ≤ P.OMEGA := by
  have hlength := length_onesOf_eq fun r hr => (hspec r hr).2
  rw [← hlength] at hcount
  exact_mod_cast hcount

/-- **A signature is written as what was computed**, the response around
zero. -/
theorem Passed.writes (hpass : Passed P h fuel s sig y b1 cTilde c hints)
    (homega : P.OMEGA < 2 ^ 8) :
    (sigCoder P).Writes (cTilde, (respond P s y c).map (mapPoly (smod · Q)),
      some (hints.map (·.1)), ()) sig := by
  obtain ⟨hlength, -⟩ := mapM_range_ok.mp hpass.rows
  have hspec := hints_spec hpass.rows
  obtain ⟨b, hb, hwrites⟩ := sig_writes homega (length_hash hpass.hash)
    length_respond hpass.norm (by rw [List.length_map, hlength])
    (List.forall_mem_map.mpr fun r hr => (hspec r hr).1)
    (room_of_count hspec hpass.count)
  obtain rfl := Except.ok.inj (hpass.sig.symm.trans hb)
  exact hwrites

/-- A pass that is rejected nowhere returns a signature. Beside the checks
it needs only that the commitment can be written and the challenge
sampled. -/
theorem finish_some (homega : P.OMEGA < 2 ^ 8)
    (hb1 : (W1Vec P).encode ((commit P s y).map (mapPoly (HighBits P)))
      = .ok b1)
    (hc : SampleInBall P h fuel (squeeze (h.shake256 (s.mu ++ b1))
      P.C_TILDE_BYTES) = .ok c)
    (hnorm : ∀ p ∈ respond P s y c, polyChknorm p (P.GAMMA1 - P.BETA) = false)
    (hrows : (List.range P.K).mapM (hintOf P s (crystals.encode c)
      (commit P s y) ((commit P s y).map (mapPoly (HighBits P)))) = .ok hints)
    (hcount : (hints.map (·.2)).sum ≤ P.OMEGA) :
    ∃ sig, finish P h fuel s y = .ok (some sig) := by
  obtain ⟨hlength, -⟩ := mapM_range_ok.mp hrows
  have hspec := hints_spec hrows
  obtain ⟨b, hb, -⟩ := sig_writes homega (length_hash rfl)
    length_respond hnorm (by rw [List.length_map, hlength])
    (List.forall_mem_map.mpr fun r hr => (hspec r hr).1)
    (room_of_count hspec hcount)
  refine ⟨b, ?_⟩
  unfold finish
  refine run_bind_ok.mpr ⟨b1, hb1, run_bind_ok.mpr ⟨c, hc, ?_⟩⟩
  have hgood : ¬(respond P s y c).any
      (polyChknorm · (P.GAMMA1 - P.BETA)) = true := by
    rw [any_chknorm, not_not]
    exact hnorm
  rw [if_neg hgood, hrows]
  dsimp only
  rw [if_neg (not_lt.mpr hcount)]
  exact run_map_ok.mpr ⟨b, hb, rfl⟩

/-- What `internal.sign` gives to the loop. -/
structure Prepared (P : Params) (h : Hashes) (fuel : ℕ) (rho tr : Bytes)
    (s1 s2 t0 : List Poly) (msg : Bytes) (externalMu : Bool) (s : Signing) :
    Prop where
  A : ∀ i < P.K, Sampled h fuel rho P.L i (nth (s.A.getD i []))
  s1 : s.s1 = s1.map crystals.encode
  s2 : s.s2 = s2.map crystals.encode
  t0 : s.t0 = t0.map crystals.encode
  mu : s.mu = messageOf h externalMu tr msg

/-- What signing has done where it returns: it has read the key, prepared
the loop, and made a pass that is rejected nowhere. -/
theorem internalSign_ok {msg secretKey rnd : Bytes} {externalMu : Bool}
    (hrun : internalSign P h fuel msg secretKey rnd externalMu = .ok sig) :
    (externalMu = true → msg.length = CRH_BYTES)
      ∧ ∃ rho K_ tr s1 s2 t0, (secretCoder P).decode secretKey
          = .ok (rho, K_, tr, s1, s2, t0, ())
        ∧ ∃ s y b1 cTilde c hints,
          Prepared P h fuel rho tr s1 s2 t0 msg externalMu s
          ∧ Passed P h fuel s sig y b1 cTilde c hints := by
  unfold internalSign at hrun
  obtain ⟨⟨⟩, hmu, hrun⟩ := run_bind_ok.mp hrun
  obtain ⟨⟨⟩, -, hrun⟩ := run_bind_ok.mp hrun
  obtain ⟨⟨rho, K_, tr, s1, s2, t0, ⟨⟩⟩, hdecode, hrun⟩ := run_bind_ok.mp hrun
  dsimp only at hrun
  obtain ⟨A, hA, hrun⟩ := run_bind_ok.mp hrun
  obtain ⟨⟨⟩, -, hrun⟩ := run_bind_ok.mp hrun
  obtain ⟨y, b1, cTilde, c, hints, hpass⟩ := signLoop_ok hrun
  refine ⟨checkMu_ok.mp hmu, rho, K_, tr, s1, s2, t0, hdecode, _, y, b1,
    cTilde, c, hints, ⟨?_, rfl, rfl, rfl, rfl⟩, hpass⟩
  obtain ⟨hlength, hrows⟩ := mapM_range_ok.mp hA
  intro i hi
  have hrow := (drawn (hrows i (by omega))).2
  intro j hj
  have hget : A.getD i [] = A[i] := List.getD_eq_getElem _ _ _
  rw [hget]
  exact hrow j hj

/-- **A row of the verifier** gives the high bits of the signer. The
verifier has `t1` for `t`, and what it lacks is `t0` times the challenge,
which is what the hint makes up for. -/
theorem Passed.row (hpass : Passed P h fuel s sig y b1 cTilde c hints)
    {f : ℕ} {rho K_ tr msg : Bytes} {s1 s2 t0 t1 : List Poly}
    {A : ℕ → ℕ → Poly} {keys : KeyPair} {externalMu : Bool}
    (hkeys : Keys P h f rho K_ s1 s2 t0 t1 A keys)
    (hs : Prepared P h fuel rho tr s1 s2 t0 msg externalMu s)
    (hball : InBall P.TAU N c) (hle : fuel ≤ fuel') {i : ℕ} (hi : i < P.K) :
    wTick P h fuel' rho t1 ((respond P s y c).map (mapPoly (smod · Q)))
        (hints.map (·.1)) c i
      = .ok (mapPoly (HighBits P) (nth (commit P s y) i)) := by
  obtain ⟨hlength, hrows⟩ := mapM_range_ok.mp hpass.rows
  have hs1 := hkeys.s1_length
  have hs2 := hkeys.s2_length
  have ht0 := hkeys.t0_length
  have hsmall1 : ∀ p ∈ s1, ∀ j < N, |get p j| ≤ 2 ^ 30 :=
    fun p hp => small_of_short (hkeys.s1_secret.short p hp)
  have hsmallc := small_of_inBall hball
  have hshort2 := hkeys.s2_secret.short _
    (nth_mem (v := s2) (i := i) (by omega))
  have hsame := (hs.A i hi).unique (hkeys.sampled i hi)
  have hsampled : Sampled h fuel rho P.L i (A i) := by
    intro j hj
    rw [← hsame j hj]
    exact hs.A i hi j hj
  have hcommit : nth (commit P s y) i = crystals.decode
      (rowSum P.L (A i) (y.map crystals.encode)) := by
    rw [nth_commit hi, rowSum_congr hsame]
  have hz : ∀ j < P.L, ringOf (nth ((respond P s y c).map
        (mapPoly (smod · Q))) j)
      = ringOf (nth s1 j) * ringOf c + ringOf (nth y j) := by
    intro j hj
    have hj' : j < s1.length := hs1 ▸ hj
    rw [nth_map (by rwa [length_respond]), ringOf_center, nth_respond hj,
      hs.s1, nth_map hj', ringOf_polyAdd, (hat_decode (hat_MultiplyNTTs
        (hat_encode (hsmall1 _ (nth_mem hj'))) (hat_encode hsmallc))).2]
  have happrox := approx_eq (A := A i)
    (fun j hj => rejNTTPoly_reduced (hkeys.sampled i hi j hj)) hs1 hsmall1
    hpass.y_length hpass.y_range (by rw [List.length_map, length_respond])
    (List.forall_mem_map.mpr fun p _ j hj => by
      rw [get_center hj]
      exact (abs_smod_le _).trans (by norm_num))
    (small_of_short hshort2) hsmallc (hkeys.rounded i hi) hz
  obtain ⟨hlow, hct0, hhint⟩ := hintOf_ok.mp (hrows i (by omega))
  rw [hs.s2, nth_map (by omega)] at hlow hhint
  rw [hs.t0, nth_map (by omega)] at hct0 hhint
  rw [nth_map (by rw [length_commit]; omega)] at hhint
  obtain ⟨e, he⟩ := challenge_short hball hshort2
  have hhints : nth (hints.map (·.1)) i = hints[i].1 := by
    rw [nth_eq (by rw [List.length_map]; omega), List.getElem_map]
  refine run_map_ok.mpr ⟨_, rowTimes_ok.mpr
    ⟨A i, hsampled.mono hle, rfl⟩, ?_⟩
  rw [happrox, hhints, ← hhint, ← hcommit]
  exact polyUseHint_honest he hlow hct0

/-- **What a pass makes for a key pair is accepted**: the parts are read
back, the norms are those that were checked, and row by row the commitment
is that of the signer. -/
theorem Passed.verified (hpass : Passed P h fuel s sig y b1 cTilde c hints)
    {f : ℕ} {rho K_ msg : Bytes} {s1 s2 t0 t1 : List Poly}
    {A : ℕ → ℕ → Poly} {keys : KeyPair} {externalMu : Bool}
    (hkeys : Keys P h f rho K_ s1 s2 t0 t1 A keys)
    (hs : Prepared P h fuel rho (squeeze (h.shake256 keys.publicKey) TR_BYTES)
      s1 s2 t0 msg externalMu s)
    (htau : P.TAU ≤ N) (homega : P.OMEGA < 2 ^ 8) (hle : fuel ≤ fuel')
    (hmu : externalMu = true → msg.length = CRH_BYTES) :
    internalVerify P h fuel' sig msg keys.publicKey externalMu = .ok true := by
  have hwrites := hpass.writes homega
  have hball := sampleInBall_inBall htau hpass.challenge
  refine internalVerify_iff.mpr ⟨rho, t1, cTilde, _, _, c,
    (commit P s y).map (mapPoly (HighBits P)), b1, hmu, hkeys.publicKey.decode,
    hwrites.length, hwrites.decode, ?_, sampleInBall_mono hle hpass.challenge,
    ?_, hpass.encode, ?_, ?_⟩
  · rw [List.forall_mem_map]
    intro p hp
    have hnorm := polyChknorm_false.mp (hpass.norm p hp)
    apply polyChknorm_false.mpr
    intro j hj
    rw [get_center hj, ← smod_congr (dvd_sub_smod _)]
    exact hnorm j hj
  · apply mapM_range_ok.mpr
    refine ⟨by rw [List.length_map, length_commit], ?_⟩
    intro i hi
    rw [List.length_map] at hi
    rw [List.getElem_map, ← nth_eq hi]
    exact hpass.row hkeys hs hball hle (length_commit ▸ hi)
  · -- no row has more ones than all rows together
    have hspec := hints_spec hpass.rows
    rw [List.forall_mem_map]
    intro r hr
    have hrow : r.2 ≤ (hints.map (·.2)).sum := by
      apply List.single_le_sum _ _ (List.mem_map.mpr ⟨r, hr, rfl⟩)
      rw [List.forall_mem_map]
      intro r hr
      rw [(hspec r hr).2]
      exact Int.natCast_nonneg _
    obtain ⟨hbinary, hones⟩ := hspec r hr
    rw [sum_binary hbinary, ← hones]
    exact hrow.trans hpass.count
  · rw [hpass.hash, hs.mu]

end

end KxcoPostQuantum.Vendor.MlDsa
