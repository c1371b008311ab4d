/-
Passes of ML-DSA signing that are rejected nowhere.

An element of the ring is `Small` where integers of a bounded size stand for
it. Sums and the products with a challenge are small again, so what a pass
computes is small where its mask, the secrets and the rows are; then every
number is in the bucket of zero, no hint is set, and each of the four checks
is passed (`finish_returns`).

# What it is for

What signing says of a signature it says where it returns one, and whether
it does depends on the hashes. Here are hashes for which that can be seen
by reasoning about sizes, where running the scheme would take far too long:
masks and secrets that are small and a matrix of small constants.
-/
import KxcoPostQuantum.Vendor.Proofs.DsaSign

namespace KxcoPostQuantum.Vendor.MlDsa

open Lib Lib.Negacyclic

-- ===================================================== small elements

/-- Integers no larger than the bound stand for the element. -/
def Small (B : ℤ) (x : Rq) : Prop :=
  ∃ v : ℕ → ℤ, x = value N (fun i => (v i : ZMod q)) ∧ ∀ i < N, |v i| ≤ B

section

variable {A B : ℤ} {x y : Rq} {p c : Poly}

/-- What a polynomial of small coefficients stands for is small. -/
theorem small_ringOf (h : ∀ j < N, |get p j| ≤ B) : Small B (ringOf p) :=
  ⟨get p, rfl, h⟩

/-- Zero is small. -/
theorem small_zero : Small 0 0 :=
  ⟨fun _ => 0, (value_zero fun _ _ => Int.cast_zero).symm, fun _ _ => le_rfl⟩

/-- A bound may be made larger. -/
theorem Small.mono (hx : Small A x) (hle : A ≤ B) : Small B x := by
  obtain ⟨v, rfl, hv⟩ := hx
  exact ⟨v, rfl, fun i hi => (hv i hi).trans hle⟩

/-- Bounds add up for a sum. -/
theorem Small.add (hx : Small A x) (hy : Small B y) : Small (A + B) (x + y) := by
  obtain ⟨v, rfl, hv⟩ := hx
  obtain ⟨w, rfl, hw⟩ := hy
  refine ⟨fun i => v i + w i, ?_, ?_⟩
  · exact (value_add fun i _ => Int.cast_add _ _).symm
  · intro i hi
    exact (abs_add_le _ _).trans (add_le_add (hv i hi) (hw i hi))

/-- Bounds add up for a difference. -/
theorem Small.sub (hx : Small A x) (hy : Small B y) : Small (A + B) (x - y) := by
  obtain ⟨v, rfl, hv⟩ := hx
  obtain ⟨w, rfl, hw⟩ := hy
  refine ⟨fun i => v i - w i, ?_, ?_⟩
  · exact (value_sub fun i _ => Int.cast_sub _ _).symm
  · intro i hi
    exact (abs_sub _ _).trans (add_le_add (hv i hi) (hw i hi))

/-- A sum of small elements. -/
theorem small_sum {L : ℕ} {f : ℕ → Rq} (h : ∀ j < L, Small B (f j)) :
    Small (L * B) (∑ j ∈ Finset.range L, f j) := by
  induction L with
  | zero =>
      rw [Finset.sum_range_zero, Nat.cast_zero, zero_mul]
      exact small_zero
  | succ L ih =>
      rw [Finset.sum_range_succ, Nat.cast_succ, add_mul, one_mul]
      exact (ih fun j hj => h j (Nat.lt_succ_of_lt hj)).add (h L (Nat.lt_succ_self L))

/-- **A challenge times a small element** is small. -/
theorem Small.challenge {k i : ℕ} (hx : Small B x) (hB : 0 ≤ B)
    (hc : InBall k i c) : Small (k * B) (x * ringOf c) := by
  obtain ⟨v, rfl, hv⟩ := hx
  refine ⟨convolve N (get c) v, ?_, fun j hj => abs_convolve_le hc.weight.le hB hv hj⟩
  rw [mul_comm]
  refine (value_mul _ _).trans (value_congr fun j _ => ?_)
  exact (cast_convolve j).symm

/-- The coefficients of a polynomial that stands for a small element. -/
theorem Small.slot (h : Small B (ringOf p)) {j : ℕ} (hj : j < N) :
    ∃ e : ℤ, Q ∣ get p j - e ∧ |e| ≤ B := by
  have hnontrivial := sound.nontrivial
  obtain ⟨v, hvalue, hv⟩ := h
  have hslot : ((get p j : ℤ) : ZMod q) = v j :=
    (value_eq_iff (by decide)).mp hvalue j hj
  refine ⟨v j, ?_, hv j hj⟩
  apply sound.cast_eq_zero.mp
  rw [Int.cast_sub, hslot, sub_self]

end

-- ============================================================== checks

section

variable {P : Params} {B bound : ℤ} {p u w : Poly}

/-- A small polynomial passes the check of its norm. -/
theorem Small.norm (h : Small B (ringOf p)) (hlt : B < bound) (hB : B < 2 ^ 21) :
    polyChknorm p bound = false := by
  apply polyChknorm_false.mpr
  intro j hj
  obtain ⟨e, hdvd, he⟩ := h.slot hj
  rw [smod_congr hdvd, smod_of_small (he.trans_lt hB)]
  exact he.trans_lt hlt

/-- A small number is in the bucket of zero. -/
theorem decompose_small {x e : ℤ} (hdvd : Q ∣ x - e) (he : |e| < P.GAMMA2) :
    decompose P x = (0, e) := by
  have hcases := gamma2_cases P
  rw [abs_lt] at he
  apply Splits.decompose_eq
  refine ⟨by omega, by omega, fun _ => rfl, ?_⟩
  rwa [zero_mul, zero_add]

/-- The remainder of a small number is small: the modulus is one more than a
multiple of `2 ^ D`. -/
theorem abs_power2Round_le {x e : ℤ} (hdvd : Q ∣ x - e) (he : |e| ≤ B)
    (hB : B < 4000) : |(Power2Round x).2| ≤ B + 1 := by
  obtain ⟨hsum, ⟨hlow, hhigh⟩, hmin, hmax⟩ := power2Round_spec x
  obtain ⟨hpos, hlt⟩ := reduced_mod x
  obtain ⟨k, hk⟩ := dvd_sub_mod x
  obtain ⟨l, hl⟩ := hdvd
  have hpow : (2 : ℤ) ^ D = 8192 := by decide
  rw [hpow] at hsum
  unfold Q at *
  rw [abs_le] at he ⊢
  obtain h | h : l = k ∨ l = k + 1 := by omega
  · subst h
    omega
  · subst h
    omega

/-- A small polynomial is its own low part. -/
theorem Small.low (h : Small B (ringOf w)) (hB : B < P.GAMMA2) :
    Small B (ringOf (mapPoly (LowBits P) w)) := by
  apply small_ringOf
  intro j hj
  obtain ⟨e, hdvd, he⟩ := h.slot hj
  rw [get_lowBits hj]
  unfold LowBits
  rw [decompose_small hdvd (he.trans_lt hB)]
  exact he

/-- A small polynomial is its own remainder in `Power2Round`, but for one in
each slot. -/
theorem Small.rounded (h : Small B (ringOf w)) (hB : B < 4000) :
    ∀ j < N, |get (polyPowerRound w).1 j| ≤ B + 1 := by
  intro j hj
  obtain ⟨e, hdvd, he⟩ := h.slot hj
  rw [(get_polyPowerRound hj).1]
  exact abs_power2Round_le hdvd he hB

/-- No hint is made for a small polynomial. -/
theorem Small.noHint (h : Small B (ringOf u)) (hu : AllOk (Reduced Q) u)
    (hB : B < P.GAMMA2) : (polyMakeHint P u w).2 = 0 := by
  obtain ⟨hslots, -, hcount⟩ := polyMakeHint_spec (P := P) (a := u) (b := w)
  have hones : ones (polyMakeHint P u w).1 = [] := by
    apply List.filter_eq_nil_iff.mpr
    intro j hj
    have hj := List.mem_range.mp hj
    obtain ⟨e, ⟨k, hk⟩, he⟩ := h.slot hj
    obtain ⟨hlow, hhigh⟩ := hu j hj
    have hcases := gamma2_cases P
    rw [abs_le] at he
    unfold Q at hk hhigh
    rw [hslots j hj]
    unfold MakeHint Q
    rw [if_pos (by omega)]
    decide
  rw [hcount, hones]
  rfl

end

-- ============================================================== a pass

/-- The product of a small polynomial and a challenge, which is taken of
their transforms, is small. -/
theorem small_product {p c : Poly} {k i : ℕ} {B : ℤ} (hc : InBall k i c)
    (hB : 0 ≤ B) (hle : B ≤ 2 ^ 30) (hp : ∀ j < N, |get p j| ≤ B) :
    Small (k * B) (ringOf (crystals.decode
      (MultiplyNTTs (crystals.encode p) (crystals.encode c)))) := by
  rw [(hat_decode (hat_MultiplyNTTs
    (hat_encode fun j hj => (hp j hj).trans hle)
    (hat_encode (small_of_inBall hc)))).2]
  exact (small_ringOf hp).challenge hB hc

/-- The product of a secret and a challenge is what `BETA` bounds. -/
theorem Short.small_product {P : Params} {p c : Poly} {i : ℕ}
    (hp : Short P p) (hc : InBall P.TAU i c) :
    Small P.BETA (ringOf (crystals.decode
      (MultiplyNTTs (crystals.encode p) (crystals.encode c)))) := by
  have heta := P.eta_known
  exact MlDsa.small_product hc (by omega) (by omega) hp

/-- **A pass with small numbers returns a signature.** The numbers are those
of the mask `y`, of the rows that are committed to, and of the key; what is
asked of their sizes is that the four checks of a pass, which compare with
`GAMMA1` and `GAMMA2`, have room for them. -/
theorem finish_returns {P : Params} {h : Hashes} {fuel : ℕ} {s : Signing}
    {y : List Poly} {Y W T : ℤ} (homega : P.OMEGA < 2 ^ 8) (htau : P.TAU ≤ N)
    (hball : ∀ seed, ∃ c, SampleInBall P h fuel seed = .ok c)
    (hlength : y.length = P.L) (hy : ∀ p ∈ y, ∀ j < N, |get p j| ≤ Y)
    (hw : ∀ i < P.K, Small W (ringOf (nth (commit P s y) i)))
    (hs1 : ∀ i < P.L, ∃ p, Short P p ∧ nth s.s1 i = crystals.encode p)
    (hs2 : ∀ i < P.K, ∃ p, Short P p ∧ nth s.s2 i = crystals.encode p)
    (ht0 : ∀ i < P.K, ∃ p, (∀ j < N, |get p j| ≤ T)
      ∧ nth s.t0 i = crystals.encode p)
    (hmask : P.BETA + Y < P.GAMMA1 - P.BETA)
    (hrow : W + P.BETA < P.GAMMA2 - P.BETA) (hW : 0 ≤ W) (hT : 0 ≤ T)
    (hT' : T ≤ 2 ^ 30)
    (hhint : W + P.BETA + P.TAU * T < P.GAMMA2) :
    ∃ sig, finish P h fuel s y = .ok (some sig) := by
  have heta := P.eta_known
  have hbeta : 0 ≤ P.BETA := mul_nonneg (Int.natCast_nonneg _) (by omega)
  have htop : 0 ≤ P.TAU * T := mul_nonneg (Int.natCast_nonneg _) hT
  have hgamma1 := P.gamma1_known
  have hgamma2 := gamma2_cases P
  obtain ⟨b1, hb1⟩ := w1Vec_encode (P := P)
    (w := (commit P s y).map (mapPoly (HighBits P)))
    (by rw [List.length_map, length_commit])
    (List.forall_mem_map.mpr fun p _ => buckets_highBits p)
  obtain ⟨c, hc⟩ := hball (squeeze (h.shake256 (s.mu ++ b1)) P.C_TILDE_BYTES)
  have hinBall := sampleInBall_inBall htau hc
  -- what is looked at of a row
  have hleft : ∀ i < P.K, Small (W + P.BETA) (ringOf (mapPoly (LowBits P)
      (polySub (nth (commit P s y) i) (crystals.decode
        (MultiplyNTTs (nth s.s2 i) (crystals.encode c)))))) := by
    intro i hi
    obtain ⟨p, hp, hs2⟩ := hs2 i hi
    apply Small.low _ (by omega)
    rw [ringOf_polySub, hs2]
    exact (hw i hi).sub (hp.small_product hinBall)
  have hright : ∀ i < P.K, Small (P.TAU * T) (ringOf (crystals.decode
      (MultiplyNTTs (nth s.t0 i) (crystals.encode c)))) := by
    intro i hi
    obtain ⟨p, hp, ht0⟩ := ht0 i hi
    rw [ht0]
    exact small_product hinBall hT hT' hp
  have hrows := mapM_range_map (n := P.K) (f := hintOf P s (crystals.encode c)
      (commit P s y) ((commit P s y).map (mapPoly (HighBits P)))) fun i hi =>
    hintOf_ok.mpr ⟨(hleft i hi).norm hrow (by omega),
      (hright i hi).norm (by omega) (by omega), rfl⟩
  refine finish_some homega hb1 hc ?_ hrows ?_
  · apply forall_mem
    intro i hi
    rw [length_respond] at hi
    obtain ⟨p, hp, hs1⟩ := hs1 i hi
    rw [nth_respond hi, hs1]
    apply Small.norm (B := P.BETA + Y) _ hmask (by omega)
    rw [ringOf_polyAdd]
    exact (hp.small_product hinBall).add
      (small_ringOf (hy _ (nth_mem (hlength ▸ hi))))
  · rw [List.map_map, List.sum_eq_zero]
    · exact Int.natCast_nonneg _
    · intro x hx
      obtain ⟨i, hi, rfl⟩ := List.mem_map.mp hx
      have hi := List.mem_range.mp hi
      apply Small.noHint (B := W + P.BETA + P.TAU * T) _ reduced_polyAdd hhint
      rw [ringOf_polyAdd]
      exact (hleft i hi).add (hright i hi)

end KxcoPostQuantum.Vendor.MlDsa
