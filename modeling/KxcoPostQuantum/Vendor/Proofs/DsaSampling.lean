/-
What the samplers of ML-DSA draw.

Coefficients of the matrix are reduced (`rejNTTPoly_reduced`), those of the
secret vectors lie between `-ETA` and `ETA` (`rejBoundedPoly_short`), and a
challenge has exactly `TAU` coefficients that are one or minus one, all
others being zero (`sampleInBall_inBall`). The last is an invariant of the
swaps: before the pass for the position `i` all is zero from `i` on
(`InBall`), so moving a coefficient there loses none.

Each of them returns the same with more fuel (`rejNTTPoly_mono`,
`sampleInBall_mono`). The first two return the first candidates they accept
of all that is drawn (`samplers_exact`).
-/
import KxcoPostQuantum.Vendor.Proofs.DsaPoly
import KxcoPostQuantum.Vendor.Proofs.Sampling

namespace KxcoPostQuantum.Vendor.MlDsa

open Lib Finset

section

variable {fuel fuel' : ℕ} {xof : ℕ → Bytes} {p : Poly}

-- =========================================================== the matrix

/-- What is stored of a block is below the modulus, for a candidate that is
not is passed over. By induction over the candidates of the block. -/
theorem rejNTTBytes_reduced (b : Bytes) (s : ℕ × Poly)
    (hs : AllOk (Reduced Q) s.2) : AllOk (Reduced Q) (rejNTTBytes b s).2 := by
  induction b, s using rejNTTBytes.induct with
  | case1 b0 b1 b2 rest j r hj t ih =>
      rw [rejNTTBytes, if_pos hj]
      apply ih
      show AllOk (Reduced Q) (if t < Q then (j + 1, set r j t) else (j, r)).2
      split
      next hlt =>
        have hlow : 0 ≤ t := by
          have hmask := bitAnd_mask (bitOr (bitOr b0.toNat (shl b1.toNat 8))
            (shl b2.toNat 16)) (d := 23) (by norm_num)
          norm_num at hmask
          show 0 ≤ bitAnd _ 0x7fffff
          rw [hmask]
          exact Int.emod_nonneg _ (by norm_num)
        have hreduced : Reduced Q t := ⟨hlow, hlt⟩
        intro i hi
        by_cases heq : j = i
        · subst heq
          rw [get_set hi (keeps_of_reduced hreduced)]
          exact hreduced
        · rw [get_set_of_ne heq]
          exact hs i hi
      next => exact hs
  | case2 b0 b1 b2 rest j r hj =>
      rw [rejNTTBytes, if_neg hj]
      exact hs
  | case3 b s hshort =>
      rw [rejNTTBytes]
      · exact hs
      · exact hshort

/-- **An entry of the matrix** is reduced. -/
theorem rejNTTPoly_reduced (h : RejNTTPoly fuel xof = .ok p) :
    AllOk (Reduced Q) p := by
  obtain ⟨s, hs, rfl⟩ := run_map_ok.mp h
  refine (sample_induction (P := fun s => AllOk (Reduced Q) s.2) ?_ ?_ hs).1
  · intro i hi
    rw [newPoly, get_zeros]
    exact ⟨le_rfl, by decide⟩
  · intro b s t hreduced _ ht
    split at ht
    next => cases ht
    next =>
      cases ht
      exact rejNTTBytes_reduced b s hreduced

/-- More blocks do not change what has been sampled. -/
theorem rejNTTPoly_mono (hle : fuel ≤ fuel')
    (h : RejNTTPoly fuel xof = .ok p) : RejNTTPoly fuel' xof = .ok p := by
  obtain ⟨s, hs, rfl⟩ := run_map_ok.mp h
  exact run_map_ok.mpr ⟨s, sample_mono hle hs, rfl⟩

-- ========================================================== the secrets

/-- The mask of the low half byte is a remainder. -/
theorem bitAnd_15 (x : ℤ) : bitAnd x 0x0f = x % 16 := by
  have hmask := bitAnd_mask x (d := 4) (by norm_num)
  norm_num at hmask
  exact hmask

variable {P : Params}

/-- A half byte that is accepted gives a coefficient of at most `eta`: it is
below fifteen and taken modulo five, or below nine. -/
theorem coefFromHalfByte_range {n c : ℤ}
    (h : CoefFromHalfByte P (bitAnd n 0x0f) = some c) : |c| ≤ P.ETA := by
  rw [bitAnd_15] at h
  rw [abs_le]
  unfold CoefFromHalfByte at h
  rcases P.eta_known with heta | heta
  · rw [if_pos heta] at h
    split at h
    next =>
      cases h
      omega
    next => cases h
  · rw [if_neg (by omega)] at h
    split at h
    next =>
      cases h
      omega
    next => cases h

/-- A coefficient of at most `eta` fits in an `Int32Array`. -/
theorem keeps_of_eta {c : ℤ} (h : |c| ≤ P.ETA) : Keeps Int32 c := by
  apply keeps_of_abs
  have := P.eta_known
  omega

variable (P) in
/-- A polynomial of a secret vector. -/
def Short (p : Poly) : Prop := ∀ i < N, |get p i| ≤ P.ETA

/-- Store a candidate, where there is one. -/
def keepHalf (d : Option ℤ) (s : ℕ × Poly) : ℕ × Poly :=
  d.elim s fun d => (s.1 + 1, set s.2 s.1 d)

/-- Storing one, or none, leaves the polynomial short. -/
theorem short_keepHalf {s : ℕ × Poly} (hs : Short P s.2) (n : ℤ) :
    Short P (keepHalf (CoefFromHalfByte P (bitAnd n 0x0f)) s).2 := by
  cases hd : CoefFromHalfByte P (bitAnd n 0x0f) with
  | none => exact hs
  | some d =>
      have hrange := coefFromHalfByte_range hd
      intro i hi
      show |get (set s.2 s.1 d) i| ≤ P.ETA
      by_cases heq : s.1 = i
      · rw [heq, get_set hi (keeps_of_eta hrange)]
        exact hrange
      · rw [get_set_of_ne heq]
        exact hs i hi

/-- One byte: its low half, then its high half if there is room. -/
theorem rejBoundedBytes_cons (b : UInt8) (rest : Bytes) (s : ℕ × Poly) :
    rejBoundedBytes P (b :: rest) s = if s.1 < N then
        let t := keepHalf (CoefFromHalfByte P (bitAnd b.toNat 0x0f)) s
        rejBoundedBytes P rest (if t.1 < N then keepHalf (CoefFromHalfByte P
          (bitAnd (shr b.toNat 4) 0x0f)) t else t)
      else s := by
  obtain ⟨j, r⟩ := s
  rw [rejBoundedBytes]
  rfl

/-- What is stored of a block is short. -/
theorem rejBoundedBytes_short (b : Bytes) (s : ℕ × Poly) (hs : Short P s.2) :
    Short P (rejBoundedBytes P b s).2 := by
  induction b generalizing s with
  | nil => exact hs
  | cons b rest ih =>
      rw [rejBoundedBytes_cons]
      by_cases hj : s.1 < N
      · rw [if_pos hj]
        have hfirst := short_keepHalf hs b.toNat
        generalize keepHalf (CoefFromHalfByte P (bitAnd b.toNat 0x0f)) s = t
          at hfirst ⊢
        dsimp only
        by_cases hj' : t.1 < N
        · rw [if_pos hj']
          exact ih _ (short_keepHalf hfirst _)
        · rw [if_neg hj']
          exact ih _ hfirst
      · rw [if_neg hj]
        exact hs

/-- The sampler returns the array its loop ends with. -/
theorem rejBoundedPoly_ok : RejBoundedPoly P fuel xof = .ok p
    ↔ ∃ s, sample (fun (s : Nat × Poly) => decide (N ≤ s.1))
      (fun b s => .ok (rejBoundedBytes P b s)) xof fuel 0 (0, newPoly) = .ok s
      ∧ s.2 = p := by
  unfold RejBoundedPoly
  exact run_map_ok

/-- **The coefficients of a secret** lie between `-ETA` and `ETA`. -/
theorem rejBoundedPoly_short (h : RejBoundedPoly P fuel xof = .ok p) :
    Short P p := by
  have hstart : Short P newPoly := by
    intro i _
    rw [newPoly, get_zeros, abs_zero]
    have := P.eta_known
    omega
  obtain ⟨s, hs, rfl⟩ := rejBoundedPoly_ok.mp h
  have hgather : ∀ (b : Bytes) (s t : ℕ × Poly), Short P s.2 →
      decide (N ≤ s.1) = false →
      (Except.ok (rejBoundedBytes P b s) : Run (ℕ × Poly)) = .ok t →
      Short P t.2 := by
    intro b s t hshort _ ht
    rw [← Except.ok.inj ht]
    exact rejBoundedBytes_short b s hshort
  have hrun := @sample_induction (ℕ × Poly) _ _ xof fuel 0 (0, newPoly) s
    (fun s => Short P s.2) hstart hgather hs
  exact hrun.1

end

-- ============================================================ challenges

/-- `k` coefficients are one or minus one; all is zero from `i` on. -/
structure InBall (k i : ℕ) (p : Poly) : Prop where
  unit : ∀ j < N, |get p j| ≤ 1
  zero : ∀ j < N, i ≤ j → get p j = 0
  weight : ∑ j ∈ range N, |get p j| = k

section

variable {k i b : ℕ} {p : Poly}

/-- **A pass of the swaps**: one coefficient more, none lost. The one that
stood in the chosen place goes to the end, and in its place there is the new
one. -/
theorem InBall.swap (h : InBall k i p) (hi : i < N) (hb : b ≤ i) {v : ℤ}
    (hv : |v| = 1) :
    InBall (k + 1) (i + 1) (set (set p i (get p b)) b v) := by
  have hkeep : Keeps Int32 v := keeps_of_abs (by rw [hv]; norm_num)
  have hkeep' : Keeps Int32 (get p b) := get_keeps p b
  have hslot : ∀ j, get (set (set p i (get p b)) b v) j
      = if j = b then v else if j = i then get p b else get p j := by
    intro j
    by_cases hjb : j = b
    · subst hjb
      rw [if_pos rfl, get_set (by omega) hkeep]
    · rw [if_neg hjb, get_set_of_ne (Ne.symm hjb)]
      by_cases hji : j = i
      · subst hji
        rw [if_pos rfl, get_set hi hkeep']
      · rw [if_neg hji, get_set_of_ne (Ne.symm hji)]
  have hzero := h.zero i hi le_rfl
  refine ⟨?_, ?_, ?_⟩
  · intro j hj
    rw [hslot]
    split
    next => exact hv.le
    next =>
      split
      next => exact h.unit b (by omega)
      next => exact h.unit j hj
  · intro j hj hle
    rw [hslot, if_neg (by omega), if_neg (by omega)]
    exact h.zero j hj (by omega)
  · -- the slot `i` was zero, so what moves there is not counted twice
    have hchange : ∀ j, |get (set (set p i (get p b)) b v) j|
        = |get p j| + (if j = b then 1 - |get p b| else 0)
          + (if j = i then |get p b| else 0) := by
      intro j
      rw [hslot]
      by_cases hjb : j = b
      · subst hjb
        rw [if_pos rfl, if_pos rfl, hv]
        by_cases hji : j = i
        · subst hji
          rw [if_pos rfl, hzero]
          norm_num
        · rw [if_neg hji]
          ring
      · rw [if_neg hjb, if_neg hjb]
        by_cases hji : j = i
        · subst hji
          rw [if_pos rfl, if_pos rfl, hzero]
          norm_num
        · rw [if_neg hji, if_neg hji]
          ring
    rw [sum_congr rfl fun j _ => hchange j, sum_add_distrib, sum_add_distrib,
      h.weight, sum_ite_eq', sum_ite_eq', if_pos (mem_range.mpr (by omega)),
      if_pos (mem_range.mpr hi)]
    push_cast
    ring

/-- A position is drawn until it is no larger than the bound; those above it
are passed over. -/
theorem positionBelow_le {xof : ℕ → Bytes} {fuel : ℕ} {read next : ℕ × ℕ}
    (h : positionBelow xof i fuel read = .ok (b, next)) : b ≤ i := by
  induction fuel generalizing read with
  | zero => cases h
  | succ fuel ih =>
      obtain ⟨call, pos⟩ := read
      unfold positionBelow at h
      dsimp only at h
      by_cases hlt : i < ((xof call).getD pos 0).toNat
      · rw [if_pos hlt] at h
        exact ih h
      · rw [if_neg hlt] at h
        have hbyte := congrArg Prod.fst (Except.ok.inj h)
        dsimp only at hbyte
        omega

/-- More fuel does not change the position that is drawn. -/
theorem positionBelow_mono {xof : ℕ → Bytes} {fuel fuel' : ℕ}
    {read : ℕ × ℕ} {r : ℕ × ℕ × ℕ} (hle : fuel ≤ fuel')
    (h : positionBelow xof i fuel read = .ok r) :
    positionBelow xof i fuel' read = .ok r := by
  induction fuel generalizing fuel' read with
  | zero => cases h
  | succ fuel ih =>
      obtain ⟨fuel', rfl⟩ := Nat.exists_eq_add_of_le hle
      obtain ⟨call, pos⟩ := read
      rw [Nat.add_right_comm]
      unfold positionBelow at h ⊢
      dsimp only at h ⊢
      split at h
      next hlt =>
        rw [if_pos hlt]
        exact ih (Nat.le_add_right _ _) h
      next hlt => rw [if_neg hlt, h]

/-- The sign a bit stands for. -/
theorem sign_unit (x : ℤ) : |1 - shl (bitAnd x 1) 1| = 1 := by
  have hbit : bitAnd x 1 = x % 2 := bitAnd_mask x (d := 1) (by norm_num)
  rw [hbit]
  rcases Int.emod_two_eq_zero_or_one x with h | h
  · rw [h]
    decide
  · rw [h]
    decide

/-- **One pass of the shuffle** sets one more coefficient, to one or minus
one, and moves what was there to the new place. -/
theorem ballPass_inBall {fuel : ℕ} {xof : ℕ → Bytes} {s t : Ball}
    (hs : InBall k i s.pre) (hi : i < N) (h : ballPass fuel xof i s = .ok t) :
    InBall (k + 1) (i + 1) t.pre := by
  unfold ballPass at h
  obtain ⟨⟨b, read⟩, hb, ht⟩ := run_bind_ok.mp h
  have hswap := hs.swap hi (positionBelow_le hb)
    (sign_unit (shr ((((xof 0).take 8).getD s.maskPos 0).toNat : ℤ) s.maskBit))
  dsimp only at ht
  split at ht
  next =>
    cases ht
    exact hswap
  next =>
    cases ht
    exact hswap

/-- More fuel does not change a pass of the shuffle. -/
theorem ballPass_mono {fuel fuel' : ℕ} {xof : ℕ → Bytes} {s t : Ball}
    (hle : fuel ≤ fuel') (h : ballPass fuel xof i s = .ok t) :
    ballPass fuel' xof i s = .ok t := by
  unfold ballPass at h ⊢
  obtain ⟨r, hr, ht⟩ := run_bind_ok.mp h
  exact run_bind_ok.mpr ⟨r, positionBelow_mono hle hr, ht⟩

end

section

variable {P : Params} {h : Hashes} {fuel fuel' : ℕ} {seed : Bytes} {c : Poly}

/-- **A challenge** has `TAU` coefficients that are one or minus one, and
zeros beside them. By induction over the passes of the shuffle. -/
theorem sampleInBall_inBall (htau : P.TAU ≤ N)
    (hc : SampleInBall P h fuel seed = .ok c) : InBall P.TAU N c := by
  obtain ⟨s, hs, rfl⟩ := run_map_ok.mp hc
  have hrun := loopM_induction
    (P := fun k (s : Ball) => InBall k (N - P.TAU + k) s.pre) ?_ ?_ hs
  · rwa [Nat.sub_add_cancel htau] at hrun
  · refine ⟨?_, ?_, ?_⟩
    · intro j _
      rw [newPoly, get_zeros]
      norm_num
    · intro j _ _
      exact get_zeros
    · simp only [newPoly, get_zeros, abs_zero, sum_const_zero, Nat.cast_zero]
  · intro k hk s t hball ht
    have hi : N - P.TAU + k < N := by omega
    exact ballPass_inBall hball hi ht

/-- More fuel does not change the challenge. -/
theorem sampleInBall_mono (hle : fuel ≤ fuel')
    (hc : SampleInBall P h fuel seed = .ok c) :
    SampleInBall P h fuel' seed = .ok c := by
  obtain ⟨s, hs, rfl⟩ := run_map_ok.mp hc
  exact run_map_ok.mpr
    ⟨s, loopM_mono (fun _ _ _ _ ht => ballPass_mono hle ht) hs, rfl⟩

end

-- ======================================================= what is drawn

section

/-- The numbers of 23 bits, of three bytes each, that are below the
modulus. -/
def matrixCandidates : Bytes → List ℤ
  | b0 :: b1 :: b2 :: rest =>
      ([((b0.toNat + 256 * b1.toNat + 65536 * (b2.toNat % 128) : ℕ) : ℤ)].filter
        (· < Q)) ++ matrixCandidates rest
  | _ => []

/-- The candidates that are accepted are below the modulus. -/
theorem matrixCandidates_reduced (b : Bytes) :
    ∀ x ∈ matrixCandidates b, Reduced Q x := by
  induction b using matrixCandidates.induct with
  | case1 b0 b1 b2 rest ih =>
      intro x hx
      rw [matrixCandidates, List.mem_append, List.mem_filter] at hx
      rcases hx with ⟨hx, hlt⟩ | hx
      · rw [List.mem_singleton.mp hx] at hlt ⊢
        exact ⟨Int.natCast_nonneg _, of_decide_eq_true hlt⟩
      · exact ih x hx
  | case2 b hshort =>
      intro x hx
      rw [matrixCandidates] at hx
      · cases hx
      · exact hshort

/-- Three bytes make a number of 23 bits. -/
theorem matrix_candidate (b0 b1 b2 : UInt8) :
    bitAnd (bitOr (bitOr b0.toNat (shl b1.toNat 8)) (shl b2.toNat 16)) 0x7fffff
      = (b0.toNat + 256 * b1.toNat + 65536 * (b2.toNat % 128) : ℕ) := by
  have h0 := b0.toNat_lt
  have h1 := b1.toNat_lt
  have h2 := b2.toNat_lt
  have hmask : ∀ x : ℤ, bitAnd x 0x7fffff = x % 8388608 := by
    intro x
    have hmask := bitAnd_mask x (d := 23) (by norm_num)
    norm_num at hmask
    exact hmask
  rw [bitOr_shl (by omega) (by omega) (by norm_num),
    bitOr_shl (by omega) (by omega) (by norm_num), hmask]
  omega

/-- A candidate, stored if it is below the modulus. -/
theorem fill_one (t : ℤ) {s : ℕ × Poly} (hs : s.1 < N) :
    fill ([t].filter (· < Q)) s = if t < Q then (s.1 + 1, set s.2 s.1 t) else s := by
  by_cases h : t < Q
  · have hfilter : [t].filter (· < Q) = [t] := by simp [h]
    rw [hfilter, if_pos h]
    exact if_pos hs
  · have hfilter : [t].filter (· < Q) = [] := by simp [h]
    rw [hfilter, if_neg h]
    rfl

/-- A block is stored as its candidates are. -/
theorem rejNTTBytes_eq (b : Bytes) (s : ℕ × Poly) :
    rejNTTBytes b s = fill (matrixCandidates b) s := by
  induction b using matrixCandidates.induct generalizing s with
  | case1 b0 b1 b2 rest ih =>
      obtain ⟨j, r⟩ := s
      by_cases hj : j < N
      · rw [matrixCandidates, fill_append, fill_one _ hj, ← ih, rejNTTBytes,
          if_pos hj]
        simp only [matrix_candidate]
      · rw [fill_full (not_lt.mp hj), rejNTTBytes, if_neg hj]
  | case2 b hshort =>
      rw [matrixCandidates, rejNTTBytes]
      · rfl
      · exact fun b0 b1 b2 rest _ _ hb _ => hshort b0 b1 b2 rest hb
      · exact hshort

variable (P : Params)

/-- The coefficients the two halves of each byte stand for. -/
def secretCandidates (b : Bytes) : List ℤ :=
  b.flatMap fun b => [((b.toNat % 16 : ℕ) : ℤ), ((b.toNat / 16 : ℕ) : ℤ)].filterMap
    (CoefFromHalfByte P)

variable {P}

/-- Storing a half byte, if it is accepted, is storing a list of one or of
none. -/
theorem keepHalf_eq {s : ℕ × Poly} (hs : s.1 < N) (d : Option ℤ) :
    keepHalf d s = fill d.toList s := by
  cases d with
  | none => rfl
  | some d => exact (if_pos hs).symm

/-- Two halves are looked at one after the other. -/
theorem filterMap_pair {α β : Type} (f : α → Option β) (a b : α) :
    [a, b].filterMap f = (f a).toList ++ (f b).toList := by
  cases ha : f a <;> cases hb : f b <;> simp [ha, hb]

/-- **A block of bytes is a list of candidates**, which are stored until the
array is full. -/
theorem rejBoundedBytes_eq (b : Bytes) (s : ℕ × Poly) :
    rejBoundedBytes P b s = fill (secretCandidates P b) s := by
  have hhalves : ∀ b : UInt8, bitAnd b.toNat 0x0f = (b.toNat % 16 : ℕ)
      ∧ bitAnd (shr b.toNat 4) 0x0f = (b.toNat / 16 : ℕ) := by
    intro b
    have hlt := b.toNat_lt
    rw [bitAnd_15, bitAnd_15, shr_natCast (by omega) (by norm_num)]
    omega
  induction b generalizing s with
  | nil => rfl
  | cons b rest ih =>
      obtain ⟨hlow, hhigh⟩ := hhalves b
      rw [rejBoundedBytes_cons]
      by_cases hs : s.1 < N
      · have hrest : secretCandidates P (b :: rest)
            = (CoefFromHalfByte P (b.toNat % 16 : ℕ)).toList
              ++ ((CoefFromHalfByte P (b.toNat / 16 : ℕ)).toList
                ++ secretCandidates P rest) := by
          unfold secretCandidates
          rw [List.flatMap_cons, filterMap_pair, List.append_assoc]
        rw [if_pos hs, hrest, fill_append, fill_append, ← ih, hlow, hhigh]
        dsimp only
        rw [keepHalf_eq hs]
        split
        next h => rw [keepHalf_eq h]
        next h => rw [fill_full (not_lt.mp h)]
      · rw [if_neg hs, fill_full (not_lt.mp hs)]

/-- The candidates fit in the array. -/
theorem secretCandidates_keeps (b : Bytes) :
    ∀ x ∈ secretCandidates P b, Keeps Int32 x := by
  intro x hx
  obtain ⟨b, -, hx⟩ := List.mem_flatMap.mp hx
  obtain ⟨n, hn, hx⟩ := List.mem_filterMap.mp hx
  have hlt := b.toNat_lt
  have hhalf : n = bitAnd n 0x0f := by
    rw [bitAnd_15]
    rcases List.mem_cons.mp hn with rfl | hn
    · omega
    · rw [List.mem_singleton.mp hn]
      omega
  rw [hhalf] at hx
  exact keeps_of_eta (coefFromHalfByte_range hx)

end

/-- An entry of the matrix is the first candidates that are accepted. -/
theorem rejNTTPoly_exact {h : Hashes} {seed : Bytes} {x y fuel : ℕ} {p : Poly} :
    RejNTTPoly fuel (XOF128 h seed x y) = .ok p
      ↔ N ≤ (accepted matrixCandidates (XOF128 h seed x y) fuel).length
        ∧ ∀ i < N, get p i
          = (accepted matrixCandidates (XOF128 h seed x y) fuel).getD i 0 := by
  unfold RejNTTPoly
  refine run_map_ok.trans (sample_exact ?_ ?_)
  · intro call s
    have haligned : (XOF128 h seed x y call).length % 3 = 0 := by
      rw [show (XOF128 h seed x y call).length = 168 from length_squeeze _ _]
    rw [if_neg (not_not_intro haligned), rejNTTBytes_eq]
  · intro b x hx
    exact keeps_of_reduced (matrixCandidates_reduced b x hx)

/-- **The samplers return the first candidates they accept**, once they have
drawn enough of them; where a block ends makes no difference. For the matrix
a candidate is three bytes without their top bit, for a secret each half of
a byte. -/
theorem samplers_exact (P : Params) (h : Hashes) (seed : Bytes) (x y fuel : ℕ)
    (xof : ℕ → Bytes) (p : Poly) :
    (RejNTTPoly fuel (XOF128 h seed x y) = .ok p
        ↔ N ≤ (accepted matrixCandidates (XOF128 h seed x y) fuel).length
          ∧ ∀ i < N, get p i
            = (accepted matrixCandidates (XOF128 h seed x y) fuel).getD i 0)
      ∧ (RejBoundedPoly P fuel xof = .ok p
        ↔ N ≤ (accepted (secretCandidates P) xof fuel).length
          ∧ ∀ i < N, get p i
            = (accepted (secretCandidates P) xof fuel).getD i 0) := by
  refine ⟨rejNTTPoly_exact, ?_⟩
  refine rejBoundedPoly_ok.trans (sample_exact ?_ secretCandidates_keeps)
  intro call s
  rw [rejBoundedBytes_eq]

-- ============================================================== instances

/-- What the instances satisfy beyond what is checked of their options. -/
theorem PARAMS_fit (set : ParamSet) :
    (PARAMS set).TAU ≤ N ∧ (PARAMS set).OMEGA < 2 ^ 8 := by
  cases set <;> decide

/-- The bytes of SHAKE256 of the hashes below: masks are small, as all words
of eighteen bits are near 2^17, and some of the half bytes are rejected. -/
def waves (b : UInt8) (k : ℕ) : UInt8 :=
  [b, 0, 2, 0, 8, 0, 0x20, 0, 0x80].getD (k % 9) 0

/-- The bytes of SHAKE128: a candidate that is rejected, then those of a
constant. -/
def steps (b : UInt8) (k : ℕ) : UInt8 :=
  if k < 3 then 0xff else if k % 3 = 0 then b else 0

/-- Hashes that look at the sum of all bytes. -/
def toy : Hashes where
  shake128 data := steps (if weight data % 2 = 0 then 1 else 2)
  shake256 data := waves (if weight data % 2 = 0 then 0x3f else 0xf1)
  sha3_256 data := Vector.replicate 32 (weight data).toUInt8
  sha3_512 data := Vector.replicate 64 (weight data).toUInt8

/-- A polynomial whose transform is constant. -/
def level (c : Int32) : Poly := Vector.replicate N c

/-- Each coefficient is the constant. -/
theorem get_level (c : Int32) {j : ℕ} (hj : j < N) :
    get (level c) j = c.toInt := by
  unfold get level
  rw [load_replicate hj]
  rfl

/-- The first candidate is rejected, the others are a constant. -/
theorem toy_matrix (rho : Bytes) (x y : ℕ) :
    RejNTTPoly 5 (XOF128 toy rho x y) = .ok (level 1)
      ∨ RejNTTPoly 5 (XOF128 toy rho x y) = .ok (level 2) := by
  have hsteps : ∀ c ∈ [((1 : UInt8), (1 : Int32)), (2, 2)],
      accepted matrixCandidates (fun call => squeeze
        (fun i => steps c.1 (call * 168 + i)) 168) 5
      = List.replicate 279 c.2.toInt :=
    List.forall_iff_forall_mem.mp (by decide +kernel)
  have hread : ∀ c ∈ [((1 : UInt8), (1 : Int32)), (2, 2)],
      (XOF128 toy rho x y = fun call => squeeze
        (fun i => steps c.1 (call * 168 + i)) 168) →
      RejNTTPoly 5 (XOF128 toy rho x y) = .ok (level c.2) := by
    intro c hc hxof
    rw [rejNTTPoly_exact, hxof, hsteps c hc, List.length_replicate]
    refine ⟨by decide, ?_⟩
    intro i hi
    have hi' : i < 279 := hi.trans (by decide)
    rw [get_level _ hi, List.getD_eq_getElem _ _ (by rwa [List.length_replicate]),
      List.getElem_replicate]
  by_cases hdata : weight (rho ++ [x.toUInt8, y.toUInt8]) % 2 = 0
  · left
    apply hread (1, 1) List.mem_cons_self
    unfold XOF128 createXofShake toy
    simp only [if_pos hdata]
    rfl
  · right
    apply hread (2, 2) (List.mem_cons_of_mem _ List.mem_cons_self)
    unfold XOF128 createXofShake toy
    simp only [if_neg hdata]
    rfl

/-- What holds of both streams of SHAKE256. -/
theorem toy_waves {motive : (ℕ → UInt8) → Prop} (hlow : motive (waves 0x3f))
    (hhigh : motive (waves 0xf1)) (data : Bytes) : motive (toy.shake256 data) := by
  show motive (waves (if weight data % 2 = 0 then 0x3f else 0xf1))
  split
  next => exact hlow
  next => exact hhigh

/-- A secret is sampled, whatever is hashed. -/
theorem toy_noise (seed : Bytes) (x y : ℕ) :
    ∃ p, RejBoundedPoly (PARAMS .ml_dsa44) 5
      (XOF256 toy shake256BlockLen seed x y) = .ok p := by
  apply returns_of_isOk
  apply toy_waves (motive := fun stream => (RejBoundedPoly (PARAMS .ml_dsa44) 5
    fun call => squeeze (fun i => stream (call * 136 + i)) 136).isOk = true)
  · decide +kernel
  · decide +kernel

/-- So is a challenge. -/
theorem toy_ball (seed : Bytes) :
    ∃ c, SampleInBall (PARAMS .ml_dsa44) toy 5 seed = .ok c := by
  apply returns_of_isOk
  apply toy_waves (motive := fun stream => (SampleInBall (PARAMS .ml_dsa44)
    { toy with shake256 := fun _ => stream } 5 []).isOk = true)
  · decide +kernel
  · decide +kernel

/-- **What the samplers of an instance return**: reduced entries of the
matrix, short secrets, and challenges of the weight `TAU`. Nothing is
assumed of the hashes, or of how many blocks may be drawn, but that the
samplers return. -/
theorem samplers_range {set : ParamSet} {h : Hashes} {fuel : ℕ}
    {xof xof' : ℕ → Bytes} {seed : Bytes} {a s c : Poly}
    (ha : RejNTTPoly fuel xof = .ok a)
    (hs : RejBoundedPoly (PARAMS set) fuel xof' = .ok s)
    (hc : SampleInBall (PARAMS set) h fuel seed = .ok c) :
    AllOk (Reduced Q) a ∧ Short (PARAMS set) s
      ∧ InBall (PARAMS set).TAU N c :=
  ⟨rejNTTPoly_reduced ha, rejBoundedPoly_short hs,
    sampleInBall_inBall (PARAMS_fit set).1 hc⟩

/-- All three samplers, on the bytes 1, 2 and 3. -/
theorem samplers_range_toy : ∃ a s c : Poly, AllOk (Reduced Q) a
    ∧ Short (PARAMS .ml_dsa44) s ∧ InBall (PARAMS .ml_dsa44).TAU N c := by
  obtain ⟨s, hs⟩ := toy_noise [1, 2, 3] 0 1
  obtain ⟨c, hc⟩ := toy_ball [1, 2, 3]
  obtain ha | ha := toy_matrix [1, 2, 3] 0 1
  · exact ⟨_, s, c, samplers_range ha hs hc⟩
  · exact ⟨_, s, c, samplers_range ha hs hc⟩

end KxcoPostQuantum.Vendor.MlDsa
