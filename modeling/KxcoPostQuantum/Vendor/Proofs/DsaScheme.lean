/-
ML-DSA as a whole: what its runs return, and that they do not throw.

A run that samples may come to no end, but where it comes to one it is not
a throw: not in generating a key (`keygen_quiet`), not in signing with a
generated key (`internalSign_quiet`), not in verifying, whatever the bytes
of the signature are (`internalVerify_quiet`). The theorems about `sign` and
`verify` follow from those about what they are made of.

# The hashes

They are parameters, functions from what is absorbed to what is drawn, and
nothing is assumed of them. The runs on hashes of a kind that show that
the theorems have something to say draw secrets, masks and challenges that
are not zero, and end in the first pass, as `DsaSmall` shows.
-/
import KxcoPostQuantum.Vendor.Proofs.DsaSmall

namespace KxcoPostQuantum.Vendor.MlDsa

open Lib Lib.Ntt Lib.Negacyclic CrystalOpts

-- =============================================================== samplers

section

variable {P : Params} {h : Hashes} {fuel : ℕ} {xof : ℕ → Bytes}

/-- Aligned blocks are never refused. -/
theorem rejNTTPoly_quiet (hxof : ∀ call, (xof call).length % 3 = 0) :
    Quiet (RejNTTPoly fuel xof) := by
  unfold RejNTTPoly
  refine Quiet.bind (quiet_sample fun call s => ?_) fun _ _ => quiet_ok _
  rw [if_neg (not_not_intro (hxof call))]
  exact quiet_ok _

/-- The blocks of SHAKE128 are aligned, so they are never refused. -/
theorem xof128_quiet {rho : Bytes} {x y : ℕ} :
    Quiet (RejNTTPoly fuel (XOF128 h rho x y)) := by
  apply rejNTTPoly_quiet
  intro call
  rw [show (XOF128 h rho x y call).length = 168 from length_squeeze _ _]

/-- The sampler of secrets refuses nothing. -/
theorem rejBoundedPoly_quiet : Quiet (RejBoundedPoly P fuel xof) := by
  unfold RejBoundedPoly
  exact Quiet.bind (quiet_sample fun _ _ => quiet_ok _) fun _ _ => quiet_ok _

/-- Drawing a position may go on for ever; it does not throw. -/
theorem positionBelow_quiet {i : ℕ} {read : ℕ × ℕ} :
    Quiet (positionBelow xof i fuel read) := by
  induction fuel generalizing read with
  | zero => exact fun _ h => by cases h
  | succ fuel ih =>
      obtain ⟨call, pos⟩ := read
      unfold positionBelow
      dsimp only
      split
      next => exact ih
      next => exact quiet_ok _

/-- So a challenge is not refused either. -/
theorem sampleInBall_quiet {seed : Bytes} :
    Quiet (SampleInBall P h fuel seed) := by
  unfold SampleInBall
  refine Quiet.bind (quiet_loopM fun i _ s => ?_) fun _ _ => quiet_ok _
  unfold ballPass
  exact positionBelow_quiet.bind fun _ _ => quiet_ok _

/-- A row times a vector is sampled on the way. -/
theorem rowTimes_quiet {rho : Bytes} {i : ℕ} {v : List Poly} :
    Quiet (rowTimes P h fuel rho i v) := by
  unfold rowTimes
  exact quiet_loopM fun _ _ _ => xof128_quiet.bind fun _ _ => quiet_ok _

end

-- ================================================================= runs

section

variable {P : Params} {h : Hashes} {fuel : ℕ} {seed : Bytes}

/-- **Generation does not throw**, given a seed of 32 bytes: by what each of
its steps needs, in their order, with the samplers quiet whatever is
drawn. -/
theorem keygen_quiet (hseed : seed.length = 32) :
    Quiet (keygen P h fuel seed) := by
  unfold keygen
  refine Quiet.bind (quiet_of_ok (abytes_ok.mpr hseed)) fun _ _ => ?_
  have hlength : (squeeze (h.shake256 (seed ++ [P.K.toUInt8, P.L.toUInt8]))
      seedCoder.bytesLen).length = 128 := length_squeeze _ _
  refine Quiet.bind (quiet_of_ok (seedCoder_decode hlength)) fun r hr => ?_
  obtain rfl := Except.ok.inj ((seedCoder_decode hlength).symm.trans hr)
  dsimp only
  refine Quiet.bind (quiet_mapM fun _ _ => rejBoundedPoly_quiet) fun s1 hs1 => ?_
  refine Quiet.bind (quiet_mapM fun _ _ => rejBoundedPoly_quiet) fun s2 hs2 => ?_
  refine Quiet.bind (quiet_mapM fun _ _ => rowTimes_quiet.bind
    fun _ _ => quiet_ok _) fun rounded hrounded => ?_
  obtain ⟨hs1length, hs1⟩ := drawn hs1
  obtain ⟨hs2length, hs2⟩ := drawn hs2
  obtain ⟨ht0, ht1⟩ := rounded_parts hrounded
  obtain ⟨ht0length, ht1length, -⟩ := drawn_pairs hrounded
  obtain ⟨hrho, hK⟩ := seed_fields hlength
  obtain ⟨b1, hb1⟩ := publicCoder_writes (P := P) hrho ht1length ht1
  refine Quiet.bind (quiet_of_ok hb1.encode) fun pk _ => ?_
  obtain ⟨b2, hb2⟩ := secretCoder_writes hrho hK
    (length_squeeze (h.shake256 pk) TR_BYTES) hs1length
    (forall_mem fun i hi => rejBoundedPoly_short (hs1 i (by omega))) hs2length
    (forall_mem fun i hi => rejBoundedPoly_short (hs2 i (by omega))) ht0length
    ht0
  exact Quiet.bind (quiet_of_ok hb2.encode) fun _ _ => quiet_ok _

/-- **A pass does not throw**, whichever of its checks it fails: what is
written has the range its coder asks for. -/
theorem finish_quiet {s : Signing} {y : List Poly} (homega : P.OMEGA < 2 ^ 8) :
    Quiet (finish P h fuel s y) := by
  obtain ⟨b1, hb1⟩ := w1Vec_encode (P := P)
    (w := (commit P s y).map (mapPoly (HighBits P)))
    (by rw [List.length_map, length_commit])
    (List.forall_mem_map.mpr fun p _ => buckets_highBits p)
  unfold finish
  refine Quiet.bind (quiet_of_ok hb1) fun b hb => ?_
  refine Quiet.bind sampleInBall_quiet fun c hc => ?_
  by_cases hnorm : (respond P s y c).any
      (polyChknorm · (P.GAMMA1 - P.BETA)) = true
  · rw [if_pos hnorm]
    exact quiet_ok _
  rw [if_neg hnorm]
  rw [any_chknorm, not_not] at hnorm
  cases hrows : (List.range P.K).mapM (hintOf P s (crystals.encode c)
      (commit P s y) ((commit P s y).map (mapPoly (HighBits P)))) with
  | error e => exact quiet_ok _
  | ok hints =>
      dsimp only
      by_cases hcount : (P.OMEGA : ℤ) < (hints.map (·.2)).sum
      · rw [if_pos hcount]
        exact quiet_ok _
      rw [if_neg hcount]
      obtain ⟨hlength, -⟩ := mapM_range_ok.mp hrows
      have hspec := hints_spec hrows
      obtain ⟨sig, hsig, -⟩ := sig_writes homega (length_hash rfl)
        length_respond hnorm (by rw [List.length_map, hlength])
        (List.forall_mem_map.mpr fun r hr => (hspec r hr).1)
        (room_of_count hspec (not_lt.mp hcount))
      exact Quiet.bind (quiet_of_ok hsig) fun _ _ => quiet_ok _

/-- Nor does the loop over the passes. -/
theorem signLoop_quiet {s : Signing} {passes kappa : ℕ}
    (homega : P.OMEGA < 2 ^ 8) : Quiet (signLoop P h fuel s passes kappa) := by
  induction passes generalizing kappa with
  | zero => exact fun _ h => by cases h
  | succ passes ih =>
      unfold signLoop
      rw [attempt_eq]
      refine Quiet.bind (Quiet.bind (quiet_mapM fun i _ => ?_)
        fun y _ => finish_quiet homega) fun res _ => ?_
      · obtain ⟨p, hp⟩ := polyCoder_returns (z_involutive P)
          (length_squeeze _ _)
        exact quiet_of_ok hp
      · cases res with
        | none => exact ih
        | some sig => exact quiet_ok sig

/-- **Signing does not throw** with a key that is read: neither in its
preparation nor in any pass, whatever is drawn there. -/
theorem internalSign_quiet {msg secretKey rnd : Bytes} {externalMu : Bool}
    (homega : P.OMEGA < 2 ^ 8) (hrnd : rnd.length = 32)
    (hmu : externalMu = true → msg.length = CRH_BYTES)
    (hkey : ∃ v, (secretCoder P).decode secretKey = .ok v) :
    Quiet (internalSign P h fuel msg secretKey rnd externalMu) := by
  obtain ⟨v, hv⟩ := hkey
  unfold internalSign
  refine Quiet.bind (quiet_of_ok (checkMu_ok.mpr hmu)) fun _ _ => ?_
  refine Quiet.bind (quiet_of_ok (abytes_ok.mpr hrnd)) fun _ _ => ?_
  refine Quiet.bind (quiet_of_ok hv) fun r _ => ?_
  refine Quiet.bind (quiet_mapM fun _ _ => quiet_mapM fun _ _ => xof128_quiet)
    fun A _ => ?_
  refine Quiet.bind (quiet_of_ok (abytes_ok.mpr (length_squeeze _ _)))
    fun _ _ => ?_
  exact signLoop_quiet homega

/-- Whatever has the length of a public key is read as one. -/
theorem publicCoder_returns {b : Bytes}
    (hb : b.length = (publicCoder P).bytesLen) :
    ∃ v, (publicCoder P).decode b = .ok v := by
  have hlength : b.length = 32 + (P.K * T1Coder.bytesLen + 0) := hb
  obtain ⟨t1, ht1⟩ := vecCoder_returns (c := T1Coder) (n := P.K)
    (b := (b.drop 32).take (P.K * T1Coder.bytesLen))
    (by rw [List.length_take, List.length_drop]; omega)
    fun b hb => polyCoder_returns t1_involutive hb
  exact ⟨(b.take 32, t1, ()), run_bind_ok.mpr ⟨(), abytes_ok.mpr hb,
    run_map_ok.mpr ⟨(t1, ()), run_bind_ok.mpr ⟨t1, ht1, rfl⟩, rfl⟩⟩⟩

/-- Whatever has the length of a signature is read as one, with a hint or
without. -/
theorem sigCoder_returns {b : Bytes} (hb : b.length = (sigCoder P).bytesLen) :
    ∃ v, (sigCoder P).decode b = .ok v := by
  have hlength : b.length = P.C_TILDE_BYTES + (P.L * (ZCoder P).bytesLen
    + ((hintCoder P).bytesLen + 0)) := hb
  obtain ⟨z, hz⟩ := vecCoder_returns (c := ZCoder P) (n := P.L)
    (b := (b.drop P.C_TILDE_BYTES).take (P.L * (ZCoder P).bytesLen))
    (by rw [List.length_take, List.length_drop]; omega)
    fun b hb => polyCoder_returns (z_involutive P) hb
  exact ⟨_, run_bind_ok.mpr ⟨(), abytes_ok.mpr hb, run_map_ok.mpr
    ⟨_, run_bind_ok.mpr ⟨z, hz, rfl⟩, rfl⟩⟩⟩

/-- **Verifying does not throw** with a key of the right length, whatever
the signature is. -/
theorem internalVerify_quiet {sig msg publicKey : Bytes} {externalMu : Bool}
    (hmu : externalMu = true → msg.length = CRH_BYTES)
    (hkey : publicKey.length = (publicCoder P).bytesLen) :
    Quiet (internalVerify P h fuel sig msg publicKey externalMu) := by
  obtain ⟨v, hv⟩ := publicCoder_returns hkey
  unfold internalVerify
  refine Quiet.bind (quiet_of_ok (checkMu_ok.mpr hmu)) fun _ _ => ?_
  refine Quiet.bind (quiet_of_ok hv) fun r _ => ?_
  obtain ⟨rho, t1, ⟨⟩⟩ := r
  dsimp only
  by_cases hlength : sig.length ≠ (sigCoder P).bytesLen
  · rw [if_pos hlength]
    exact quiet_ok _
  rw [if_neg hlength]
  obtain ⟨w, hw⟩ := sigCoder_returns (not_not.mp hlength)
  refine Quiet.bind (quiet_of_ok hw) fun r _ => ?_
  obtain ⟨cTilde, z, hints, ⟨⟩⟩ := r
  cases hints with
  | none => exact quiet_ok _
  | some hints =>
      dsimp only
      by_cases hnorm : z.any (polyChknorm · (P.GAMMA1 - P.BETA)) = true
      · rw [if_pos hnorm]
        exact quiet_ok _
      rw [if_neg hnorm]
      refine Quiet.bind sampleInBall_quiet fun c _ => ?_
      refine Quiet.bind (quiet_mapM fun i _ => rowTimes_quiet.bind
        fun _ _ => quiet_ok _) fun w1 hw1 => ?_
      obtain ⟨hw1length, hrows⟩ := drawn hw1
      obtain ⟨b1, hb1⟩ := w1Vec_encode hw1length (forall_mem fun i hi => by
        obtain ⟨t, -, hr⟩ := run_map_ok.mp (hrows i (by omega))
        rw [← hr]
        exact buckets_polyUseHint _ _)
      refine Quiet.bind (quiet_of_ok hb1) fun _ _ => ?_
      split
      next => exact quiet_ok _
      next => exact quiet_ok _

end

-- ================================================================ a run

/-- The coder of the masks has 18 bits. -/
theorem toy_z : Involutive 18 (fun i => smod (2 ^ 17 - i) Q) pure := by
  have hbits : (if (PARAMS .ml_dsa44).GAMMA1 = 2 ^ 17 then 18 else 20) = 18 :=
    if_pos rfl
  have h := z_involutive (PARAMS .ml_dsa44)
  rw [hbits] at h
  exact h

/-- The masks of the run: all words are near 2^17. -/
theorem toy_mask {b : UInt8} (hb : b ∈ [(0x3f : UInt8), 0xf1]) : ∃ p,
    (ZCoder (PARAMS .ml_dsa44)).decode
        (squeeze (fun i => waves b (0 * 576 + i)) 576) = .ok p
      ∧ ∀ j < N, |get p j| ≤ 255 := by
  have hwords : ∀ b ∈ [(0x3f : UInt8), 0xf1], little (2 ^ 18)
      (fun j => 131072 + if j % 4 = 0 then b.toNat else 0) N
        = little (2 ^ 8) (fun i => (waves b (0 * 576 + i)).toNat) 576 :=
    List.forall_iff_forall_mem.mp (by decide +kernel)
  have hrange : ∀ j, 131072 ≤ 131072 + (if j % 4 = 0 then b.toNat else 0)
      ∧ 131072 + (if j % 4 = 0 then b.toNat else 0) ≤ 131327 := by
    have hlarge := b.toNat_lt
    intro j
    split <;> omega
  have hlength := length_squeeze (fun i => waves b (0 * 576 + i)) 576
  obtain ⟨p, hp⟩ := polyCoder_returns toy_z hlength
  have hread := decode_packed (c := coefCoder _ _) (N := N)
    (r := fun j => 131072 + if j % 4 = 0 then b.toNat else 0) (by norm_num)
    (by norm_num) (by decide) toy_z.kept hlength
    (fun j _ => (hrange j).2.trans_lt (by norm_num))
    (by
      rw [hlength, hwords b hb]
      apply little_congr
      intro i hi
      rw [listBytes_squeeze hi]) hp
  refine ⟨p, hp, ?_⟩
  intro j hj
  obtain ⟨hlow, hhigh⟩ := hrange j
  have hword : smod (2 ^ 17
      - ((131072 + if j % 4 = 0 then b.toNat else 0 : ℕ) : ℤ)) Q = get p j :=
    Except.ok.inj (hread j hj)
  generalize 131072 + (if j % 4 = 0 then b.toNat else 0) = w at *
  rw [smod_of_small (abs_lt.mpr (by omega))] at hword
  rw [← hword, abs_le]
  omega

/-- So they are wherever the stream is read from. -/
theorem toy_masks (seed : Bytes) (x y : ℕ) : ∃ p,
    (ZCoder (PARAMS .ml_dsa44)).decode (XOF256 toy
      (ZCoder (PARAMS .ml_dsa44)).bytesLen seed x y 0) = .ok p
      ∧ ∀ j < N, |get p j| ≤ 255 := by
  have hlength : (ZCoder (PARAMS .ml_dsa44)).bytesLen = 576 := rfl
  unfold XOF256 createXofShake
  rw [hlength]
  exact toy_waves (motive := fun stream => ∃ p,
      (ZCoder (PARAMS .ml_dsa44)).decode
        (squeeze (fun i => stream (0 * 576 + i)) 576) = .ok p
      ∧ ∀ j < N, |get p j| ≤ 255)
    (toy_mask List.mem_cons_self)
    (toy_mask (List.mem_cons_of_mem _ List.mem_cons_self)) _

/-- A constant below the modulus is a reduced polynomial. -/
theorem reduced_level (c : Int32) (hc : Reduced Q c.toInt) :
    AllOk (Reduced Q) (level c) := by
  intro j hj
  rw [get_level c hj]
  exact hc

/-- An entry of the matrix times a polynomial. -/
theorem toy_entry {A p : Poly} {a : Rq} {B : ℤ} (hA : A = level 1 ∨ A = level 2)
    (ha : IsHat a A) (hp : ∀ j < N, |get p j| ≤ B) (hB : B ≤ 2 ^ 30) :
    Small (2 * B) (a * ringOf p) := by
  have hpos : 0 ≤ B := (abs_nonneg _).trans (hp 0 (by decide))
  have hhat := hat_encode fun j hj => (hp j hj).trans hB
  have hproduct := hat_MultiplyNTTs ha hhat
  have hslot : ∀ c : Int32, c = 1 ∨ c = 2 → ∀ j < N,
      get (MultiplyNTTs (level c) (crystals.encode p)) j
        = mod (c.toInt * get (crystals.encode p) j) Q := by
    intro c hc j hj
    have hlow : 0 ≤ get (crystals.encode p) j := (hhat.reduced j hj).1
    have hhigh : get (crystals.encode p) j < 8380417 := (hhat.reduced j hj).2
    have hle : |c.toInt| ≤ 2 := by rcases hc with rfl | rfl <;> decide
    rw [get_MultiplyNTTs hj, get_level c hj, times_of_le (m := 2) (n := 2 ^ 23) hle
      (abs_le.mpr (by omega)) (by norm_num)]
  rcases hA with rfl | rfl
  · have hsame : MultiplyNTTs (level 1) (crystals.encode p) = crystals.encode p := by
      apply ext_get
      intro j hj
      rw [hslot 1 (Or.inl rfl) j hj, show (1 : Int32).toInt = 1 from rfl, one_mul]
      obtain ⟨hlow, hhigh⟩ := hhat.reduced j hj
      exact (sound.mod_eq _).trans (Int.emod_eq_of_lt hlow hhigh)
    rw [hsame] at hproduct
    rw [sound.hat_unique hproduct hhat]
    exact (small_ringOf hp).mono (by omega)
  · have hsame : MultiplyNTTs (level 2) (crystals.encode p)
        = polyAdd (crystals.encode p) (crystals.encode p) := by
      apply ext_get
      intro j hj
      rw [hslot 2 (Or.inr rfl) j hj, show (2 : Int32).toInt = 2 from rfl, two_mul,
        get_polyAdd hj]
    rw [hsame] at hproduct
    rw [sound.hat_unique hproduct (hat_polyAdd hhat hhat), two_mul]
    exact (small_ringOf hp).add (small_ringOf hp)

/-- A row of the matrix times a vector. -/
theorem toy_row {L : ℕ} {A : ℕ → Poly} {v : List Poly} {B : ℤ}
    (hA : ∀ j < L, A j = level 1 ∨ A j = level 2) (hlength : v.length = L)
    (hv : ∀ p ∈ v, ∀ j < N, |get p j| ≤ B) (hB : B ≤ 2 ^ 30) :
    Small (L * (2 * B)) (ringOf (crystals.decode
      (rowSum L A (v.map crystals.encode)))) := by
  have hhat : ∀ j < L, ∃ a, IsHat a (A j) := by
    intro j hj
    apply sound.exists_hat
    rcases hA j hj with h | h <;> rw [h]
    · exact reduced_level 1 ⟨by decide, by decide⟩
    · exact reduced_level 2 ⟨by decide, by decide⟩
  choose! a ha using hhat
  rw [(hat_decode (ringOf_row ha hlength
    fun p hp j hj => (hv p hp j hj).trans hB)).2]
  exact small_sum fun j hj =>
    toy_entry (hA j hj) (ha j hj) (hv _ (nth_mem (hlength ▸ hj))) hB

/-- **A pass of the run** is not rejected. The secrets, the challenge and
the masks of the run are small, so each of the norms is below its bound, and
no hint is needed. -/
theorem toy_finish {s : Signing} {y s1 s2 t0 : List Poly}
    (hA : ∀ i < 4, ∀ j < 4, nth (s.A.getD i []) j = level 1
      ∨ nth (s.A.getD i []) j = level 2)
    (hlength : y.length = 4) (hy : ∀ p ∈ y, ∀ j < N, |get p j| ≤ 255)
    (hs1 : s.s1 = s1.map crystals.encode) (hs1length : s1.length = 4)
    (hs1short : ∀ p ∈ s1, Short (PARAMS .ml_dsa44) p)
    (hs2 : s.s2 = s2.map crystals.encode) (hs2length : s2.length = 4)
    (hs2short : ∀ p ∈ s2, Short (PARAMS .ml_dsa44) p)
    (ht0 : s.t0 = t0.map crystals.encode) (ht0length : t0.length = 4)
    (hsmall : ∀ i < 4, ∀ j < N, |get (nth t0 i) j| ≤ 19) :
    ∃ sig, finish (PARAMS .ml_dsa44) toy 5 s y = .ok (some sig) := by
  obtain ⟨htau, homega⟩ := PARAMS_fit .ml_dsa44
  have hgamma : (PARAMS .ml_dsa44).GAMMA2 = 95232 := gamma2_1
  apply finish_returns (Y := 255) (W := 2040) (T := 19) homega htau toy_ball
    hlength hy
  · intro i hi
    rw [nth_commit hi]
    exact toy_row (hA i hi) hlength hy (by decide)
  · intro i hi
    have hi : i < s1.length := hs1length.symm ▸ hi
    exact ⟨_, hs1short _ (nth_mem hi), by rw [hs1, nth_map hi]⟩
  · intro i hi
    have hi : i < s2.length := hs2length.symm ▸ hi
    exact ⟨_, hs2short _ (nth_mem hi), by rw [hs2, nth_map hi]⟩
  · intro i hi
    have hi' : i < t0.length := ht0length.symm ▸ hi
    exact ⟨_, hsmall i hi, by rw [ht0, nth_map hi']⟩
  · decide
  · rw [hgamma]
    decide
  · decide
  · decide
  · decide
  · rw [hgamma]
    decide

/-- So signing returns, in the first pass. What it returns is not computed:
the bounds say that no check rejects it. -/
theorem toy_sign {keys : KeyPair}
    (hkeys : keygen (PARAMS .ml_dsa44) toy 5 (counting 32) = .ok keys) :
    ∃ sig, sign (PARAMS .ml_dsa44) toy 5 [1, 2, 3] keys.secretKey [4, 5]
      (counting 32) = .ok sig := by
  obtain ⟨rho, K_, s1, s2, t0, t1, A, -, -, hk⟩ := keygen_keys hkeys
  have hs1 := hk.s1_secret.short
  have hs2 := hk.s2_secret.short
  have hmatrix : ∀ i j, ∃ p, RejNTTPoly 5 (XOF128 toy rho j i) = .ok p
      ∧ (p = level 1 ∨ p = level 2) := by
    intro i j
    rcases toy_matrix rho j i with h | h
    · exact ⟨_, h, Or.inl rfl⟩
    · exact ⟨_, h, Or.inr rfl⟩
  choose M hM hlevel using hmatrix
  have ht0 : ∀ i < 4, ∀ j < N, |get (nth t0 i) j| ≤ 19 := by
    intro i hi
    rw [show nth t0 i = _ from congrArg Prod.fst (hk.rounded i hi)]
    apply Small.rounded (B := 18) _ (by decide)
    rw [ringOf_polyAdd]
    apply Small.add (A := 16) (B := 2)
    · apply toy_row (B := 2) _ hk.s1_length hs1 (by decide)
      intro j hj
      rw [← Except.ok.inj ((hM i j).symm.trans (hk.sampled i hi j hj))]
      exact hlevel i j
    · exact small_ringOf (hs2 _ (nth_mem (hk.s2_length.symm ▸ hi)))
  choose y hy hsmall using toy_masks
  refine returns_bind (rfl : getMessage [1, 2, 3] [4, 5] = .ok _) ?_
  unfold internalSign
  refine returns_bind (rfl : checkMu false _ = .ok ()) ?_
  refine returns_bind (abytes_ok.mpr (length_counting 32)) ?_
  refine returns_bind hk.secretKey.decode ?_
  refine returns_bind (mapM_range_map fun i _ => mapM_range_map fun j _ =>
    hM i j) ?_
  refine returns_bind (abytes_ok.mpr (length_squeeze _ _)) ?_
  unfold signLoop
  rw [attempt_eq]
  have hrows : ∀ i < 4, ∀ j < 4, nth (((List.range 4).map fun i =>
      (List.range 4).map (M i)).getD i []) j = M i j := by
    intro i hi j hj
    rw [List.getD_eq_getElem _ _ (by rw [List.length_map, List.length_range]; exact hi),
      List.getElem_map, List.getElem_range]
    unfold nth
    rw [List.getD_eq_getElem _ _ (by rw [List.length_map, List.length_range]; exact hj),
      List.getElem_map, List.getElem_range]
  obtain ⟨sig, hsig⟩ := toy_finish (s := Signing.mk
      ((List.range 4).map fun i => (List.range 4).map (M i))
      (s1.map crystals.encode) (s2.map crystals.encode) (t0.map crystals.encode)
      _ _)
    (fun i hi j hj => (hrows i hi j hj).symm ▸ hlevel i j)
    (by rw [List.length_map, List.length_range])
    (List.forall_mem_map.mpr fun i _ => hsmall _ _ _) rfl hk.s1_length hs1 rfl
    hk.s2_length hs2 rfl hk.t0_length ht0
  exact returns_bind (run_bind_ok.mpr ⟨_, mapM_range_map fun i _ => hy _ _ _, hsig⟩)
    ⟨sig, rfl⟩

-- =============================================================== scheme

section

variable {P : Params} {h : Hashes} {f₀ f₁ f₂ : ℕ} {seed msg rnd sig : Bytes}
  {keys : KeyPair} {externalMu : Bool}

/-- **What the internal signing returns** the internal verification accepts,
of a message as of an external `mu`. -/
theorem internalVerify_internalSign (htau : P.TAU ≤ N) (homega : P.OMEGA < 2 ^ 8)
    (hkeys : keygen P h f₀ seed = .ok keys)
    (hsign : internalSign P h f₁ msg keys.secretKey rnd externalMu = .ok sig)
    (hle : f₁ ≤ f₂) :
    internalVerify P h f₂ sig msg keys.publicKey externalMu = .ok true := by
  obtain ⟨rho, K_, s1, s2, t0, t1, A, -, -, hk⟩ := keygen_keys hkeys
  obtain ⟨hmu, rho', K', tr, s1', s2', t0', hdecode, s, y, b1, cTilde, c,
    hints, hprepared, hpass⟩ := internalSign_ok hsign
  cases Except.ok.inj (hk.secretKey.decode.symm.trans hdecode)
  exact hpass.verified hk hprepared htau homega hle hmu

end

section

variable (set : ParamSet) (h : Hashes)

/-- **A signature verifies**: what `sign` returns for a generated key,
`verify` accepts under its public key, of the same message and context. For
every instance, whatever the hashes are, and however many passes signing
took. -/
theorem verify_sign {f₀ f₁ f₂ : ℕ} {seed msg context rnd sig : Bytes}
    {keys : KeyPair} (hkeys : keygen (PARAMS set) h f₀ seed = .ok keys)
    (hsign : sign (PARAMS set) h f₁ msg keys.secretKey context rnd = .ok sig)
    (hle : f₁ ≤ f₂) :
    verify (PARAMS set) h f₂ sig msg keys.publicKey context = .ok true := by
  obtain ⟨M, hM, hsign⟩ := run_bind_ok.mp hsign
  obtain ⟨htau, homega⟩ := PARAMS_fit set
  exact run_bind_ok.mpr
    ⟨M, hM, internalVerify_internalSign htau homega hkeys hsign hle⟩

/-- The message 1, 2, 3 with the context 4, 5. -/
theorem verify_sign_toy : ∃ (keys : KeyPair) (sig : Bytes),
    verify (PARAMS .ml_dsa44) toy 5 sig [1, 2, 3] keys.publicKey [4, 5]
      = .ok true := by
  obtain ⟨keys, hkeys⟩ := toy_keygen
  obtain ⟨sig, hsig⟩ := toy_sign hkeys
  exact ⟨keys, sig, verify_sign .ml_dsa44 toy hkeys hsig le_rfl⟩

/-- **No run throws** that is given what it asks for: not generating a key,
nor signing with it, nor verifying, whatever is to be verified. Sampling may
still come to no end; a run that is out of fuel is quiet as well. -/
theorem runs_quiet {fuel f₀ : ℕ} {seed msg context rnd sig : Bytes}
    {keys : KeyPair} {publicKey : Bytes} (hseed : seed.length = 32)
    (hkeys : keygen (PARAMS set) h f₀ seed = .ok keys)
    (hcontext : context.length ≤ 255) (hrnd : rnd.length = 32)
    (hkey : publicKey.length = (publicCoder (PARAMS set)).bytesLen) :
    Quiet (keygen (PARAMS set) h fuel seed)
      ∧ Quiet (sign (PARAMS set) h fuel msg keys.secretKey context rnd)
      ∧ Quiet (verify (PARAMS set) h fuel sig msg publicKey context) := by
  have hmessage : ∃ M, getMessage msg context = .ok M := by
    unfold getMessage
    rw [if_neg (not_lt.mpr hcontext)]
    exact ⟨_, rfl⟩
  obtain ⟨M, hM⟩ := hmessage
  obtain ⟨-, homega⟩ := PARAMS_fit set
  obtain ⟨rho, K_, s1, s2, t0, t1, A, -, -, hk⟩ := keygen_keys hkeys
  refine ⟨keygen_quiet hseed, ?_, ?_⟩
  · exact Quiet.bind (quiet_of_ok hM) fun M _ => internalSign_quiet homega hrnd
      (fun h => by cases h) ⟨_, hk.secretKey.decode⟩
  · exact Quiet.bind (quiet_of_ok hM) fun M _ =>
      internalVerify_quiet (fun h => by cases h) hkey

/-- The same run, and what is no signature. -/
theorem runs_quiet_toy : ∃ keys : KeyPair,
    Quiet (keygen (PARAMS .ml_dsa44) toy 5 (counting 32))
      ∧ Quiet (sign (PARAMS .ml_dsa44) toy 5 [1, 2, 3] keys.secretKey [4, 5]
        (counting 32))
      ∧ Quiet (verify (PARAMS .ml_dsa44) toy 5 (counting 2420) [1, 2, 3]
        (counting 1312) [4, 5]) := by
  obtain ⟨keys, hkeys⟩ := toy_keygen
  exact ⟨keys, runs_quiet .ml_dsa44 toy (length_counting 32) hkeys (by decide)
    (length_counting 32) (length_counting 1312)⟩

end

end KxcoPostQuantum.Vendor.MlDsa
