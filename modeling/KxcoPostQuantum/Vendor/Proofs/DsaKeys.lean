/-
Key pairs of ML-DSA.

`Keys` says what a key pair is made of: short secret vectors `s1` and `s2`,
a sampled matrix `A`, and the two parts `t1` and `t0` of `A * s1 + s2`, in
bytes that are read back as they were written. Generation returns such a
pair (`keygen_keys`), and it always returns one where the samplers return
(`keygen_returns`). The public key can be computed from the secret one
(`getPublicKey_keygen`).
-/
import KxcoPostQuantum.Vendor.Proofs.DsaRounding
import KxcoPostQuantum.Vendor.Proofs.DsaHints
import KxcoPostQuantum.Vendor.Proofs.DsaSampling

namespace KxcoPostQuantum.Vendor.MlDsa

open Lib

-- ============================================================== vectors

section

variable {v : List Poly} {i : ℕ}

/-- An element within the array is there. Behind its end the model has the
zero polynomial, where the program has `undefined`. -/
theorem nth_eq (hi : i < v.length) : nth v i = v[i] :=
  List.getD_eq_getElem _ _ hi

/-- The elements of an array that is mapped. -/
theorem nth_map {f : Poly → Poly} (hi : i < v.length) :
    nth (v.map f) i = f (nth v i) := by
  rw [nth_eq hi, nth_eq (by rwa [List.length_map]), List.getElem_map]

/-- Every element is found at some place within the array. -/
theorem forall_mem {Pr : Poly → Prop} (h : ∀ i < v.length, Pr (nth v i)) :
    ∀ p ∈ v, Pr p := by
  intro p hp
  obtain ⟨i, hi, rfl⟩ := List.mem_iff_getElem.mp hp
  rw [← nth_eq hi]
  exact h i hi

/-- What is found within the array is one of its elements. -/
theorem nth_mem (hi : i < v.length) : nth v i ∈ v := by
  rw [nth_eq hi]
  exact List.getElem_mem hi

/-- A vector that has been drawn element by element. -/
theorem drawn {n : ℕ} {f : ℕ → Run Poly} (h : (List.range n).mapM f = .ok v) :
    v.length = n ∧ ∀ i < n, f i = .ok (nth v i) := by
  obtain ⟨hlength, hget⟩ := mapM_range_ok.mp h
  refine ⟨hlength, ?_⟩
  intro i hi
  rw [nth_eq (by omega)]
  exact hget i (by omega)

end

-- =============================================================== coders

section

variable {P : Params} {rho K_ tr : Bytes} {s1 s2 t0 t1 : List Poly}

/-- Coefficients of the high part of a public vector. -/
def High (p : Poly) : Prop := ∀ j < N, Reduced (2 ^ 10) (get p j)

/-- Coefficients of its low part. -/
def Low (p : Poly) : Prop := ∀ j < N, -2 ^ 12 < get p j ∧ get p j ≤ 2 ^ 12

/-- A public key of ten-bit coefficients can be written and read back. -/
theorem publicCoder_writes (hrho : rho.length = 32) (ht1 : t1.length = P.K)
    (hhigh : ∀ p ∈ t1, High p) :
    ∃ b, (publicCoder P).Writes (rho, t1, ()) b := by
  obtain ⟨b, hb⟩ := vecCoder_writes_of ht1 fun p hp =>
    t1_involutive.writes fun j hj => t1_coded.mpr (hhigh p hp j hj)
  exact ⟨_, splitCoder_writes (.raw_of hrho (.coder hb .nil))⟩

/-- So can a secret key of short secrets and low parts. -/
theorem secretCoder_writes (hrho : rho.length = 32) (hK : K_.length = 32)
    (htr : tr.length = TR_BYTES) (hs1 : s1.length = P.L)
    (hs1' : ∀ p ∈ s1, Short P p) (hs2 : s2.length = P.K)
    (hs2' : ∀ p ∈ s2, Short P p) (ht0 : t0.length = P.K)
    (ht0' : ∀ p ∈ t0, Low p) :
    ∃ b, (secretCoder P).Writes (rho, K_, tr, s1, s2, t0, ()) b := by
  obtain ⟨b1, hb1⟩ := vecCoder_writes_of hs1 fun p hp =>
    (eta_involutive P).writes fun j hj => (eta_coded P).mpr (hs1' p hp j hj)
  obtain ⟨b2, hb2⟩ := vecCoder_writes_of hs2 fun p hp =>
    (eta_involutive P).writes fun j hj => (eta_coded P).mpr (hs2' p hp j hj)
  obtain ⟨b0, hb0⟩ := vecCoder_writes_of ht0 fun p hp =>
    t0_involutive.writes fun j hj => t0_coded.mpr (ht0' p hp j hj)
  exact ⟨_, splitCoder_writes (.raw_of hrho (.raw_of hK (.raw_of htr
    (.coder hb1 (.coder hb2 (.coder hb0 .nil))))))⟩

/-- A seed is cut in three: for the matrix, for the secrets, and for
signing. -/
theorem seedCoder_decode {b : Bytes} (hb : b.length = 128) :
    seedCoder.decode b
      = .ok (b.take 32, (b.drop 32).take 64, ((b.drop 32).drop 64).take 32, ()) := by
  show (abytes b 128 _ >>= fun _ => _) = _
  rw [abytes_ok.mpr hb]
  rfl

end

-- ================================================================= keys

/-- The polynomials of a secret vector have been drawn. -/
def Secret (P : Params) (h : Hashes) (fuel : ℕ) (v : List Poly) : Prop :=
  ∀ p ∈ v, ∃ seed x y,
    RejBoundedPoly P fuel (XOF256 h shake256BlockLen seed x y) = .ok p

/-- What a key pair is made of. -/
structure Keys (P : Params) (h : Hashes) (fuel : ℕ) (rho K_ : Bytes)
    (s1 s2 t0 t1 : List Poly) (A : ℕ → ℕ → Poly) (keys : KeyPair) : Prop where
  s1_length : s1.length = P.L
  s1_secret : Secret P h fuel s1
  s2_length : s2.length = P.K
  s2_secret : Secret P h fuel s2
  t0_length : t0.length = P.K
  t0_low : ∀ p ∈ t0, Low p
  t1_length : t1.length = P.K
  t1_high : ∀ p ∈ t1, High p
  sampled : ∀ i < P.K, Sampled h fuel rho P.L i (A i)
  rounded : ∀ i < P.K, (nth t0 i, nth t1 i) = polyPowerRound (polyAdd
    (crystals.decode (rowSum P.L (A i) (s1.map crystals.encode))) (nth s2 i))
  publicKey : (publicCoder P).Writes (rho, t1, ()) keys.publicKey
  secretKey : (secretCoder P).Writes (rho, K_,
    squeeze (h.shake256 keys.publicKey) TR_BYTES, s1, s2, t0, ()) keys.secretKey

/-- What is sampled as a secret is short. -/
theorem Secret.short {P : Params} {h : Hashes} {fuel : ℕ} {v : List Poly}
    (hv : Secret P h fuel v) : ∀ p ∈ v, Short P p := by
  intro p hp
  obtain ⟨_, _, _, hdrawn⟩ := hv p hp
  exact rejBoundedPoly_short hdrawn

section

variable {p : Poly}

/-- A polynomial is rounded slot by slot: -/
theorem get_polyPowerRound {j : ℕ} (hj : j < N) :
    get (polyPowerRound p).1 j = (Power2Round (get p j)).2
      ∧ get (polyPowerRound p).2 j = (Power2Round (get p j)).1 := by
  have hkeeps : ∀ x, Keeps Int32 (Power2Round x).1
      ∧ Keeps Int32 (Power2Round x).2 := by
    intro x
    obtain ⟨-, ⟨hlow, hhigh⟩, hmin, hmax⟩ := power2Round_spec x
    exact ⟨keeps_of_abs (abs_le.mpr (by omega)),
      keeps_of_abs (abs_le.mpr (by omega))⟩
  exact ⟨get_mapPoly (f := fun x => (Power2Round x).2)
      (fun i _ => (hkeeps _).2) hj,
    get_mapPoly (f := fun x => (Power2Round x).1) (fun i _ => (hkeeps _).1) hj⟩

/-- The first part of a polynomial that is split is low. -/
theorem low_polyPowerRound (p : Poly) : Low (polyPowerRound p).1 := by
  intro j hj
  rw [(get_polyPowerRound hj).1]
  exact (power2Round_spec _).2.2

/-- The second part has ten bits. -/
theorem high_polyPowerRound (p : Poly) : High (polyPowerRound p).2 := by
  intro j hj
  rw [(get_polyPowerRound hj).2]
  exact (power2Round_spec _).2.1

/-- The two parts make up the polynomial. -/
theorem polyPowerRound_sum {j : ℕ} (hj : j < N) :
    get (polyPowerRound p).2 j * 2 ^ D + get (polyPowerRound p).1 j
      = mod (get p j) Q := by
  obtain ⟨hlow, hhigh⟩ := get_polyPowerRound (p := p) hj
  rw [hlow, hhigh]
  exact (power2Round_spec _).1

end

section

variable {P : Params} {h : Hashes} {fuel fuel' : ℕ} {rho : Bytes}

/-- The entries of a row are drawn once and for all. -/
theorem Sampled.mono {L i : ℕ} {A : ℕ → Poly} (hA : Sampled h fuel rho L i A)
    (hle : fuel ≤ fuel') : Sampled h fuel' rho L i A :=
  fun j hj => rejNTTPoly_mono hle (hA j hj)

/-- A row is sampled in one way only, whatever the fuel. -/
theorem Sampled.unique {L i : ℕ} {A A' : ℕ → Poly}
    (hA : Sampled h fuel rho L i A) (hA' : Sampled h fuel' rho L i A') :
    ∀ j < L, A j = A' j := by
  intro j hj
  have hleft := rejNTTPoly_mono (le_max_left fuel fuel') (hA j hj)
  have hright := rejNTTPoly_mono (le_max_right fuel fuel') (hA' j hj)
  exact Except.ok.inj (hleft.symm.trans hright)

/-- The product looks at the entries of the row only. -/
theorem rowSum_congr {L : ℕ} {A A' : ℕ → Poly} {v : List Poly}
    (hA : ∀ j < L, A j = A' j) : rowSum L A v = rowSum L A' v := by
  unfold rowSum
  apply loop_congr
  intro j hj t
  rw [hA j hj]

end

-- ========================================================== generation

section

variable {P : Params} {h : Hashes} {fuel fuel' : ℕ} {seed : Bytes}
  {keys : KeyPair}

/-- Pairs of polynomials that are drawn one by one. -/
theorem drawn_pairs {n : ℕ} {f : ℕ → Run (Poly × Poly)}
    {v : List (Poly × Poly)} (h : (List.range n).mapM f = .ok v) :
    (v.map (·.1)).length = n ∧ (v.map (·.2)).length = n
      ∧ ∀ i < n, f i = .ok (nth (v.map (·.1)) i, nth (v.map (·.2)) i) := by
  obtain ⟨hlength, hget⟩ := mapM_range_ok.mp h
  refine ⟨by rw [List.length_map, hlength], by rw [List.length_map, hlength], ?_⟩
  intro i hi
  rw [nth_eq (by rw [List.length_map]; omega),
    nth_eq (by rw [List.length_map]; omega), List.getElem_map, List.getElem_map]
  exact hget i (by omega)

/-- The parts of vectors that are rounded as they are drawn. -/
theorem rounded_parts {n : ℕ} {draw : ℕ → Run Poly} {g : ℕ → Poly → Poly}
    {v : List (Poly × Poly)}
    (h : (List.range n).mapM (fun i => do
      let t ← draw i
      return polyPowerRound (g i t)) = .ok v) :
    (∀ p ∈ v.map (·.1), Low p) ∧ ∀ p ∈ v.map (·.2), High p := by
  obtain ⟨-, hget⟩ := mapM_range_ok.mp h
  have hparts : ∀ r ∈ v, Low r.1 ∧ High r.2 := by
    intro r hr
    obtain ⟨i, hi, rfl⟩ := List.mem_iff_getElem.mp hr
    obtain ⟨t, -, ht⟩ := run_map_ok.mp (hget i hi)
    rw [← ht]
    exact ⟨low_polyPowerRound _, high_polyPowerRound _⟩
  exact ⟨List.forall_mem_map.mpr fun r hr => (hparts r hr).1,
    List.forall_mem_map.mpr fun r hr => (hparts r hr).2⟩

/-- **A generated key pair** is made of what it should be: for some matrix
and secrets that the samplers return, the two keys are the encodings of the
parts that `Keys` names. -/
theorem keygen_keys (hkeys : keygen P h fuel seed = .ok keys) :
    ∃ rho K_ s1 s2 t0 t1 A, rho.length = 32 ∧ K_.length = 32
      ∧ Keys P h fuel rho K_ s1 s2 t0 t1 A keys := by
  unfold keygen at hkeys
  obtain ⟨⟨⟩, -, hkeys⟩ := run_bind_ok.mp hkeys
  obtain ⟨⟨rho, rhoPrime, K_, ⟨⟩⟩, hseed, hkeys⟩ := run_bind_ok.mp hkeys
  dsimp only at hkeys
  obtain ⟨s1, hs1, hkeys⟩ := run_bind_ok.mp hkeys
  obtain ⟨s2, hs2, hkeys⟩ := run_bind_ok.mp hkeys
  obtain ⟨rounded, hrounded, hkeys⟩ := run_bind_ok.mp hkeys
  obtain ⟨publicKey, hpublic, hkeys⟩ := run_bind_ok.mp hkeys
  obtain ⟨secretKey, hsecret, rfl⟩ := run_map_ok.mp hkeys
  have hseedLength : (squeeze (h.shake256 (seed ++ [P.K.toUInt8, P.L.toUInt8]))
      seedCoder.bytesLen).length = 128 := length_squeeze _ _
  rw [seedCoder_decode hseedLength] at hseed
  generalize squeeze (h.shake256 (seed ++ [P.K.toUInt8, P.L.toUInt8]))
    seedCoder.bytesLen = b at hseed hseedLength
  have hrho : rho.length = 32 := by
    cases hseed
    rw [List.length_take]
    omega
  have hK : K_.length = 32 := by
    cases hseed
    rw [List.length_take, List.length_drop, List.length_drop]
    omega
  obtain ⟨hs1length, hs1⟩ := drawn hs1
  obtain ⟨hs2length, hs2⟩ := drawn hs2
  obtain ⟨ht0', ht1'⟩ := rounded_parts hrounded
  obtain ⟨ht0length, ht1length, hrounded⟩ := drawn_pairs hrounded
  have hrow : ∀ i < P.K, ∃ A, Sampled h fuel rho P.L i A
      ∧ (nth (rounded.map (·.1)) i, nth (rounded.map (·.2)) i)
        = polyPowerRound (polyAdd (crystals.decode (rowSum P.L A
          (s1.map crystals.encode))) (nth s2 i)) := by
    intro i hi
    obtain ⟨t, ht, hr⟩ := run_map_ok.mp (hrounded i hi)
    obtain ⟨A, hA, rfl⟩ := rowTimes_ok.mp ht
    exact ⟨A, hA, hr.symm⟩
  choose! A hA hround using hrow
  have hs1' : Secret P h fuel s1 :=
    forall_mem fun i hi => ⟨_, _, _, hs1 i (by omega)⟩
  have hs2' : Secret P h fuel s2 :=
    forall_mem fun i hi => ⟨_, _, _, hs2 i (by omega)⟩
  obtain ⟨b1, hb1⟩ := publicCoder_writes (P := P) hrho ht1length ht1'
  obtain ⟨b2, hb2⟩ := secretCoder_writes hrho hK
    (length_squeeze (h.shake256 publicKey) TR_BYTES) hs1length
    hs1'.short hs2length hs2'.short ht0length ht0'
  obtain rfl := Except.ok.inj (hpublic.symm.trans hb1.encode)
  obtain rfl := Except.ok.inj (hsecret.symm.trans hb2.encode)
  exact ⟨rho, K_, s1, s2, _, _, A, hrho, hK, hs1length, hs1', hs2length, hs2',
    ht0length, ht0', ht1length, ht1', hA, hround, hb1, hb2⟩

/-- The fields of an expanded seed. -/
theorem seed_fields {b : Bytes} (hb : b.length = 128) :
    (b.take 32).length = 32 ∧ (((b.drop 32).drop 64).take 32).length = 32 := by
  simp only [List.length_take, List.length_drop, hb]
  decide

/-- **Generation returns** where the samplers do. The coders throw on
nothing here, since what they are given is in their range. -/
theorem keygen_returns (hseed : seed.length = 32)
    (hA : ∀ rho x y, ∃ A, RejNTTPoly fuel (XOF128 h rho x y) = .ok A)
    (hnoise : ∀ seed x y, ∃ p,
      RejBoundedPoly P fuel (XOF256 h shake256BlockLen seed x y) = .ok p) :
    ∃ keys, keygen P h fuel seed = .ok keys := by
  choose A hA using hA
  choose noise hnoise using hnoise
  have hlength : (squeeze (h.shake256 (seed ++ [P.K.toUInt8, P.L.toUInt8]))
      seedCoder.bytesLen).length = 128 := length_squeeze _ _
  obtain ⟨hrho, hK⟩ := seed_fields hlength
  have hs1 := fun rhoPrime => mapM_range_map (n := P.L) fun i _ =>
    hnoise rhoPrime (i &&& 0xff) ((i >>> 8) &&& 0xff)
  have hs2 := fun rhoPrime => mapM_range_map (n := P.K) fun i _ =>
    hnoise rhoPrime ((P.L + i) &&& 0xff) (((P.L + i) >>> 8) &&& 0xff)
  have hrow : ∀ rho i v, rowTimes P h fuel rho i v
      = .ok (rowSum P.L (fun j => A rho j i) v) :=
    fun rho i v => rowTimes_ok.mpr ⟨_, fun j _ => hA rho j i, rfl⟩
  have hrounded := fun rho v (s2 : List Poly) => mapM_range_map (n := P.K)
    (f := fun i => do
      let t ← rowTimes P h fuel rho i v
      return polyPowerRound (polyAdd (crystals.decode t) (nth s2 i)))
    fun i _ => run_map_ok.mpr ⟨_, hrow rho i v, rfl⟩
  unfold keygen
  refine returns_bind (abytes_ok.mpr hseed) ?_
  refine returns_bind (seedCoder_decode hlength) ?_
  refine returns_bind (hs1 _) (returns_bind (hs2 _) ?_)
  refine returns_bind (hrounded _ _ _) ?_
  obtain ⟨hs1length, hs1⟩ := drawn (hs1 _)
  obtain ⟨hs2length, hs2⟩ := drawn (hs2 _)
  obtain ⟨ht0, ht1⟩ := rounded_parts (hrounded _ _ _)
  obtain ⟨ht0length, ht1length, -⟩ := drawn_pairs (hrounded _ _ _)
  obtain ⟨_, hpublic⟩ := publicCoder_writes (P := P) hrho ht1length ht1
  refine returns_bind hpublic.encode ?_
  obtain ⟨_, hsecret⟩ := secretCoder_writes hrho hK (length_squeeze _ TR_BYTES)
    hs1length (forall_mem fun i hi => rejBoundedPoly_short (hs1 i (by omega)))
    hs2length (forall_mem fun i hi => rejBoundedPoly_short (hs2 i (by omega)))
    ht0length ht0
  exact returns_bind hsecret.encode ⟨_, rfl⟩

/-- **The public key comes from the secret one.** The samplers draw the same
matrix, with as much fuel or more, and the secrets come back from their
encoding. -/
theorem getPublicKey_of_keys {rho K_ : Bytes} {s1 s2 t0 t1 : List Poly}
    {A : ℕ → ℕ → Poly} (hkeys : Keys P h fuel rho K_ s1 s2 t0 t1 A keys)
    (hle : fuel ≤ fuel') :
    getPublicKey P h fuel' keys.secretKey = .ok keys.publicKey := by
  have hrows : (List.range P.K).mapM (fun i => do
      let t ← rowTimes P h fuel' rho i (s1.map crystals.encode)
      return (polyPowerRound (polyAdd (crystals.decode t) (nth s2 i))).2)
        = .ok t1 := by
    apply mapM_range_ok.mpr
    refine ⟨hkeys.t1_length, ?_⟩
    intro i hi
    have hi' : i < P.K := hkeys.t1_length ▸ hi
    have hround := congrArg Prod.snd (hkeys.rounded i hi')
    rw [run_map_ok, ← nth_eq hi]
    exact ⟨_, rowTimes_ok.mpr ⟨A i, (hkeys.sampled i hi').mono hle, rfl⟩,
      hround.symm⟩
  unfold getPublicKey
  exact run_bind_ok.mpr ⟨_, hkeys.secretKey.decode,
    run_bind_ok.mpr ⟨t1, hrows, hkeys.publicKey.encode⟩⟩

end

/-- There is a key pair of those hashes. -/
theorem toy_keygen :
    ∃ keys, keygen (PARAMS .ml_dsa44) toy 5 (counting 32) = .ok keys :=
  keygen_returns (length_counting 32)
    (fun rho x y => (toy_matrix rho x y).elim (fun h => ⟨_, h⟩) fun h => ⟨_, h⟩)
    toy_noise

/-- **The public key of a generated pair** comes from its secret key. The
secret key holds the secrets and the low part of `t`, so this computes `t`
anew, with the matrix drawn again, and finds the high part that the public
key holds. -/
theorem getPublicKey_keygen {set : ParamSet} {h : Hashes} {f₀ f₁ : ℕ}
    {seed : Bytes} {keys : KeyPair}
    (hkeys : keygen (PARAMS set) h f₀ seed = .ok keys) (hle : f₀ ≤ f₁) :
    getPublicKey (PARAMS set) h f₁ keys.secretKey = .ok keys.publicKey := by
  obtain ⟨rho, K_, s1, s2, t0, t1, A, -, -, hk⟩ := keygen_keys hkeys
  exact getPublicKey_of_keys hk hle

/-- The pair from the seed 0, 1, 2 and so on. -/
theorem getPublicKey_keygen_toy : ∃ keys : KeyPair,
    getPublicKey (PARAMS .ml_dsa44) toy 5 keys.secretKey = .ok keys.publicKey := by
  obtain ⟨keys, hkeys⟩ := toy_keygen
  exact ⟨keys, getPublicKey_keygen hkeys le_rfl⟩

end KxcoPostQuantum.Vendor.MlDsa
