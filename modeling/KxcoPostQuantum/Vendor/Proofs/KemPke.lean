/-
K-PKE: what a key pair and a ciphertext are made of, and when a message
comes back.

`Keys` says what a key pair is made of: a sampled matrix `A`, the transforms
of the secret `s`, and those of `A * s + e`, in bytes that are read back as
they were written; generation returns such a pair and no other
(`keygen_keys`). A ciphertext is `u` and `v`, rounded (`encrypt_ok`), and
what decryption makes of it is the message and some `noise`
(`decrypt_sealed`). A bit comes back where the noise is less than a quarter
of the modulus, and nowhere else (`compress_recovered`).
-/
import KxcoPostQuantum.Vendor.Proofs.KemCoders

namespace KxcoPostQuantum.Vendor.MlKem

open Lib Lib.Negacyclic

-- ============================================================== vectors

section

variable {v : List Poly} {i : ℕ}

/-- An element within the array is there. Behind its end the model has the
zero polynomial, where the program has `undefined`. -/
theorem nth_eq (hi : i < v.length) : nth v i = v[i] :=
  List.getD_eq_getElem _ _ hi

/-- The elements of an array that is mapped. -/
theorem nth_map {f : Poly → Poly} (hi : i < v.length) :
    nth (v.map f) i = f (nth v i) := by
  rw [nth_eq hi, nth_eq (by rwa [List.length_map]), List.getElem_map]

/-- The elements of an array that is made for each index below a bound. -/
theorem nth_range {f : ℕ → Poly} {n : ℕ} (hi : i < n) :
    nth ((List.range n).map f) i = f i := by
  rw [nth_eq (by rwa [List.length_map, List.length_range]), List.getElem_map,
    List.getElem_range]

/-- What is found within the array is one of its elements. -/
theorem nth_mem (hi : i < v.length) : nth v i ∈ v := by
  rw [nth_eq hi]
  exact List.getElem_mem hi

/-- Every element is found at some place within the array. -/
theorem forall_mem {Pr : Poly → Prop} (h : ∀ i < v.length, Pr (nth v i)) :
    ∀ p ∈ v, Pr p := by
  intro p hp
  obtain ⟨i, hi, rfl⟩ := List.mem_iff_getElem.mp hp
  rw [← nth_eq hi]
  exact h i hi

/-- A vector that has been drawn element by element. -/
theorem drawn_vector {n : ℕ} {f : ℕ → Run Poly}
    (h : (List.range n).mapM f = .ok v) :
    v.length = n ∧ ∀ i < n, f i = .ok (nth v i) := by
  obtain ⟨hlength, hget⟩ := mapM_range_ok.mp h
  refine ⟨hlength, ?_⟩
  intro i hi
  rw [nth_eq (by omega)]
  exact hget i (by omega)

end

-- ============================================================= elements

section

variable {a b c : ℕ → ℤ}

/-- Integers may be added before they are put in the ring or after. -/
theorem ringOfInts_add : ringOfInts a + ringOfInts b
    = ringOfInts fun i => a i + b i := by
  symm
  apply value_add
  intro i _
  exact Int.cast_add _ _

/-- They may be subtracted before or after. -/
theorem ringOfInts_sub : ringOfInts a - ringOfInts b
    = ringOfInts fun i => a i - b i := by
  symm
  apply value_sub
  intro i _
  exact Int.cast_sub _ _

/-- They may be convolved before, which is multiplying after. -/
theorem ringOfInts_mul : ringOfInts a * ringOfInts b
    = ringOfInts (convolve N a b) := by
  rw [show ringOfInts a * ringOfInts b = _ from value_mul _ _]
  apply value_congr
  intro i _
  rw [cast_convolve]

/-- They may be added up before or after. -/
theorem ringOfInts_sum {K : ℕ} (f : ℕ → ℕ → ℤ) :
    ∑ j ∈ Finset.range K, ringOfInts (f j)
      = ringOfInts fun i => ∑ j ∈ Finset.range K, f j i := by
  induction K with
  | zero =>
      symm
      apply value_zero
      intro i _
      dsimp only
      rw [Finset.sum_range_zero, Int.cast_zero]
  | succ K ih =>
      rw [Finset.sum_range_succ, ih, ringOfInts_add]
      apply value_congr
      intro i _
      dsimp only
      rw [Finset.sum_range_succ]

end

-- ================================================================ noise

section

variable (h : Hashes)

/-- The coefficients of a noise polynomial, as integers. -/
def drawn (eta : ℕ) (seed : Bytes) (nonce : ℕ) (i : ℕ) : ℤ :=
  centered (shakePRF h (eta * N / 4) seed nonce) eta i

/-- A noise polynomial. -/
def noisePoly (eta : ℕ) (seed : Bytes) (nonce : ℕ) : Poly :=
  ((sampleCBD h seed nonce eta).toOption).getD newPoly

variable {h} {eta : ℕ} (heta : 0 < eta) (seed : Bytes) (nonce : ℕ)

include heta

/-- Noise is always returned: as many bytes are drawn as it takes, and none
is rejected. -/
theorem sampleCBD_ok :
    sampleCBD h seed nonce eta = .ok (noisePoly h eta seed nonce)
      ∧ ∀ i < N, get (noisePoly h eta seed nonce) i
        = drawn h eta seed nonce i % Q := by
  have hlength : (shakePRF h (eta * N / 4) seed nonce).length = 64 * eta := by
    unfold shakePRF
    rw [length_squeeze]
    unfold N
    omega
  obtain ⟨r, hr, hslots⟩ := sampleCBDBytes_exact heta hlength
  have hpoly : noisePoly h eta seed nonce = r := by
    unfold noisePoly sampleCBD
    rw [hr]
    rfl
  rw [hpoly]
  exact ⟨hr, hslots⟩

/-- Noise is stored reduced. -/
theorem noisePoly_reduced : AllOk (Reduced Q) (noisePoly h eta seed nonce) := by
  intro i hi
  rw [(sampleCBD_ok heta seed nonce).2 i hi]
  exact reduced_mod _

/-- A polynomial of noise stands for the numbers that are drawn. -/
theorem ringOf_noisePoly :
    ringOf (noisePoly h eta seed nonce) = ringOfInts (drawn h eta seed nonce) :=
  ringOf_eq (sampleCBD_ok heta seed nonce).2

/-- It is encoded as what stands for them. -/
theorem hat_noisePoly : IsHat (ringOfInts (drawn h eta seed nonce))
    (crystals.encode (noisePoly h eta seed nonce)) := by
  rw [← ringOf_noisePoly heta]
  exact hat_encode (noisePoly_reduced heta seed nonce)

end

/-- A vector of noise polynomials, encoded. -/
def noiseHat (h : Hashes) (eta : ℕ) (seed : Bytes) (K : ℕ) : List Poly :=
  ((List.range K).map (noisePoly h eta seed)).map crystals.encode

/-- The noise of each index is drawn with its own nonce. -/
theorem nth_noiseHat {h : Hashes} {eta K i : ℕ} {seed : Bytes} (hi : i < K) :
    nth (noiseHat h eta seed K) i = crystals.encode (noisePoly h eta seed i) := by
  unfold noiseHat
  rw [nth_map (by rwa [List.length_map, List.length_range]), nth_range hi]

/-- All of it is always returned. -/
theorem noises_ok {h : Hashes} {eta K : ℕ} (heta : 0 < eta) (seed : Bytes) :
    (List.range K).mapM (fun i => sampleCBD h seed i eta)
      = .ok ((List.range K).map (noisePoly h eta seed)) :=
  mapM_range_map fun i _ => (sampleCBD_ok heta seed i).1

-- ================================================================= keys

/-- The entries of the matrix are sampled. -/
def Sampled (h : Hashes) (fuel : ℕ) (rho : Bytes) (K : ℕ) (A : ℕ → ℕ → Poly) :
    Prop :=
  ∀ i < K, ∀ j < K, SampleNTT fuel (XOF128 h rho j i) = .ok (A i j)

/-- The two seeds that the seed of a key pair is expanded to. -/
def rhoOf (P : Params) (h : Hashes) (seed : Bytes) : Bytes :=
  (h.sha3_512 (seed ++ [P.K.toUInt8])).toList.take 32

def sigmaOf (P : Params) (h : Hashes) (seed : Bytes) : Bytes :=
  ((h.sha3_512 (seed ++ [P.K.toUInt8])).toList.drop 32).take 32

section

variable (P : Params) (h : Hashes)

/-- The public vector, of a matrix. -/
def tHatOf (sigma : Bytes) (A : ℕ → ℕ → Poly) : List Poly :=
  (List.range P.K).map fun i => rowSum P.K (A i) (noiseHat h P.ETA1 sigma P.K)
    (crystals.encode (noisePoly h P.ETA1 sigma (P.K + i)))

/-- What a key pair is made of. -/
structure Keys (fuel : ℕ) (seed : Bytes) (keys : KeyPair) (A : ℕ → ℕ → Poly) :
    Prop where
  sampled : Sampled h fuel (rhoOf P h seed) P.K A
  publicKey : (KPKE.publicCoder P).Writes
    (tHatOf P h (sigmaOf P h seed) A, rhoOf P h seed, ()) keys.publicKey
  secretKey : (KPKE.secretCoder P).Writes
    (noiseHat h P.ETA1 (sigmaOf P h seed) P.K) keys.secretKey

end

section

variable {P : Params} {h : Hashes} {fuel fuel' : ℕ} {seed rho : Bytes}
  {keys : KeyPair} {A B : ℕ → ℕ → Poly}

/-- A matrix that is sampled is sampled with more fuel too. -/
theorem Sampled.mono (hA : Sampled h fuel rho P.K A) (hle : fuel ≤ fuel') :
    Sampled h fuel' rho P.K A :=
  fun i hi j hj => sampleNTT_mono hle (hA i hi j hj)

/-- Each entry of a matrix is the transform of an element of the ring. -/
theorem Sampled.hat {K : ℕ} (hA : Sampled h fuel rho K A) : ∃ a : ℕ → ℕ → Rq,
    ∀ i < K, ∀ j < K, IsHat (a i j) (A i j) := by
  have hentry : ∀ i j, ∃ x : Rq, i < K → j < K → IsHat x (A i j) := by
    intro i j
    by_cases hij : i < K ∧ j < K
    · obtain ⟨x, hx⟩ := sound.exists_hat (sampleNTT_reduced (hA i hij.1 j hij.2))
      exact ⟨x, fun _ _ => hx⟩
    · exact ⟨0, fun hi hj => absurd ⟨hi, hj⟩ hij⟩
  choose a ha using hentry
  exact ⟨a, fun i hi j hj => ha i j hi hj⟩

/-- A row times the secret, the entries sampled on the way. -/
theorem row_ok {draw : ℕ → Run Poly} {vHat : List Poly} {s t : Poly} {K : ℕ} :
    loopM K (fun j t => do
        let a ← draw j
        return polyAdd t (MultiplyNTTs a (nth vHat j))) s = .ok t
      ↔ ∃ A : ℕ → Poly, (∀ j < K, draw j = .ok (A j)) ∧ t = rowSum K A vHat s :=
  loopM_draw

/-- Sums over a row see no more of it than its entries. -/
theorem rowSum_congr {K : ℕ} {A B : ℕ → Poly} {vHat wHat : List Poly} {t : Poly}
    (hA : ∀ j < K, A j = B j) (hv : ∀ j < K, nth vHat j = nth wHat j) :
    rowSum K A vHat t = rowSum K B wHat t := by
  unfold rowSum
  apply loop_congr
  intro j hj t
  rw [hA j hj, hv j hj]

/-- All rows, each drawn entry by entry: the loops return exactly if every
entry is drawn, and then the rows are those of the matrix of what was
drawn. -/
theorem rows_ok {K : ℕ} {body : ℕ → Run Poly} {draw : ℕ → ℕ → Run Poly}
    {vHat : List Poly} {f : ℕ → Poly → Poly} {s : ℕ → Poly} {u : List Poly}
    (hbody : ∀ i x, body i = .ok x ↔ ∃ t, loopM K (fun j t => do
        let a ← draw i j
        return polyAdd t (MultiplyNTTs a (nth vHat j))) (s i) = .ok t
      ∧ f i t = x) :
    (List.range K).mapM body = .ok u
      ↔ ∃ A : ℕ → ℕ → Poly, (∀ i < K, ∀ j < K, draw i j = .ok (A i j))
        ∧ u = (List.range K).map fun i => f i (rowSum K (A i) vHat (s i)) := by
  constructor
  · intro hu
    obtain ⟨hlength, hget⟩ := drawn_vector hu
    have hrow : ∀ i, ∃ B : ℕ → Poly, i < K → (∀ j < K, draw i j = .ok (B j))
        ∧ f i (rowSum K B vHat (s i)) = nth u i := by
      intro i
      by_cases hi : i < K
      · obtain ⟨t, ht, hft⟩ := (hbody i _).mp (hget i hi)
        obtain ⟨B, hB, rfl⟩ := row_ok.mp ht
        exact ⟨B, fun _ => ⟨hB, hft⟩⟩
      · exact ⟨fun _ => newPoly, fun hi' => absurd hi' hi⟩
    choose A hA using hrow
    refine ⟨A, fun i hi => (hA i hi).1, ?_⟩
    apply List.ext_getElem
    · rw [hlength, List.length_map, List.length_range]
    · intro i hi hi'
      rw [hlength] at hi
      rw [← nth_eq, ← nth_eq, nth_range hi, (hA i hi).2]
  · rintro ⟨A, hA, rfl⟩
    apply mapM_range_map
    intro i hi
    exact (hbody i _).mpr ⟨_, row_ok.mpr ⟨A i, hA i hi, rfl⟩, rfl⟩

/-- A public key of reduced polynomials can be written and read back. -/
theorem publicCoder_writes {tHat : List Poly} (ht : tHat.length = P.K)
    (hred : ∀ p ∈ tHat, AllOk (Reduced Q) p) (hrho : rho.length = 32) :
    ∃ b, (KPKE.publicCoder P).Writes (tHat, rho, ()) b := by
  obtain ⟨b, hb⟩ := vecCoder_writes_of ht fun p hp => byteCoder_writes (hred p hp)
  exact ⟨_, splitCoder_writes (.coder hb (.raw_of hrho .nil))⟩

/-- So can a secret key. -/
theorem secretCoder_writes {sHat : List Poly} (hs : sHat.length = P.K)
    (hred : ∀ p ∈ sHat, AllOk (Reduced Q) p) :
    ∃ b, (KPKE.secretCoder P).Writes sHat b :=
  vecCoder_writes_of hs fun p hp => byteCoder_writes (hred p hp)

end

section

variable {P : Params} (hP : P.Fits) {h : Hashes} {fuel : ℕ}
  {seed sigma rho : Bytes} {keys : KeyPair} {A : ℕ → ℕ → Poly}

include hP

/-- The transform of noise is reduced. -/
theorem reduced_noiseHat (sigma : Bytes) :
    ∀ p ∈ noiseHat h P.ETA1 sigma P.K, AllOk (Reduced Q) p := by
  apply forall_mem
  intro i hi
  unfold noiseHat at hi
  rw [List.length_map, List.length_map, List.length_range] at hi
  rw [nth_noiseHat hi]
  exact (hat_noisePoly hP.eta1 sigma i).reduced

/-- A row of the public vector. -/
theorem hat_tHat (h : Hashes) (sigma : Bytes) {a : ℕ → ℕ → Rq}
    (ha : ∀ i < P.K, ∀ j < P.K, IsHat (a i j) (A i j)) {i : ℕ} (hi : i < P.K) :
    IsHat (ringOfInts (drawn h P.ETA1 sigma (P.K + i))
        + ∑ j ∈ Finset.range P.K, a i j * ringOfInts (drawn h P.ETA1 sigma j))
      (nth (tHatOf P h sigma A) i) := by
  unfold tHatOf
  rw [nth_range hi]
  apply hat_rowSum _ (ha i hi)
  · intro j hj
    rw [nth_noiseHat hj]
    exact hat_noisePoly hP.eta1 sigma j
  · exact hat_noisePoly hP.eta1 sigma _

/-- So are the rows of a key. -/
theorem reduced_tHat (sigma : Bytes) (hA : Sampled h fuel rho P.K A) :
    ∀ p ∈ tHatOf P h sigma A, AllOk (Reduced Q) p := by
  obtain ⟨a, ha⟩ := hA.hat
  apply forall_mem
  intro i hi
  unfold tHatOf at hi
  rw [List.length_map, List.length_range] at hi
  exact (hat_tHat hP h sigma ha hi).reduced

omit hP in
/-- The seed of the matrix has 32 bytes. -/
theorem length_rhoOf (h : Hashes) (seed : Bytes) : (rhoOf P h seed).length = 32 := by
  unfold rhoOf
  rw [List.length_take, Vector.length_toList]
  rfl

omit hP in
/-- The hash of a seed is cut in two halves, one for the matrix, one for the
noise. -/
theorem seedCoder_decode (h : Hashes) (seed : Bytes) :
    KPKE.seedCoder.decode (h.sha3_512 (seed ++ [P.K.toUInt8])).toList
      = .ok (rhoOf P h seed, sigmaOf P h seed, ()) := by
  have hlength : (h.sha3_512 (seed ++ [P.K.toUInt8])).toList.length
      = KPKE.seedCoder.bytesLen := Vector.length_toList
  exact run_bind_ok.mpr ⟨(), abytes_ok.mpr hlength, rfl⟩

/-- **What generation returns**, and when it does: the seed has its length
and the matrix can be sampled. Nothing else that it does can fail. -/
theorem keygen_keys : KPKE.keygen P h fuel seed = .ok keys
    ↔ seed.length = 32 ∧ ∃ A, Keys P h fuel seed keys A := by
  have hvector : ∀ u, (List.range P.K).mapM (fun i => do
      let e ← sampleCBD h (sigmaOf P h seed) (P.K + i) P.ETA1
      loopM P.K (fun j e => do
        let aji ← SampleNTT fuel (XOF128 h (rhoOf P h seed) j i)
        return polyAdd e (MultiplyNTTs aji
          (nth (noiseHat h P.ETA1 (sigmaOf P h seed) P.K) j)))
        (crystals.encode e)) = .ok u
      ↔ ∃ A, Sampled h fuel (rhoOf P h seed) P.K A
        ∧ u = tHatOf P h (sigmaOf P h seed) A := by
    intro u
    apply rows_ok (f := fun _ t => t)
    intro i x
    rw [(sampleCBD_ok hP.eta1 (sigmaOf P h seed) (P.K + i)).1]
    exact ⟨fun h => ⟨x, h, rfl⟩, fun ⟨_, h, hx⟩ => hx ▸ h⟩
  unfold KPKE.keygen
  constructor
  · intro hkeys
    obtain ⟨⟨⟩, hseed, hkeys⟩ := run_bind_ok.mp hkeys
    obtain ⟨_, hdecode, hkeys⟩ := run_bind_ok.mp hkeys
    rw [seedCoder_decode] at hdecode
    cases hdecode
    obtain ⟨s, hs, hkeys⟩ := run_bind_ok.mp hkeys
    rw [noises_ok hP.eta1] at hs
    cases hs
    obtain ⟨tHat, htHat, hkeys⟩ := run_bind_ok.mp hkeys
    obtain ⟨A, hA, rfl⟩ := (hvector tHat).mp htHat
    obtain ⟨publicKey, hpublic, hkeys⟩ := run_bind_ok.mp hkeys
    obtain ⟨secretKey, hsecret, hkeys⟩ := run_map_ok.mp hkeys
    subst hkeys
    obtain ⟨b, hb⟩ := publicCoder_writes (P := P) (by
      unfold tHatOf
      rw [List.length_map, List.length_range]) (reduced_tHat hP _ hA)
      (length_rhoOf h seed)
    obtain ⟨b', hb'⟩ := secretCoder_writes (P := P) (by
      unfold noiseHat
      rw [List.length_map, List.length_map, List.length_range])
      (reduced_noiseHat hP (h := h) (sigmaOf P h seed))
    obtain rfl := Except.ok.inj (hb.encode.symm.trans hpublic)
    obtain rfl := Except.ok.inj (hb'.encode.symm.trans hsecret)
    exact ⟨abytes_ok.mp hseed, A, hA, hb, hb'⟩
  · rintro ⟨hseed, A, hA, hpublic, hsecret⟩
    refine run_bind_ok.mpr ⟨(), abytes_ok.mpr hseed, ?_⟩
    refine run_bind_ok.mpr ⟨_, seedCoder_decode h seed, ?_⟩
    refine run_bind_ok.mpr ⟨_, noises_ok hP.eta1 _, ?_⟩
    refine run_bind_ok.mpr ⟨_, (hvector _).mpr ⟨A, hA, rfl⟩, ?_⟩
    refine run_bind_ok.mpr ⟨_, hpublic.encode, ?_⟩
    exact run_map_ok.mpr ⟨_, hsecret.encode, rfl⟩

/-- Generation returns, once the matrix has been sampled. -/
theorem keygen_returns (hseed : seed.length = 32)
    (hA : Sampled h fuel (rhoOf P h seed) P.K A) :
    ∃ keys, KPKE.keygen P h fuel seed = .ok keys := by
  obtain ⟨b, hb⟩ := publicCoder_writes (P := P) (by
    unfold tHatOf
    rw [List.length_map, List.length_range])
    (reduced_tHat hP (sigmaOf P h seed) hA) (length_rhoOf h seed)
  obtain ⟨b', hb'⟩ := secretCoder_writes (P := P) (by
    unfold noiseHat
    rw [List.length_map, List.length_map, List.length_range])
    (reduced_noiseHat hP (h := h) (sigmaOf P h seed))
  exact ⟨⟨b, b'⟩,
    (keygen_keys hP).mpr ⟨hseed, A, hA, hb, hb'⟩⟩

end

-- ========================================================== encryption

section

variable (P : Params) (h : Hashes)

/-- The vector `u` of a ciphertext, before it is rounded. -/
def uOf (coins : Bytes) (A : ℕ → ℕ → Poly) : List Poly :=
  (List.range P.K).map fun i =>
    polyAdd (noisePoly h P.ETA2 coins (P.K + i)) (crystals.decode
      (rowSum P.K (A i) (noiseHat h P.ETA1 coins P.K) newPoly))

/-- The polynomial `v` of a ciphertext, before it is rounded. -/
def vOf (coins : Bytes) (tHat : List Poly) (m : Poly) : Poly :=
  polyAdd m (polyAdd (noisePoly h P.ETA2 coins (2 * P.K)) (crystals.decode
    (rowSum P.K (nth tHat) (noiseHat h P.ETA1 coins P.K) newPoly)))

end

/-- `u` looks at the entries of the matrix only. -/
theorem uOf_congr {P : Params} {h : Hashes} {coins : Bytes} {A B : ℕ → ℕ → Poly}
    (hA : ∀ i < P.K, ∀ j < P.K, A i j = B i j) :
    uOf P h coins A = uOf P h coins B := by
  unfold uOf
  apply List.map_congr_left
  intro i hi
  rw [rowSum_congr (hA i (List.mem_range.mp hi)) fun _ _ => rfl]

section

variable {P : Params} (hP : P.Fits) {h : Hashes} {fuel : ℕ}
  {msg coins ct rho : Bytes} {tHat : List Poly} {getA : ℕ → ℕ → Run Poly}

include hP

/-- **When a message is encrypted**: where all entries are had, the message
is 32 bytes, and what comes out can be written. -/
theorem encryptCore_ok : KPKE.encryptCore P h tHat getA msg coins = .ok ct
    ↔ ∃ A m, (∀ i < P.K, ∀ j < P.K, getA i j = .ok (A i j))
      ∧ KPKE.poly1.decode msg = .ok m
      ∧ (KPKE.cipherCoder P).encode
        (uOf P h coins A, vOf P h coins tHat m, ()) = .ok ct := by
  have hrows : ∀ u, (List.range P.K).mapM (fun i => do
      let e1 ← sampleCBD h coins (P.K + i) P.ETA2
      let tmp ← loopM P.K (fun j tmp => do
        let aij ← getA i j
        return polyAdd tmp (MultiplyNTTs aij
          (nth (noiseHat h P.ETA1 coins P.K) j))) newPoly
      return polyAdd e1 (crystals.decode tmp)) = .ok u
      ↔ ∃ A : ℕ → ℕ → Poly, (∀ i < P.K, ∀ j < P.K, getA i j = .ok (A i j))
        ∧ u = uOf P h coins A := by
    intro u
    apply rows_ok (s := fun _ => newPoly) (f := fun i t =>
      polyAdd (noisePoly h P.ETA2 coins (P.K + i)) (crystals.decode t))
    intro i x
    rw [(sampleCBD_ok hP.eta2 coins (P.K + i)).1]
    exact run_map_ok
  unfold KPKE.encryptCore
  constructor
  · intro hct
    obtain ⟨r, hr, hct⟩ := run_bind_ok.mp hct
    rw [noises_ok hP.eta1] at hr
    cases hr
    obtain ⟨u, hu, hct⟩ := run_bind_ok.mp hct
    obtain ⟨A, hA, rfl⟩ := (hrows u).mp hu
    obtain ⟨e2, he2, hct⟩ := run_bind_ok.mp hct
    rw [(sampleCBD_ok hP.eta2 coins (2 * P.K)).1] at he2
    cases he2
    obtain ⟨m, hm, hct⟩ := run_bind_ok.mp hct
    exact ⟨A, m, hA, hm, hct⟩
  · rintro ⟨A, m, hA, hm, hct⟩
    refine run_bind_ok.mpr ⟨_, noises_ok hP.eta1 _, ?_⟩
    refine run_bind_ok.mpr ⟨_, (hrows _).mpr ⟨A, hA, rfl⟩, ?_⟩
    refine run_bind_ok.mpr ⟨_, (sampleCBD_ok hP.eta2 coins (2 * P.K)).1, ?_⟩
    exact run_bind_ok.mpr ⟨m, hm, hct⟩

/-- An entry of `u` stands for a row of the matrix times `r`, and noise. -/
theorem uOf_eq (coins : Bytes) {A : ℕ → ℕ → Poly} {a : ℕ → ℕ → Rq}
    (ha : ∀ i < P.K, ∀ j < P.K, IsHat (a i j) (A i j)) {i : ℕ} (hi : i < P.K) :
    AllOk (Reduced Q) (nth (uOf P h coins A) i)
      ∧ ringOf (nth (uOf P h coins A) i)
        = ringOfInts (drawn h P.ETA2 coins (P.K + i))
          + ∑ j ∈ Finset.range P.K,
              a i j * ringOfInts (drawn h P.ETA1 coins j) := by
  have hsum := hat_rowSum (noiseHat h P.ETA1 coins P.K)
    (v := fun j => ringOfInts (drawn h P.ETA1 coins j)) (ha i hi) (fun j hj => by
      rw [nth_noiseHat hj]
      exact hat_noisePoly hP.eta1 coins j) hat_newPoly
  obtain ⟨hred, hring⟩ := hat_decode hsum
  have hnoise := noisePoly_reduced (h := h) hP.eta2 coins (P.K + i)
  unfold uOf
  rw [nth_range hi]
  refine ⟨reduced_polyAdd hnoise hred, ?_⟩
  rw [ringOf_polyAdd hnoise hred, hring, ringOf_noisePoly hP.eta2, zero_add]

/-- `v` stands for the message, the public vector times `r`, and noise. -/
theorem vOf_eq (coins : Bytes) {m : Poly} (hm : AllOk (Reduced Q) m) {t : ℕ → Rq}
    (ht : ∀ i < P.K, IsHat (t i) (nth tHat i)) :
    AllOk (Reduced Q) (vOf P h coins tHat m)
      ∧ ringOf (vOf P h coins tHat m) = ringOf m
        + (ringOfInts (drawn h P.ETA2 coins (2 * P.K))
          + ∑ i ∈ Finset.range P.K,
              t i * ringOfInts (drawn h P.ETA1 coins i)) := by
  have hsum := hat_rowSum (noiseHat h P.ETA1 coins P.K)
    (v := fun j => ringOfInts (drawn h P.ETA1 coins j)) ht (fun j hj => by
      rw [nth_noiseHat hj]
      exact hat_noisePoly hP.eta1 coins j) hat_newPoly
  obtain ⟨hred, hring⟩ := hat_decode hsum
  have hnoise := noisePoly_reduced (h := h) hP.eta2 coins (2 * P.K)
  have hrest := reduced_polyAdd hnoise hred
  unfold vOf
  refine ⟨reduced_polyAdd hm hrest, ?_⟩
  rw [ringOf_polyAdd hm hrest, ringOf_polyAdd hnoise hred, hring,
    ringOf_noisePoly hP.eta2, zero_add]

end

-- ========================================================== decryption

/-- The noise a ciphertext hides its message in, with what rounding adds to
`u` and to `v`. -/
def noise (P : Params) (h : Hashes) (sigma coins : Bytes) (cu : ℕ → ℕ → ℤ)
    (cv : ℕ → ℤ) (i : ℕ) : ℤ :=
  drawn h P.ETA2 coins (2 * P.K) i + cv i
    + ∑ j ∈ Finset.range P.K, convolve N (drawn h P.ETA1 sigma (P.K + j))
        (drawn h P.ETA1 coins j) i
    - ∑ j ∈ Finset.range P.K, convolve N (drawn h P.ETA1 sigma j)
        (fun k => drawn h P.ETA2 coins (P.K + j) k + cu j k) i

/-- The noise of the ciphertext that is made for a key pair. -/
def noiseOf (P : Params) (h : Hashes) (seed coins : Bytes) (A : ℕ → ℕ → Poly)
    (m : Poly) : ℕ → ℤ :=
  noise P h (sigmaOf P h seed) coins
    (fun j => rounding P.du (nth (uOf P h coins fun i j => A j i) j))
    (rounding P.dv (vOf P h coins (tHatOf P h (sigmaOf P h seed) A) m))

/-- The noise leaves the bit `b` as it is. -/
def Recovered (b : ℕ) (n : ℤ) : Prop :=
  -832 ≤ n.bmod q ∧ n.bmod q + b ≤ 832

/-- **A bit comes back** where the noise is less than a quarter of the
modulus, and nowhere else. -/
theorem compress_recovered {b : ℕ} (hb : b ≤ 1) (n : ℤ) :
    Compress 1 ((1665 * b + n) % Q).toNat = b ↔ Recovered b n := by
  have hlow := Int.emod_nonneg n (show Q ≠ 0 by decide)
  have hhigh := Int.emod_lt_of_pos n (show 0 < Q by decide)
  unfold Recovered Compress
  rw [Int.bmod_def]
  unfold q
  unfold Q at *
  rcases Nat.le_one_iff_eq_zero_or_eq_one.mp hb with rfl | rfl
  · split <;> omega
  · split <;> omega

/-- A bit comes back where the noise is at most 831. -/
theorem recovered_of_abs {b : ℕ} (hb : b ≤ 1) {n : ℤ} (hn : |n| ≤ 831) :
    Recovered b n := by
  rw [abs_le] at hn
  unfold Recovered q
  rw [Int.bmod_def]
  split <;> omega

/-- What is left of a ciphertext when `s * u` is taken from `v`: the matrix
cancels out. -/
theorem cancel_matrix {R : Type} [CommRing R] {K : ℕ} (a : ℕ → ℕ → R)
    (s e r e1 cu : ℕ → R) (m e2 cv : R) :
    m + (e2 + ∑ i ∈ Finset.range K,
        (e i + ∑ j ∈ Finset.range K, a i j * s j) * r i) + cv
      - ∑ i ∈ Finset.range K,
          s i * (e1 i + ∑ j ∈ Finset.range K, a j i * r j + cu i)
      = m + (e2 + cv + ∑ i ∈ Finset.range K, e i * r i
        - ∑ i ∈ Finset.range K, s i * (e1 i + cu i)) := by
  have hcross : ∑ i ∈ Finset.range K, ∑ j ∈ Finset.range K, a i j * s j * r i
      = ∑ i ∈ Finset.range K, ∑ j ∈ Finset.range K, s i * (a j i * r j) := by
    rw [Finset.sum_comm]
    refine Finset.sum_congr rfl fun i _ => Finset.sum_congr rfl fun j _ => ?_
    ring
  simp only [add_mul, mul_add, Finset.sum_add_distrib, Finset.sum_mul,
    Finset.mul_sum, hcross]
  ring

section

variable {P : Params} (hP : P.Fits) {h : Hashes} {f₀ f₁ : ℕ}
  {seed msg coins ct : Bytes} {keys : KeyPair} {A : ℕ → ℕ → Poly}

include hP

omit hP in
/-- Decryption, of a secret key and a ciphertext that have been written: it
returns 32 bytes, whose bits are the coefficients of `v` less the product,
each compressed to one bit. -/
theorem decrypt_ok {sHat u : List Poly} {v : Poly} {sk : Bytes} {s w : ℕ → Rq}
    (hsk : (KPKE.secretCoder P).Writes sHat sk)
    (hct : (KPKE.cipherCoder P).Writes (u, v, ()) ct) (hu : u.length = P.K)
    (hs : ∀ i < P.K, IsHat (s i) (nth sHat i))
    (hw : ∀ i < P.K, AllOk (Reduced Q) (nth u i) ∧ ringOf (nth u i) = w i)
    (hv : AllOk (Reduced Q) v) :
    ∃ p msg', AllOk (Reduced Q) p
      ∧ ringOf p = ringOf v - ∑ i ∈ Finset.range P.K, s i * w i
      ∧ KPKE.decrypt P ct sk = .ok msg' ∧ msg'.length = 32
      ∧ ∀ i < N, bit msg' i = Compress 1 (get p i).toNat := by
  have hrow : loop P.K (fun i tmp => polyAdd tmp (MultiplyNTTs (nth sHat i)
      (crystals.encode (nth u i)))) newPoly
      = rowSum P.K (nth sHat) (u.map crystals.encode) newPoly := by
    unfold rowSum
    apply loop_congr
    intro i hi tmp
    rw [nth_map (by omega)]
  have hsum := hat_rowSum (v := w) (u.map crystals.encode) hs
    (fun i hi => by
      rw [nth_map (by omega), ← (hw i hi).2]
      exact hat_encode (hw i hi).1) hat_newPoly
  rw [← hrow] at hsum
  obtain ⟨hred, hring⟩ := hat_decode hsum
  have hsub := reduced_polySub hv hred
  obtain ⟨msg', hmsg', hlength, hbits⟩ := message_encode hsub
  refine ⟨_, msg', hsub, ?_, ?_, hlength, hbits⟩
  · rw [ringOf_polySub hv hred, hring, zero_add]
  · refine run_bind_ok.mpr ⟨_, hct.decode, ?_⟩
    exact run_bind_ok.mpr ⟨_, hsk.decode, hmsg'⟩

/-- **What encryption for a key pair returns**, and when it does. The
matrix is the transpose of the one the key has been made with. -/
theorem encrypt_ok (hk : Keys P h f₀ seed keys A) (hle : f₀ ≤ f₁) :
    KPKE.encrypt P h f₁ keys.publicKey msg coins = .ok ct
      ↔ ∃ m, KPKE.poly1.decode msg = .ok m
        ∧ (KPKE.cipherCoder P).encode (uOf P h coins fun i j => A j i,
          vOf P h coins (tHatOf P h (sigmaOf P h seed) A) m, ()) = .ok ct := by
  have hentry := hk.sampled.mono hle
  constructor
  · intro hct
    obtain ⟨_, hdecode, hct⟩ := run_bind_ok.mp hct
    cases Except.ok.inj (hk.publicKey.decode.symm.trans hdecode)
    obtain ⟨B, m, hB, hm, hct⟩ := (encryptCore_ok hP).mp hct
    have hsame : ∀ i < P.K, ∀ j < P.K, B i j = A j i := by
      intro i hi j hj
      exact Except.ok.inj ((hB i hi j hj).symm.trans (hentry j hj i hi))
    rw [uOf_congr hsame] at hct
    exact ⟨m, hm, hct⟩
  · rintro ⟨m, hm, hct⟩
    refine run_bind_ok.mpr ⟨_, hk.publicKey.decode, ?_⟩
    exact (encryptCore_ok hP).mpr
      ⟨fun i j => A j i, m, fun i hi j hj => hentry j hj i hi, hm, hct⟩

omit hP in
/-- A message that has been read stands for its bits. -/
theorem ringOf_message {m : Poly} (hmsg : msg.length = 32)
    (hm : KPKE.poly1.decode msg = .ok m) : AllOk (Reduced Q) m
      ∧ ringOf m = ringOfInts fun i => 1665 * bit msg i := by
  obtain ⟨m', hm', hslots⟩ := message_decode hmsg
  cases Except.ok.inj (hm'.symm.trans hm)
  have hred : AllOk (Reduced Q) m := by
    intro i hi
    have hbit := bit_lt msg i
    rw [hslots i hi]
    unfold Reduced Q
    omega
  refine ⟨hred, ringOf_eq ?_⟩
  intro i hi
  obtain ⟨hlow, hhigh⟩ := hred i hi
  rw [← hslots i hi, Int.emod_eq_of_lt hlow hhigh]

/-- What rounding adds to the two parts of a ciphertext is small. -/
theorem rounding_bounds (coins : Bytes) {m : Poly} (hk : Keys P h f₀ seed keys A)
    (hm : AllOk (Reduced Q) m) :
    (∀ j < P.K, ∀ i < N, |rounding P.du (nth (uOf P h coins fun i j => A j i) j) i|
        ≤ roundingBound P.du)
      ∧ ∀ i < N, |rounding P.dv (vOf P h coins
        (tHatOf P h (sigmaOf P h seed) A) m) i| ≤ roundingBound P.dv := by
  obtain ⟨a, ha⟩ := hk.sampled.hat
  constructor
  · intro j hj i hi
    have hu := uOf_eq (h := h) hP coins (A := fun i j => A j i)
      (fun i hi j hj => ha j hj i hi) hj
    exact abs_rounding_le hP.du hu.1 hi
  · intro i hi
    have hv := vOf_eq (h := h) hP coins hm
      fun i hi => hat_tHat hP h (sigmaOf P h seed) ha hi
    exact abs_rounding_le hP.dv hv.1 hi

/-- **What a ciphertext is opened to**: a bit is that of the message where
the noise leaves it. -/
theorem decrypt_sealed (coins : Bytes) (hk : Keys P h f₀ seed keys A)
    (hmsg : msg.length = 32) :
    ∃ m ct msg', KPKE.poly1.decode msg = .ok m
      ∧ (KPKE.cipherCoder P).encode (uOf P h coins fun i j => A j i,
        vOf P h coins (tHatOf P h (sigmaOf P h seed) A) m, ()) = .ok ct
      ∧ ct.length = (KPKE.cipherCoder P).bytesLen
      ∧ KPKE.decrypt P ct keys.secretKey = .ok msg' ∧ msg'.length = 32
      ∧ ∀ i < N, (bit msg' i = bit msg i
        ↔ Recovered (bit msg i) (noiseOf P h seed coins A m i)) := by
  obtain ⟨a, ha⟩ := hk.sampled.hat
  obtain ⟨m, hm, -⟩ := message_decode hmsg
  obtain ⟨hmred, hmring⟩ := ringOf_message hmsg hm
  have hu := fun i (hi : i < P.K) => uOf_eq (h := h) hP coins
    (A := fun i j => A j i) (fun i hi j hj => ha j hj i hi) hi
  obtain ⟨hvred, hvring⟩ := vOf_eq (h := h) hP coins hmred
    fun i hi => hat_tHat hP h (sigmaOf P h seed) ha hi
  have hlength : (uOf P h coins fun i j => A j i).length = P.K := by
    unfold uOf
    rw [List.length_map, List.length_range]
  obtain ⟨ct, hct, hwrites⟩ := cipherCoder_writes hP hlength
    (forall_mem fun i hi => (hu i (by omega)).1) hvred
  have hs : ∀ i < P.K, IsHat (ringOfInts (drawn h P.ETA1 (sigmaOf P h seed) i))
      (nth (noiseHat h P.ETA1 (sigmaOf P h seed) P.K) i) := by
    intro i hi
    rw [nth_noiseHat hi]
    exact hat_noisePoly hP.eta1 _ i
  -- what `u` comes back as
  have hw : ∀ i < P.K, AllOk (Reduced Q)
        (nth ((uOf P h coins fun i j => A j i).map (rounded P.du)) i)
      ∧ ringOf (nth ((uOf P h coins fun i j => A j i).map (rounded P.du)) i)
        = ringOfInts (drawn h P.ETA2 coins (P.K + i))
          + ∑ j ∈ Finset.range P.K, a j i * ringOfInts (drawn h P.ETA1 coins j)
          + ringOfInts (rounding P.du (nth (uOf P h coins fun i j => A j i) i)) := by
    intro i hi
    rw [nth_map (by omega), ringOf_rounded, (hu i hi).2]
    exact ⟨reduced_rounded hP.du, rfl⟩
  obtain ⟨p, msg', hpred, hpring, hdecrypt, hmsg', hbits⟩ := decrypt_ok
    hk.secretKey hwrites (by rw [List.length_map, hlength]) hs hw
    (reduced_rounded hP.dv)
  have hring : ringOf p
      = ringOfInts fun i => 1665 * bit msg i + noiseOf P h seed coins A m i := by
    rw [hpring, ringOf_rounded, hvring, hmring, cancel_matrix]
    unfold noiseOf noise
    simp only [ringOfInts_add, ringOfInts_sub, ringOfInts_mul, ringOfInts_sum]
  refine ⟨m, ct, msg', hm, hct, hwrites.length, hdecrypt, hmsg', ?_⟩
  intro i hi
  rw [hbits i hi, slot_of_ringOf hpred hring hi]
  exact compress_recovered (Nat.le_of_lt_succ (bit_lt msg i)) _

end

/-- **A message comes back bit by bit**: there is a ciphertext for a
generated key pair and a message, and what it is decrypted to has the bits
of the message where the noise is less than a quarter of the modulus, and
no others. -/
theorem decrypt_encrypt (set : ParamSet) (h : Hashes) (coins : Bytes)
    {f₀ f₁ : ℕ} {seed msg : Bytes} {keys : KeyPair}
    (hkeys : KPKE.keygen (PARAMS set) h f₀ seed = .ok keys) (hle : f₀ ≤ f₁)
    (hmsg : msg.length = 32) :
    ∃ A m ct msg', Sampled h f₀ (rhoOf (PARAMS set) h seed) (PARAMS set).K A
      ∧ KPKE.poly1.decode msg = .ok m
      ∧ KPKE.encrypt (PARAMS set) h f₁ keys.publicKey msg coins = .ok ct
      ∧ KPKE.decrypt (PARAMS set) ct keys.secretKey = .ok msg'
      ∧ msg'.length = 32
      ∧ ∀ i < N, (bit msg' i = bit msg i ↔ Recovered (bit msg i)
        (noiseOf (PARAMS set) h seed coins A m i)) := by
  have hfits := PARAMS_fits set
  obtain ⟨-, A, hk⟩ := (keygen_keys hfits).mp hkeys
  obtain ⟨m, ct, msg', hm, hct, -, hmsg', hlength, hbits⟩ :=
    decrypt_sealed hfits coins hk hmsg
  exact ⟨A, m, ct, msg', hk.sampled, hm,
    (encrypt_ok hfits hk hle).mpr ⟨m, hm, hct⟩, hmsg', hlength, hbits⟩

-- ============================================================ instances

/-- Hashes that look at the sum of all bytes. Every candidate of a stream of
SHAKE128 is below the modulus; the noise that SHAKE256 makes has one
coefficient that is not zero. -/
def toy : Hashes where
  shake128 data k := ((weight data % 4 + k) % 13).toUInt8
  shake256 data k :=
    if k = 0 then if weight data % 2 = 0 then 1 else 4 else 0x55
  sha3_256 data := Vector.replicate 32 (weight data).toUInt8
  sha3_512 data := Vector.replicate 64 (weight data).toUInt8

/-- An entry is sampled from three blocks, whatever is hashed. -/
theorem toy_matrix (rho : Bytes) (x y : ℕ) :
    ∃ p, SampleNTT 3 (XOF128 toy rho x y) = .ok p := by
  have hblocks : ∀ r < 4, (SampleNTT 3 fun call => squeeze
      (fun i => ((r + (call * 168 + i)) % 13).toUInt8) 168).isOk = true := by
    decide +kernel
  apply returns_of_isOk
  exact hblocks _ (Nat.mod_lt (weight (rho ++ [x.toUInt8, y.toUInt8])) (by decide))

/-- So is a whole matrix. -/
theorem toy_sampled (rho : Bytes) (K : ℕ) : ∃ A, Sampled toy 3 rho K A := by
  choose A hA using toy_matrix rho
  exact ⟨fun i j => A j i, fun i _ j _ => hA j i⟩

/-- A key pair is generated from any seed of 32 bytes. -/
theorem toy_keygen {seed : Bytes} (hseed : seed.length = 32) :
    ∃ keys, KPKE.keygen (PARAMS .ml_kem768) toy 3 seed = .ok keys := by
  obtain ⟨A, hA⟩ := toy_sampled (rhoOf (PARAMS .ml_kem768) toy seed) 3
  exact keygen_returns (PARAMS_fits .ml_kem768) hseed hA

/-- The message 0, 1, 2 and so on, under the seed of the same bytes. -/
theorem decrypt_encrypt_toy : ∃ (keys : KeyPair) (A : ℕ → ℕ → Poly) (m : Poly)
    (ct msg' : Bytes), KPKE.encrypt (PARAMS .ml_kem768) toy 3 keys.publicKey
        (counting 32) [1, 2, 3] = .ok ct
      ∧ KPKE.decrypt (PARAMS .ml_kem768) ct keys.secretKey = .ok msg'
      ∧ ∀ i < N, (bit msg' i = bit (counting 32) i
        ↔ Recovered (bit (counting 32) i) (noiseOf (PARAMS .ml_kem768)
          toy (counting 32) [1, 2, 3] A m i)) := by
  obtain ⟨keys, hkeys⟩ := toy_keygen (length_counting 32)
  obtain ⟨A, m, ct, msg', -, -, hct, hmsg', -, hbits⟩ :=
    decrypt_encrypt .ml_kem768 toy [1, 2, 3] hkeys le_rfl (length_counting 32)
  exact ⟨keys, A, m, ct, msg', hct, hmsg', hbits⟩

end KxcoPostQuantum.Vendor.MlKem
