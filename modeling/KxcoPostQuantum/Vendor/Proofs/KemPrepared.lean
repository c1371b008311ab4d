/-
ML-KEM with a prepared public key.

What `prepare` holds is what the functions without it compute each time: the
vector, the matrix and the hash of the key. The matrix is one array, an
entry of which is at the place its row and column give it (`nth_flatten`),
so encryption runs through the same steps (`Prepared.encrypt_eq`). The check
that a secret key is of the prepared key (`Prepared.checkMatch_ok`) stands
in for the one of its hash (`Parts.checkHash_ok`).

A secret key holds the public key it belongs to, so decapsulation has
always been given two; with a prepared key the program insists that they
are the same one.
-/
import KxcoPostQuantum.Vendor.Proofs.KemScheme

namespace KxcoPostQuantum.Vendor.MlKem

open Lib

-- =========================================================== the matrix

/-- A list is mapped alike by what does the same to its elements. -/
theorem mapM_congr {α β ε : Type} {f g : α → Except ε β} {l : List α}
    (h : ∀ a ∈ l, f a = g a) : l.mapM f = l.mapM g := by
  induction l with
  | nil => rfl
  | cons a l ih =>
      rw [List.mapM_cons, List.mapM_cons, h a List.mem_cons_self,
        ih fun a ha => h a (List.mem_cons_of_mem _ ha)]

/-- An entry of an array of rows of one length. -/
theorem nth_flatten {K : ℕ} {rows : List (List Poly)}
    (hrows : ∀ row ∈ rows, row.length = K) {i j : ℕ} (hi : i < rows.length)
    (hj : j < K) : nth rows.flatten (i * K + j) = nth rows[i] j := by
  induction rows generalizing i with
  | nil => exact absurd hi (Nat.not_lt_zero i)
  | cons row rows ih =>
      have hrow := hrows row List.mem_cons_self
      rw [List.flatten_cons]
      unfold nth
      cases i with
      | zero =>
          rw [Nat.zero_mul, Nat.zero_add, List.getD_append _ _ _ _ (by omega)]
          rfl
      | succ i =>
          rw [List.getD_append_right _ _ _ _ (by rw [Nat.succ_mul]; omega),
            show (i + 1) * K + j - row.length = i * K + j by
              rw [Nat.succ_mul]; omega]
          exact ih (fun row hrow => hrows row (List.mem_cons_of_mem _ hrow))
            (Nat.lt_of_succ_lt_succ hi)

section

variable {P : Params} {h : Hashes} {fuel : ℕ} {publicKey : Bytes}

/-- Encryption sees no more of the matrix than its entries. So it makes no
difference whether they are drawn when they are needed or have been drawn
before. -/
theorem encryptCore_congr {tHat : List Poly} {getA getB : ℕ → ℕ → Run Poly}
    {msg coins : Bytes} (hA : ∀ i < P.K, ∀ j < P.K, getA i j = getB i j) :
    KPKE.encryptCore P h tHat getA msg coins
      = KPKE.encryptCore P h tHat getB msg coins := by
  have hloop : ∀ (rHat : List Poly), ∀ i < P.K,
      loopM P.K (fun j tmp => do
        let aij ← getA i j
        return polyAdd tmp (MultiplyNTTs aij (nth rHat j))) newPoly
      = loopM P.K (fun j tmp => do
        let aij ← getB i j
        return polyAdd tmp (MultiplyNTTs aij (nth rHat j))) newPoly := by
    intro rHat i hi
    apply loopM_congr
    intro j hj tmp
    rw [hA i hi j hj]
  have hrows : ∀ rHat : List Poly, (List.range P.K).mapM (fun i => do
        let e1 ← sampleCBD h coins (P.K + i) P.ETA2
        let tmp ← loopM P.K (fun j tmp => do
          let aij ← getA i j
          return polyAdd tmp (MultiplyNTTs aij (nth rHat j))) newPoly
        return polyAdd e1 (crystals.decode tmp))
      = (List.range P.K).mapM (fun i => do
        let e1 ← sampleCBD h coins (P.K + i) P.ETA2
        let tmp ← loopM P.K (fun j tmp => do
          let aij ← getB i j
          return polyAdd tmp (MultiplyNTTs aij (nth rHat j))) newPoly
        return polyAdd e1 (crystals.decode tmp)) := by
    intro rHat
    apply mapM_congr
    intro i hi
    rw [hloop rHat i (List.mem_range.mp hi)]
  unfold KPKE.encryptCore
  simp only [hrows]

/-- What a prepared key holds: the vector of the public key, and for each
entry of the matrix what the sampler returns for its seed. -/
theorem prepared_entries {c : KPKE.Prepared}
    (hc : KPKE.prepare P h fuel publicKey = .ok c) :
    ∃ rho, (KPKE.publicCoder P).decode publicKey = .ok (c.tHat, rho, ())
      ∧ ∀ i < P.K, ∀ j < P.K,
        SampleNTT fuel (XOF128 h rho i j) = .ok (nth c.A (i * P.K + j)) := by
  obtain ⟨⟨tHat, rho, ⟨⟩⟩, hdecode, hc⟩ := run_bind_ok.mp hc
  obtain ⟨rows, hrows, hc⟩ := run_map_ok.mp hc
  subst hc
  obtain ⟨hlength, hget⟩ := mapM_range_ok.mp hrows
  refine ⟨rho, hdecode, ?_⟩
  intro i hi j hj
  have hall : ∀ row ∈ rows, row.length = P.K := by
    intro row hrow
    obtain ⟨k, hk, rfl⟩ := List.mem_iff_getElem.mp hrow
    exact (mapM_range_ok.mp (hget k hk)).1
  have hrow := hlength.symm ▸ hi
  rw [nth_flatten hall hrow hj]
  exact (drawn_vector (hget i hrow)).2 j hj

/-- **Encryption with a prepared key** is that with the key. -/
theorem Prepared.encrypt_eq {c : KPKE.Prepared}
    (hc : KPKE.prepare P h fuel publicKey = .ok c) (msg coins : Bytes) :
    c.encrypt P h msg coins = KPKE.encrypt P h fuel publicKey msg coins := by
  obtain ⟨rho, hdecode, hentries⟩ := prepared_entries hc
  unfold KPKE.Prepared.encrypt KPKE.encrypt
  rw [hdecode]
  exact encryptCore_congr fun i hi j hj => (hentries i hi j hj).symm

end

-- ============================================================= the keys

section

variable {P : Params} {h : Hashes} {secretKey : Bytes}

/-- The parts of a secret key, of its length. -/
structure Parts (P : Params) (secretKey sk publicKey hash z : Bytes) : Prop where
  decode : (secretCoder P).decode secretKey = .ok (sk, publicKey, hash, z, ())
  embedded : subarray secretKey (((secretCoder P).bytesLen - 96) / 2)
    ((secretCoder P).bytesLen - 96 + 32) = publicKey
  stored : subarray secretKey ((secretCoder P).bytesLen - 96 + 32)
    ((secretCoder P).bytesLen - 96 + 32 + 32) = hash

/-- Whatever has the length of a secret key has the four parts of one. -/
theorem exists_parts (hlength : secretKey.length = (secretCoder P).bytesLen) :
    ∃ sk publicKey hash z, Parts P secretKey sk publicKey hash z := by
  have hbytes : (secretCoder P).bytesLen - 96 = 2 * (P.K * 384) := by
    rw [secretCoder_bytesLen]
    omega
  have hhalf : 2 * (P.K * 384) / 2 = P.K * 384 := by omega
  refine ⟨_, _, _, _, run_bind_ok.mpr ⟨(), abytes_ok.mpr hlength, rfl⟩, ?_, ?_⟩
  · rw [hbytes, hhalf]
    unfold subarray
    rw [List.drop_take, publicCoder_bytesLen, secretVector_bytesLen]
    congr 1
    omega
  · rw [hbytes]
    unfold subarray
    rw [List.drop_take, List.drop_drop, publicCoder_bytesLen,
      secretVector_bytesLen]
    congr 1
    · omega
    · congr 1
      omega

variable {sk publicKey hash z : Bytes}

/-- One of the four parts is the public key. -/
theorem Parts.getPublicKey_eq (hparts : Parts P secretKey sk publicKey hash z) :
    getPublicKey P secretKey = .ok publicKey :=
  run_bind_ok.mpr ⟨_, hparts.decode, rfl⟩

/-- One is its hash, which is what is checked. -/
theorem Parts.checkHash_ok (hparts : Parts P secretKey sk publicKey hash z) :
    checkHash P h secretKey = .ok () ↔ (h.sha3_256 publicKey).toList = hash := by
  unfold checkHash
  simp only [hparts.embedded, hparts.stored]
  by_cases hsame : (h.sha3_256 publicKey).toList = hash
  · rw [if_pos (equalBytes_iff.mpr hsame)]
    exact iff_of_true rfl hsame
  · rw [if_neg (mt equalBytes_iff.mp hsame)]
    refine iff_of_false ?_ hsame
    intro hraise
    cases hraise

end

section

variable {P : Params} {h : Hashes} {fuel : ℕ}
  {publicKey msg ct secretKey : Bytes} {c : Prepared}

/-- A prepared key has passed the checks, and is kept with its hash. So the
checks need not be made again when it is used. -/
theorem prepare_ok (hc : prepare P h fuel publicKey = .ok c) :
    publicKey.length = (KPKE.publicCoder P).bytesLen ∧ ReducedKey P publicKey
      ∧ c.publicKey = publicKey
      ∧ c.publicKeyHash = (h.sha3_256 publicKey).toList
      ∧ KPKE.prepare P h fuel publicKey = .ok c.cached := by
  obtain ⟨⟨⟩, hlength, hc⟩ := run_bind_ok.mp hc
  have hlength := abytes_ok.mp hlength
  obtain ⟨⟨⟩, hmodulus, hc⟩ := run_bind_ok.mp hc
  obtain ⟨cached, hcached, hc⟩ := run_map_ok.mp hc
  subst hc
  refine ⟨hlength, ?_, rfl, rfl, hcached⟩
  by_contra hkey
  rw [(validateModulus_cases _ hlength).2 hkey] at hmodulus
  cases hmodulus

/-- Bytes of another length are not taken. -/
theorem abytes_error {value : Bytes} {length : ℕ} (title : JsString)
    (hlength : value.length ≠ length) :
    ∃ e, abytes value length title = .error e := by
  unfold abytes
  rw [if_neg hlength]
  exact ⟨_, rfl⟩

/-- **Encapsulation with a prepared key** is that with the key, as the
prepared key holds the matrix that would be sampled. -/
theorem Prepared.encapsulate_eq (hc : prepare P h fuel publicKey = .ok c) :
    c.encapsulate P h msg = MlKem.encapsulate P h fuel publicKey msg := by
  obtain ⟨hlength, hkey, -, hhash, hcached⟩ := prepare_ok hc
  have hmodulus := (validateModulus_cases (js "encapsulate") hlength).1 hkey
  unfold Prepared.encapsulate MlKem.encapsulate
  rw [abytes_ok.mpr hlength]
  by_cases hmsg : msg.length = 32
  · rw [abytes_ok.mpr hmsg, hmodulus]
    simp only [hhash, Prepared.encrypt_eq hcached]
    rfl
  · obtain ⟨e, he⟩ := abytes_error (js "message") hmsg
    rw [he]
    rfl

/-- A secret key matches where it holds the prepared key and its hash. -/
theorem Prepared.checkMatch_ok {ekEmbedded storedHash : Bytes} :
    c.checkMatch ekEmbedded storedHash
      = if ekEmbedded = c.publicKey ∧ storedHash = c.publicKeyHash then .ok ()
        else raise (error (js ("ML-KEM.decapsulate: secretKey does not match "
          ++ "prepared publicKey"))) := by
  have hother : (!equalBytes ekEmbedded c.publicKey
        || !equalBytes storedHash c.publicKeyHash) = true
      ↔ ¬ (ekEmbedded = c.publicKey ∧ storedHash = c.publicKeyHash) := by
    rw [Bool.or_eq_true, Bool.not_eq_true', Bool.not_eq_true', ← Bool.not_eq_true,
      ← Bool.not_eq_true, equalBytes_iff, equalBytes_iff, not_and_or]
  unfold Prepared.checkMatch
  by_cases hmatch : ekEmbedded = c.publicKey ∧ storedHash = c.publicKeyHash
  · rw [if_neg (mt hother.mp (not_not_intro hmatch)), if_pos hmatch]
  · rw [if_pos (hother.mpr hmatch), if_neg hmatch]

/-- **A prepared key changes nothing**: encapsulation is that with the key,
errors included, and so is decapsulation with a secret key that holds the
prepared key and passes the check of its hash. With any other secret key of
the length it throws. -/
theorem prepare_exact (P : Params) (h : Hashes) (fuel : ℕ)
    (publicKey msg ct secretKey : Bytes) (c : Prepared)
    (hc : prepare P h fuel publicKey = .ok c) :
    c.encapsulate P h msg = encapsulate P h fuel publicKey msg
      ∧ (getPublicKey P secretKey = .ok publicKey →
        checkHash P h secretKey = .ok () →
        c.decapsulate P h ct secretKey = decapsulate P h fuel ct secretKey)
      ∧ (secretKey.length = (secretCoder P).bytesLen →
        ct.length = (KPKE.cipherCoder P).bytesLen →
        ¬ (getPublicKey P secretKey = .ok publicKey
          ∧ checkHash P h secretKey = .ok ()) →
        c.decapsulate P h ct secretKey
          = raise (error (js ("ML-KEM.decapsulate: secretKey does not match "
            ++ "prepared publicKey")))) := by
  obtain ⟨-, -, hkept, hhash, hcached⟩ := prepare_ok hc
  refine ⟨Prepared.encapsulate_eq hc, ?_, ?_⟩
  · intro hpublic hcheck
    obtain ⟨_, hdecode, -⟩ := run_bind_ok.mp hpublic
    obtain ⟨⟨⟩, hlength, -⟩ := run_bind_ok.mp hdecode
    have hlength : secretKey.length = (secretCoder P).bytesLen :=
      abytes_ok.mp hlength
    obtain ⟨sk, embedded, stored, z, hparts⟩ := exists_parts hlength
    have hembedded := Except.ok.inj (hparts.getPublicKey_eq.symm.trans hpublic)
    have hstored := hparts.checkHash_ok.mp hcheck
    have hmatch : c.checkMatch embedded stored = .ok () := by
      rw [Prepared.checkMatch_ok, if_pos ⟨hembedded.trans hkept.symm, by
        rw [hhash, ← hstored, hembedded]⟩]
    have hsame : c.publicKeyHash = stored := by
      rw [hhash, ← hembedded, hstored]
    unfold Prepared.decapsulate decapsulate
    rw [abytes_ok.mpr hlength]
    by_cases hct : ct.length = (KPKE.cipherCoder P).bytesLen
    · rw [abytes_ok.mpr hct, hcheck, hparts.decode]
      simp only [hsame, Prepared.encrypt_eq hcached, ← hembedded]
      show (c.checkMatch embedded stored >>= _) = _
      rw [hmatch]
      rfl
    · obtain ⟨e, he⟩ := abytes_error (js "cipherText") hct
      rw [he]
      rfl
  · intro hlength hct hother
    obtain ⟨sk, embedded, stored, z, hparts⟩ := exists_parts hlength
    have hmatch : ¬ (embedded = c.publicKey ∧ stored = c.publicKeyHash) := by
      rintro ⟨rfl, rfl⟩
      apply hother
      refine ⟨hkept ▸ hparts.getPublicKey_eq, hparts.checkHash_ok.mpr ?_⟩
      rw [hkept, hhash]
    unfold Prepared.decapsulate
    rw [abytes_ok.mpr hlength, abytes_ok.mpr hct, hparts.decode]
    show (c.checkMatch embedded stored >>= _) = _
    rw [Prepared.checkMatch_ok, if_neg hmatch]
    rfl

/-- With the secret key of the pair, and with one whose hash is not that of
the public key in it. -/
theorem prepare_exact_toy : ∃ (keys : KeyPair) (c : Prepared),
    c.encapsulate (PARAMS .ml_kem768) toy (counting 32)
        = encapsulate (PARAMS .ml_kem768) toy 3 keys.publicKey (counting 32)
      ∧ c.decapsulate (PARAMS .ml_kem768) toy (counting 1088) keys.secretKey
        = decapsulate (PARAMS .ml_kem768) toy 3 (counting 1088) keys.secretKey
      ∧ c.decapsulate (PARAMS .ml_kem768) toy (counting 1088)
          (List.replicate 2400 1)
        = raise (error (js ("ML-KEM.decapsulate: secretKey does not match "
          ++ "prepared publicKey"))) := by
  obtain ⟨keys, hkeys⟩ := toy_keys
  have hfits := PARAMS_fits .ml_kem768
  obtain ⟨A, sk, hk⟩ := keygen_generated hfits hkeys
  obtain ⟨c, hc⟩ := hk.prepared hfits le_rfl
  obtain ⟨hencapsulate, hdecapsulate, -⟩ := prepare_exact (PARAMS .ml_kem768)
    toy 3 keys.publicKey (counting 32) (counting 1088) keys.secretKey c hc
  obtain ⟨-, -, hother⟩ := prepare_exact (PARAMS .ml_kem768) toy 3
    keys.publicKey (counting 32) (counting 1088) (List.replicate 2400 1) c hc
  refine ⟨keys, c, hencapsulate, hdecapsulate hk.getPublicKey_eq hk.checkHash,
    hother (List.length_replicate ..) (length_counting 1088) ?_⟩
  rintro ⟨-, hhash⟩
  have hfails : (checkHash (PARAMS .ml_kem768) toy
      (List.replicate 2400 1)).isOk = false := by decide +kernel
  rw [hhash] at hfails
  cases hfails

end

end KxcoPostQuantum.Vendor.MlKem
