/-
ML-KEM, from a seed to a shared secret.

A public key passes the modulus check where its vector is the encoding of
one that is reduced (`validateModulus_cases`). A generated key pair is laid
out as decapsulation looks it up (`Generated`), and passes all checks.
Encapsulation for it always returns, and decapsulation does so for whatever
has the length of a ciphertext: it tells apart the one ciphertext that there
is for the message it finds, and answers all others with a secret of their
own (`Generated.opened`). Where the noise leaves the message, both sides
hold the same secret (`Generated.shared`).
-/
import KxcoPostQuantum.Vendor.Proofs.KemPke

namespace KxcoPostQuantum.Vendor.MlKem

open Lib Lib.Negacyclic

-- ============================================================== lengths

section

variable (P : Params)

/-- A secret vector has 384 bytes for each polynomial, which has twelve bits
a coefficient. -/
theorem secretVector_bytesLen : (KPKE.secretCoder P).bytesLen = P.K * 384 := rfl

/-- A public key has 32 more, for the seed of the matrix. -/
theorem publicCoder_bytesLen :
    (KPKE.publicCoder P).bytesLen = P.K * 384 + 32 := rfl

/-- A secret key has both, the hash of the public key and the second half of
the seed. -/
theorem secretCoder_bytesLen :
    (secretCoder P).bytesLen = 2 * (P.K * 384 + 32) + 32 := by
  show P.K * 384 + (P.K * 384 + 32 + (32 + (32 + 0))) = _
  omega

end

/-- The first bytes of an array. -/
theorem subarray_zero (b : Bytes) (n : ℕ) : subarray b 0 n = b.take n := rfl

/-- A part of some bytes that are put together. -/
theorem subarray_append {x y z : Bytes} {m n : ℕ} (hm : x.length = m)
    (hn : m + y.length = n) : subarray (x ++ (y ++ z)) m n = y := by
  subst hm hn
  unfold subarray
  rw [← List.append_assoc, ← List.length_append, List.take_left,
    List.drop_left]

/-- The two parts of what is hashed of a message. -/
def krOf (h : Hashes) (publicKey msg : Bytes) : Bytes :=
  (h.sha3_512 (msg ++ (h.sha3_256 publicKey).toList)).toList

-- ========================================================== the modulus

section

variable {P : Params} {publicKey b : Bytes}

/-- Bytes of the length of a vector are read as a reduced one. -/
theorem secretVector_reads (hb : b.length = P.K * 384) :
    ∃ t, (KPKE.secretCoder P).decode b = .ok t ∧ t.length = P.K
      ∧ ∀ p ∈ t, AllOk (Reduced Q) p := by
  obtain ⟨t, ht⟩ := vecCoder_returns (c := polyCoder 12) (n := P.K) hb
    fun b hb => by
      obtain ⟨p, hp, -⟩ := byteCoder_reads hb
      exact ⟨p, hp⟩
  obtain ⟨-, hlength, hall⟩ := vecCoder_reads ht
  refine ⟨t, ht, hlength, ?_⟩
  intro p hp
  obtain ⟨b', hb', hdecode⟩ := hall p hp
  obtain ⟨p', hp', hred⟩ := byteCoder_reads hb'
  cases Except.ok.inj (hp'.symm.trans hdecode)
  exact hred

/-- The vector of the key is the encoding of a reduced one. -/
def ReducedKey (P : Params) (publicKey : Bytes) : Prop :=
  ∃ t, t.length = P.K ∧ (∀ p ∈ t, AllOk (Reduced Q) p)
    ∧ (KPKE.secretCoder P).encode t = .ok (publicKey.take (384 * P.K))

/-- **The check of the modulus** reads the vector of the key and writes it
again: it passes where that gives the same bytes. -/
theorem validateModulus_cases (fn : JsString)
    (hlength : publicKey.length = (KPKE.publicCoder P).bytesLen) :
    (ReducedKey P publicKey → validateModulus P publicKey fn = .ok ())
      ∧ (¬ ReducedKey P publicKey → validateModulus P publicKey fn
        = raise (error (js "ML-KEM." ++ fn ++ js ": wrong publicKey modulus"))) := by
  rw [publicCoder_bytesLen] at hlength
  have htake : (publicKey.take (384 * P.K)).length = P.K * 384 := by
    rw [List.length_take]
    omega
  obtain ⟨t, ht, hcount, hred⟩ := secretVector_reads htake
  obtain ⟨ek, hek⟩ := secretCoder_writes hcount hred
  have hcheck : validateModulus P publicKey fn
      = if equalBytes ek (publicKey.take (384 * P.K)) then .ok ()
        else raise (error (js "ML-KEM." ++ fn ++ js ": wrong publicKey modulus")) := by
    show ((KPKE.secretCoder P).decode (publicKey.take (384 * P.K)) >>= _) = _
    rw [ht]
    show ((KPKE.secretCoder P).encode t >>= _) = _
    rw [hek.encode]
    rfl
  rw [hcheck]
  constructor
  · rintro ⟨t', hcount', hred', hencode⟩
    obtain ⟨b', hb'⟩ := secretCoder_writes hcount' hred'
    obtain rfl := Except.ok.inj (hb'.encode.symm.trans hencode)
    cases Except.ok.inj (hb'.decode.symm.trans ht)
    cases Except.ok.inj (hek.encode.symm.trans hencode)
    rw [if_pos (equalBytes_iff.mpr rfl)]
  · intro hkey
    rw [if_neg]
    intro hequal
    exact hkey ⟨t, hcount, hred, equalBytes_iff.mp hequal ▸ hek.encode⟩

end

-- ====================================================== generated keys

/-- A key pair that has been generated, and where its parts are. -/
structure Generated (P : Params) (h : Hashes) (fuel : ℕ) (seed : Bytes)
    (keys : KeyPair) (A : ℕ → ℕ → Poly) (sk : Bytes) : Prop where
  pke : Keys P h fuel (seed.take 32) ⟨keys.publicKey, sk⟩ A
  layout : keys.secretKey = sk ++ (keys.publicKey
    ++ ((h.sha3_256 keys.publicKey).toList ++ (seed.drop 32 ++ [])))
  writes : (secretCoder P).Writes (sk, keys.publicKey,
    (h.sha3_256 keys.publicKey).toList, seed.drop 32, ()) keys.secretKey

section

variable {P : Params} {h : Hashes} {f₀ f₁ : ℕ} {seed msg ct : Bytes}
  {keys : KeyPair} {A : ℕ → ℕ → Poly} {sk : Bytes}

/-- What a pair that is generated is made of: the keys of the encryption
scheme from the first half of the seed, and the second half at the end of
the secret key. -/
theorem keygen_generated (hP : P.Fits) (hkeys : keygen P h f₀ seed = .ok keys) :
    ∃ A sk, Generated P h f₀ seed keys A sk := by
  obtain ⟨⟨⟩, hseed, hkeys⟩ := run_bind_ok.mp hkeys
  have hseed := abytes_ok.mp hseed
  obtain ⟨⟨pk, sk⟩, hpke, hkeys⟩ := run_bind_ok.mp hkeys
  obtain ⟨secretKey, hencode, hkeys⟩ := run_map_ok.mp hkeys
  subst hkeys
  rw [subarray_zero] at hpke
  obtain ⟨-, A, hk⟩ := (keygen_keys hP).mp hpke
  have hhash : (h.sha3_256 pk).toList.length = 32 := Vector.length_toList
  have hz : (seed.drop 32).length = 32 := by
    rw [List.length_drop, hseed]
  have hwrites : (secretCoder P).Writes
      (sk, pk, (h.sha3_256 pk).toList, seed.drop 32, ())
      (sk ++ (pk ++ ((h.sha3_256 pk).toList ++ (seed.drop 32 ++ [])))) :=
    splitCoder_writes (.raw_of hk.secretKey.length
      (.raw_of hk.publicKey.length (.raw_of hhash (.raw_of hz .nil))))
  have hsame := Except.ok.inj (hwrites.encode.symm.trans hencode)
  exact ⟨A, sk, hk, hsame.symm, hsame ▸ hwrites⟩

/-- Generation returns, once the matrix has been sampled. -/
theorem kemKeygen_returns (hP : P.Fits) (hseed : seed.length = 64)
    (hA : Sampled h f₀ (rhoOf P h (seed.take 32)) P.K A) :
    ∃ keys, keygen P h f₀ seed = .ok keys := by
  obtain ⟨⟨pk, sk⟩, hkeys⟩ := keygen_returns hP
    (by rw [List.length_take, hseed]; rfl) hA
  obtain ⟨-, A', hk⟩ := (keygen_keys hP).mp hkeys
  have hhash : (h.sha3_256 pk).toList.length = 32 := Vector.length_toList
  have hz : (seed.drop 32).length = 32 := by
    rw [List.length_drop, hseed]
  have hwrites : (secretCoder P).Writes
      (sk, pk, (h.sha3_256 pk).toList, seed.drop 32, ())
      (sk ++ (pk ++ ((h.sha3_256 pk).toList ++ (seed.drop 32 ++ [])))) :=
    splitCoder_writes (.raw_of hk.secretKey.length
      (.raw_of hk.publicKey.length (.raw_of hhash (.raw_of hz .nil))))
  refine returns_bind (abytes_ok.mpr hseed) ?_
  refine returns_bind hkeys ?_
  exact ⟨_, run_map_ok.mpr ⟨_, hwrites.encode, rfl⟩⟩

namespace Generated

variable (hk : Generated P h f₀ seed keys A sk)

include hk

/-- The vector of the secret key has the length of its coder. -/
theorem length_sk : sk.length = P.K * 384 := hk.pke.secretKey.length

/-- So has the public key. -/
theorem length_publicKey : keys.publicKey.length = P.K * 384 + 32 :=
  hk.pke.publicKey.length

/-- A secret key begins with the one that decrypts. -/
theorem take_secretKey :
    keys.secretKey.take (KPKE.secretCoder P).bytesLen = sk := by
  rw [hk.layout, secretVector_bytesLen, ← hk.length_sk, List.take_left]

/-- **The hash that is checked** is that of the public key, and both stand
in the secret key at the places the check cuts out. -/
theorem checkHash : MlKem.checkHash P h keys.secretKey = .ok () := by
  have hsk := hk.length_sk
  have hpk := hk.length_publicKey
  have hhash : (h.sha3_256 keys.publicKey).toList.length = 32 :=
    Vector.length_toList
  have hpublic : subarray keys.secretKey (P.K * 384)
      (2 * (P.K * 384) + 32 + 32 - 32) = keys.publicKey := by
    rw [hk.layout]
    exact subarray_append hsk (by omega)
  have hstored : subarray keys.secretKey (2 * (P.K * 384) + 32)
      (2 * (P.K * 384) + 32 + 32) = (h.sha3_256 keys.publicKey).toList := by
    rw [hk.layout, ← List.append_assoc]
    exact subarray_append (by rw [List.length_append]; omega) (by omega)
  have hk768 : (secretCoder P).bytesLen - 96 = 2 * (P.K * 384) := by
    rw [secretCoder_bytesLen]
    omega
  have hhalf : 2 * (P.K * 384) / 2 = P.K * 384 := by omega
  unfold MlKem.checkHash
  simp only [hk768, hhalf, hstored]
  rw [show 2 * (P.K * 384) + 32 = 2 * (P.K * 384) + 32 + 32 - 32 by omega,
    hpublic, if_pos (equalBytes_iff.mpr rfl)]

/-- The public key is read out of the secret one. -/
theorem getPublicKey_eq :
    MlKem.getPublicKey P keys.secretKey = .ok keys.publicKey :=
  run_bind_ok.mpr ⟨_, hk.writes.decode, rfl⟩

/-- The vector of a generated key is reduced, since it is one that was
written, and sums and products are. -/
theorem reducedKey (hP : P.Fits) : ReducedKey P keys.publicKey := by
  have hred := reduced_tHat hP (sigmaOf P h (seed.take 32)) hk.pke.sampled
  have hcount : (tHatOf P h (sigmaOf P h (seed.take 32)) A).length = P.K := by
    unfold tHatOf
    rw [List.length_map, List.length_range]
  obtain ⟨b, hb⟩ := secretCoder_writes hcount hred
  have hwrites : (KPKE.publicCoder P).Writes
      (tHatOf P h (sigmaOf P h (seed.take 32)) A, rhoOf P h (seed.take 32), ())
      (b ++ (rhoOf P h (seed.take 32) ++ [])) :=
    splitCoder_writes (.coder hb (.raw_of (length_rhoOf h (seed.take 32)) .nil))
  have hsame := Except.ok.inj (hwrites.encode.symm.trans hk.pke.publicKey.encode)
  refine ⟨_, hcount, hred, ?_⟩
  have hlength : b.length = 384 * P.K := by
    rw [Nat.mul_comm]
    exact hb.length
  have htake : keys.publicKey.take (384 * P.K) = b := by
    rw [← hlength]
    exact hsame ▸ List.take_left
  rw [htake]
  exact hb.encode

end Generated

end

-- ========================================================= encapsulation

/-- The noise leaves the message as it is, however the two parts of its
ciphertext are rounded. -/
def Readable (P : Params) (h : Hashes) (seed publicKey msg : Bytes) : Prop :=
  ∀ (cu : ℕ → ℕ → ℤ) (cv : ℕ → ℤ),
    (∀ j < P.K, ∀ i < N, |cu j i| ≤ roundingBound P.du) →
    (∀ i < N, |cv i| ≤ roundingBound P.dv) →
    ∀ i < N, Recovered (bit msg i) (noise P h (sigmaOf P h (seed.take 32))
      (subarray (krOf h publicKey msg) 32 64) cu cv i)

section

variable {P : Params} {h : Hashes} {f₀ f₁ : ℕ} {seed publicKey msg ct ct' : Bytes}
  {keys : KeyPair} {A : ℕ → ℕ → Poly} {sk : Bytes}

/-- What encapsulation makes of a ciphertext, for a key it accepts. -/
theorem encapsulate_of
    (hlength : publicKey.length = (KPKE.publicCoder P).bytesLen)
    (hkey : ReducedKey P publicKey) (hmsg : msg.length = 32)
    (hct : KPKE.encrypt P h f₁ publicKey msg
      (subarray (krOf h publicKey msg) 32 64) = .ok ct) :
    encapsulate P h f₁ publicKey msg
      = .ok ⟨ct, subarray (krOf h publicKey msg) 0 32⟩ := by
  refine run_bind_ok.mpr ⟨(), abytes_ok.mpr hlength, ?_⟩
  refine run_bind_ok.mpr ⟨(), abytes_ok.mpr hmsg, ?_⟩
  refine run_bind_ok.mpr ⟨(), (validateModulus_cases _ hlength).1 hkey, ?_⟩
  exact run_map_ok.mpr ⟨ct, hct, rfl⟩

/-- What decapsulation makes of the message it finds, and of the ciphertext
there is for it. -/
theorem Generated.decapsulate_of (hk : Generated P h f₀ seed keys A sk)
    (hlength : ct.length = (KPKE.cipherCoder P).bytesLen)
    (hmsg : KPKE.decrypt P ct sk = .ok msg)
    (hct : KPKE.encrypt P h f₁ keys.publicKey msg
      (subarray (krOf h keys.publicKey msg) 32 64) = .ok ct') :
    decapsulate P h f₁ ct keys.secretKey
      = .ok (if ct = ct' then subarray (krOf h keys.publicKey msg) 0 32
        else rejection h (seed.drop 32) ct) := by
  refine run_bind_ok.mpr ⟨(), abytes_ok.mpr hk.writes.length, ?_⟩
  refine run_bind_ok.mpr ⟨(), abytes_ok.mpr hlength, ?_⟩
  refine run_bind_ok.mpr ⟨(), hk.checkHash, ?_⟩
  refine run_bind_ok.mpr ⟨_, hk.writes.decode, ?_⟩
  refine run_bind_ok.mpr ⟨msg, hmsg, ?_⟩
  refine run_map_ok.mpr ⟨ct', hct, ?_⟩
  by_cases hsame : ct = ct'
  · rw [if_pos (equalBytes_iff.mpr hsame), if_pos hsame]
    rfl
  · rw [if_neg (mt equalBytes_iff.mp hsame), if_neg hsame]

/-- Bytes of the length of a vector below twelve bits are read as a reduced
one. -/
theorem polyVector_reads {d : ℕ} (hd : 1 ≤ d ∧ d ≤ 11) {K : ℕ} {b : Bytes}
    (hb : b.length = K * (polyCoder d).bytesLen) :
    ∃ u, (vecCoder (polyCoder d) K).decode b = .ok u ∧ u.length = K
      ∧ ∀ p ∈ u, AllOk (Reduced Q) p := by
  obtain ⟨u, hu⟩ := vecCoder_returns hb fun b hb => by
    obtain ⟨p, hp, -⟩ := polyCoder_reads hd hb
    exact ⟨p, hp⟩
  obtain ⟨-, hlength, hall⟩ := vecCoder_reads hu
  refine ⟨u, hu, hlength, ?_⟩
  intro p hp
  obtain ⟨b', hb', hdecode⟩ := hall p hp
  obtain ⟨p', hp', hred⟩ := polyCoder_reads hd hb'
  cases Except.ok.inj (hp'.symm.trans hdecode)
  exact hred

/-- **All bytes of the length of a ciphertext** are one that has been
written, of a reduced vector and a reduced polynomial. -/
theorem cipherCoder_reads (hP : P.Fits)
    (hct : ct.length = (KPKE.cipherCoder P).bytesLen) :
    ∃ u v, u.length = P.K ∧ (∀ p ∈ u, AllOk (Reduced Q) p)
      ∧ AllOk (Reduced Q) v ∧ (KPKE.cipherCoder P).Writes (u, v, ()) ct := by
  have hsum : ct.length = P.K * (polyCoder P.du).bytesLen
      + ((polyCoder P.dv).bytesLen + 0) := hct
  obtain ⟨u, hu, hcount, hured⟩ := polyVector_reads hP.du (K := P.K)
    (b := ct.take (P.K * (polyCoder P.du).bytesLen))
    (by rw [List.length_take]; omega)
  obtain ⟨v, hv, hvred⟩ := polyCoder_reads hP.dv
    (b := (ct.drop (P.K * (polyCoder P.du).bytesLen)).take
      (polyCoder P.dv).bytesLen)
    (by rw [List.length_take, List.length_drop]; omega)
  have hdecode : (KPKE.cipherCoder P).decode ct = .ok (u, v, ()) := by
    refine run_bind_ok.mpr ⟨(), abytes_ok.mpr hct, ?_⟩
    refine run_bind_ok.mpr ⟨u, hu, ?_⟩
    exact run_map_ok.mpr ⟨(v, ()),
      run_bind_ok.mpr ⟨v, hv, run_map_ok.mpr ⟨(), rfl, rfl⟩⟩, rfl⟩
  exact ⟨u, v, hcount, hured, hvred,
    cipherCoder_canonical hP _ ct hct hdecode, hct, hdecode⟩

/-- Decryption finds a message in whatever has the length of a
ciphertext. -/
theorem decrypt_returns (hP : P.Fits) (hk : Keys P h f₀ seed keys A)
    (hct : ct.length = (KPKE.cipherCoder P).bytesLen) :
    ∃ msg, KPKE.decrypt P ct keys.secretKey = .ok msg ∧ msg.length = 32 := by
  obtain ⟨u, v, hcount, hured, hvred, hwrites⟩ := cipherCoder_reads hP hct
  have hs : ∀ i < P.K, IsHat (ringOfInts (drawn h P.ETA1 (sigmaOf P h seed) i))
      (nth (noiseHat h P.ETA1 (sigmaOf P h seed) P.K) i) := by
    intro i hi
    rw [nth_noiseHat hi]
    exact hat_noisePoly hP.eta1 _ i
  obtain ⟨-, msg, -, -, hmsg, hlength, -⟩ := decrypt_ok hk.secretKey hwrites
    hcount hs (fun i hi => ⟨hured _ (nth_mem (by omega)), rfl⟩) hvred
  exact ⟨msg, hmsg, hlength⟩

namespace Generated

variable (hk : Generated P h f₀ seed keys A sk) (hP : P.Fits) (hle : f₀ ≤ f₁)

include hk hP hle

/-- **Encapsulation returns**, for a generated key. -/
theorem encapsulated (hmsg : msg.length = 32) :
    ∃ ct, KPKE.encrypt P h f₁ keys.publicKey msg
        (subarray (krOf h keys.publicKey msg) 32 64) = .ok ct
      ∧ encapsulate P h f₁ keys.publicKey msg
        = .ok ⟨ct, subarray (krOf h keys.publicKey msg) 0 32⟩ := by
  obtain ⟨m, ct, -, hm, hct, -⟩ := decrypt_sealed hP
    (subarray (krOf h keys.publicKey msg) 32 64) hk.pke hmsg
  have hencrypt := (encrypt_ok hP hk.pke hle).mpr ⟨m, hm, hct⟩
  exact ⟨ct, hencrypt, encapsulate_of hk.length_publicKey (hk.reducedKey hP)
    hmsg hencrypt⟩

/-- **A generated key can be prepared.** -/
theorem prepared : ∃ c, prepare P h f₁ keys.publicKey = .ok c := by
  have hentry := hk.pke.sampled.mono hle
  have hrows := mapM_range_map (n := P.K)
    (f := fun i => (List.range P.K).mapM fun j =>
      SampleNTT f₁ (XOF128 h (rhoOf P h (seed.take 32)) i j))
    (g := fun i => (List.range P.K).map fun j => A j i)
    fun i hi => mapM_range_map fun j hj => hentry j hj i hi
  have hmodulus := (validateModulus_cases (js "prepare")
    hk.length_publicKey).1 (hk.reducedKey hP)
  refine returns_bind (abytes_ok.mpr hk.length_publicKey) ?_
  refine returns_bind hmodulus ?_
  have hcached : ∃ c, KPKE.prepare P h f₁ keys.publicKey = .ok c :=
    returns_bind hk.pke.publicKey.decode
      ⟨_, run_map_ok.mpr ⟨_, hrows, rfl⟩⟩
  obtain ⟨c, hc⟩ := hcached
  exact ⟨_, run_map_ok.mpr ⟨c, hc, rfl⟩⟩

/-- **Decapsulation tells apart** the ciphertext that there is for the
message it finds, and answers all others alike. -/
theorem opened (hct : ct.length = (KPKE.cipherCoder P).bytesLen) :
    ∃ msg e, KPKE.decrypt P ct sk = .ok msg
      ∧ encapsulate P h f₁ keys.publicKey msg = .ok e
      ∧ decapsulate P h f₁ ct keys.secretKey = .ok (if ct = e.cipherText
        then e.sharedSecret else rejection h (seed.drop 32) ct) := by
  obtain ⟨msg, hmsg, hlength⟩ := decrypt_returns hP hk.pke hct
  obtain ⟨ct', hct', hencapsulate⟩ := hk.encapsulated hP hle hlength
  exact ⟨msg, _, hmsg, hencapsulate, hk.decapsulate_of hct hmsg hct'⟩

/-- **A secret is shared** where the noise leaves the message. Decapsulation
finds the message, makes the same ciphertext of it, and so keeps the secret
that was derived from it. -/
theorem shared (hmsg : msg.length = 32)
    (hnoise : Readable P h seed keys.publicKey msg) :
    ∃ e, encapsulate P h f₁ keys.publicKey msg = .ok e
      ∧ decapsulate P h f₁ e.cipherText keys.secretKey = .ok e.sharedSecret := by
  obtain ⟨m, ct, msg', hm, hct, hlength, hmsg', hcount, hbits⟩ :=
    decrypt_sealed hP (subarray (krOf h keys.publicKey msg) 32 64)
      hk.pke hmsg
  obtain ⟨ct', hct', hencapsulate⟩ := hk.encapsulated hP hle hmsg
  have hencrypt := (encrypt_ok hP hk.pke hle).mpr ⟨m, hm, hct⟩
  cases Except.ok.inj (hct'.symm.trans hencrypt)
  obtain ⟨hcu, hcv⟩ := rounding_bounds hP
    (subarray (krOf h keys.publicKey msg) 32 64) hk.pke
    (ringOf_message hmsg hm).1
  have hsame : msg' = msg := by
    apply ext_bit hcount hmsg
    intro i hi
    exact (hbits i hi).mpr (hnoise _ _ hcu hcv i hi)
  subst hsame
  refine ⟨_, hencapsulate, ?_⟩
  rw [hk.decapsulate_of hlength hmsg' hencrypt, if_pos rfl]

end Generated

end

-- ============================================================ instances

/-- There is a key pair of those hashes, from the seed 0, 1, 2 and so on. -/
theorem toy_keys : ∃ keys,
    keygen (PARAMS .ml_kem768) toy 3 (counting 64) = .ok keys := by
  obtain ⟨A, hA⟩ := toy_sampled
    (rhoOf (PARAMS .ml_kem768) toy ((counting 64).take 32)) 3
  exact kemKeygen_returns (PARAMS_fits .ml_kem768) (length_counting 64) hA

/-- The noise is one or minus one, then zero. -/
theorem toy_drawn (seed : Bytes) (nonce : ℕ) {i : ℕ} (hi : i < N) :
    |drawn toy 2 seed nonce i| = if i = 0 then 1 else 0 := by
  have hblocks : ∀ b ∈ [(1 : UInt8), 4], ∀ i < N, |centered (squeeze
      (fun k => if k = 0 then b else 0x55) 128) 2 i| = if i = 0 then 1 else 0 :=
    List.forall_iff_forall_mem.mp (by decide +kernel)
  apply hblocks (if weight (seed ++ [nonce.toUInt8]) % 2 = 0 then 1 else 4) _ i hi
  split
  · exact List.mem_cons_self
  · exact List.mem_cons_of_mem _ List.mem_cons_self

/-- A convolution with it is no larger than the other factor. -/
theorem toy_convolve (seed : Bytes) (nonce : ℕ) {v : ℕ → ℤ} {bound : ℤ}
    (hbound : 0 ≤ bound) (hv : ∀ i < N, |v i| ≤ bound) {i : ℕ} (hi : i < N) :
    |convolve N (drawn toy 2 seed nonce) v i| ≤ bound := by
  have hweight : ∑ j ∈ Finset.range N, |drawn toy 2 seed nonce j| = 1 := by
    rw [Finset.sum_congr rfl fun j hj =>
      toy_drawn seed nonce (Finset.mem_range.mp hj)]
    decide +kernel
  have hle := abs_convolve_le hweight.le hbound hv hi
  rwa [one_mul] at hle

/-- Every message can be read under it: the noise is at most 117, by the
bounds on what the two sums add up to, and a bit is read rightly up to
831. -/
theorem toy_readable (publicKey msg : Bytes) :
    Readable (PARAMS .ml_kem768) toy (counting 64) publicKey msg := by
  intro cu cv hcu hcv i hi
  apply recovered_of_abs (Nat.le_of_lt_succ (bit_lt msg i))
  generalize subarray (krOf toy publicKey msg) 32 64 = coins
  generalize sigmaOf (PARAMS .ml_kem768) toy ((counting 64).take 32) = sigma
  have hdrawn : ∀ (seed : Bytes) (nonce : ℕ), ∀ k < N,
      |drawn toy 2 seed nonce k| ≤ 1 := by
    intro seed nonce k hk
    rw [toy_drawn seed nonce hk]
    split <;> decide
  have herror : ∀ j ∈ Finset.range 3, |convolve N (drawn toy 2 sigma (3 + j))
      (drawn toy 2 coins j) i| ≤ 1 :=
    fun j _ => toy_convolve _ _ (by decide) (hdrawn coins j) hi
  have hsecret : ∀ j ∈ Finset.range 3, |convolve N (drawn toy 2 sigma j)
      (fun k => drawn toy 2 coins (3 + j) k + cu j k) i| ≤ 3 := by
    intro j hj
    apply toy_convolve _ _ (by decide) _ hi
    intro k hk
    calc |drawn toy 2 coins (3 + j) k + cu j k|
        ≤ |drawn toy 2 coins (3 + j) k| + |cu j k| := abs_add_le _ _
      _ ≤ 1 + 2 := add_le_add (hdrawn _ _ k hk)
          (hcu j (Finset.mem_range.mp hj) k hk)
  have herrors := (Finset.abs_sum_le_sum_abs _ _).trans
    (Finset.sum_le_card_nsmul _ _ 1 herror)
  have hsecrets := (Finset.abs_sum_le_sum_abs _ _).trans
    (Finset.sum_le_card_nsmul _ _ 3 hsecret)
  have hfirst := hdrawn coins 6 i hi
  have hlast : |cv i| ≤ 104 := hcv i hi
  rw [Finset.card_range, nsmul_eq_mul, abs_le] at herrors hsecrets
  rw [abs_le] at hfirst hlast
  show |drawn toy 2 coins 6 i + cv i
    + ∑ j ∈ Finset.range 3, convolve N (drawn toy 2 sigma (3 + j))
        (drawn toy 2 coins j) i
    - ∑ j ∈ Finset.range 3, convolve N (drawn toy 2 sigma j)
        (fun k => drawn toy 2 coins (3 + j) k + cu j k) i| ≤ 831
  rw [abs_le]
  omega

section

variable (set : ParamSet) (h : Hashes)

/-- **The modulus check** is whether the vector of the key is the encoding
of a reduced one. The program decodes the vector and encodes it again, and
decoding takes `Q` off a number that reaches it; so it is the numbers that
are not reduced that come out as others. -/
theorem validateModulus_exact {publicKey : Bytes} (fn : JsString)
    (hlength : publicKey.length = (KPKE.publicCoder (PARAMS set)).bytesLen) :
    (validateModulus (PARAMS set) publicKey fn = .ok ()
        ↔ ReducedKey (PARAMS set) publicKey)
      ∧ (¬ ReducedKey (PARAMS set) publicKey →
        validateModulus (PARAMS set) publicKey fn
          = raise (error (js "ML-KEM." ++ fn ++ js ": wrong publicKey modulus"))) := by
  obtain ⟨haccept, hreject⟩ := validateModulus_cases fn hlength
  refine ⟨⟨?_, haccept⟩, hreject⟩
  intro hok
  by_contra hkey
  rw [hreject hkey] at hok
  cases hok

/-- At a generated key, and at a key of words that are not reduced. -/
theorem validateModulus_exact_toy : (∃ keys : KeyPair,
      ReducedKey (PARAMS .ml_kem768) keys.publicKey
        ∧ validateModulus (PARAMS .ml_kem768) keys.publicKey (js "encapsulate")
          = .ok ())
    ∧ (validateModulus (PARAMS .ml_kem768) (List.replicate 1184 255)
        (js "encapsulate") = .ok ()
      ↔ ReducedKey (PARAMS .ml_kem768) (List.replicate 1184 255)) := by
  constructor
  · obtain ⟨keys, hkeys⟩ := toy_keys
    have hfits := PARAMS_fits .ml_kem768
    obtain ⟨A, sk, hk⟩ := keygen_generated hfits hkeys
    have hkey := hk.reducedKey hfits
    exact ⟨keys, hkey, (validateModulus_exact .ml_kem768 (js "encapsulate")
      hk.length_publicKey).1.mpr hkey⟩
  · exact (validateModulus_exact .ml_kem768 (js "encapsulate")
      (List.length_replicate ..)).1

/-- **A generated key passes every check**: its vector is reduced, its
secret key holds the public key and the hash of it, and it can be
prepared. -/
theorem keygen_accepted {f₀ f₁ : ℕ} {seed : Bytes} {keys : KeyPair}
    (hkeys : keygen (PARAMS set) h f₀ seed = .ok keys) (hle : f₀ ≤ f₁) :
    keys.secretKey.length = (secretCoder (PARAMS set)).bytesLen
      ∧ getPublicKey (PARAMS set) keys.secretKey = .ok keys.publicKey
      ∧ checkHash (PARAMS set) h keys.secretKey = .ok ()
      ∧ (∀ fn, validateModulus (PARAMS set) keys.publicKey fn = .ok ())
      ∧ ∃ c, prepare (PARAMS set) h f₁ keys.publicKey = .ok c := by
  have hfits := PARAMS_fits set
  obtain ⟨A, sk, hk⟩ := keygen_generated hfits hkeys
  refine ⟨hk.writes.length, hk.getPublicKey_eq, hk.checkHash, ?_,
    hk.prepared hfits hle⟩
  intro fn
  exact (validateModulus_cases fn hk.length_publicKey).1 (hk.reducedKey hfits)

/-- The pair of those hashes. -/
theorem keygen_accepted_toy : ∃ keys : KeyPair,
    getPublicKey (PARAMS .ml_kem768) keys.secretKey = .ok keys.publicKey
      ∧ checkHash (PARAMS .ml_kem768) toy keys.secretKey = .ok () := by
  obtain ⟨keys, hkeys⟩ := toy_keys
  obtain ⟨-, hpublic, hhash, -⟩ := keygen_accepted .ml_kem768 toy hkeys le_rfl
  exact ⟨keys, hpublic, hhash⟩

/-- **Implicit rejection**: whatever has the length of a ciphertext, a
generated key answers it, with the secret that is encapsulated in it where
it is the ciphertext of the message that decryption finds in it, else with
the hash of it and of the second half of the seed. -/
theorem decapsulate_total {f₀ f₁ : ℕ} {seed ct : Bytes} {keys : KeyPair}
    (hkeys : keygen (PARAMS set) h f₀ seed = .ok keys) (hle : f₀ ≤ f₁)
    (hct : ct.length = (KPKE.cipherCoder (PARAMS set)).bytesLen) :
    ∃ msg e, KPKE.decrypt (PARAMS set) ct (keys.secretKey.take
          (KPKE.secretCoder (PARAMS set)).bytesLen) = .ok msg
      ∧ encapsulate (PARAMS set) h f₁ keys.publicKey msg = .ok e
      ∧ decapsulate (PARAMS set) h f₁ ct keys.secretKey
        = .ok (if ct = e.cipherText then e.sharedSecret
          else rejection h (seed.drop 32) ct) := by
  have hfits := PARAMS_fits set
  obtain ⟨A, sk, hk⟩ := keygen_generated hfits hkeys
  obtain ⟨msg, e, hmsg, hopened⟩ := hk.opened hfits hle hct
  refine ⟨msg, e, ?_, hopened⟩
  rw [hk.take_secretKey]
  exact hmsg

/-- What is decapsulated is the bytes 0, 1, 2 and so on, which nobody has
encapsulated. -/
theorem decapsulate_total_toy : ∃ (keys : KeyPair) (msg : Bytes)
    (e : Encapsulated),
    KPKE.decrypt (PARAMS .ml_kem768) (counting 1088) (keys.secretKey.take
          (KPKE.secretCoder (PARAMS .ml_kem768)).bytesLen) = .ok msg
      ∧ encapsulate (PARAMS .ml_kem768) toy 3 keys.publicKey msg = .ok e
      ∧ decapsulate (PARAMS .ml_kem768) toy 3 (counting 1088) keys.secretKey
        = .ok (if counting 1088 = e.cipherText then e.sharedSecret
          else rejection toy ((counting 64).drop 32) (counting 1088)) := by
  obtain ⟨keys, hkeys⟩ := toy_keys
  obtain ⟨msg, e, hopened⟩ := decapsulate_total .ml_kem768 toy hkeys le_rfl
    (length_counting 1088)
  exact ⟨keys, msg, e, hopened⟩

/-- **Both sides share the secret**: a message is always encapsulated for a
generated key, and where the noise leaves it, decapsulation returns the
secret. -/
theorem decapsulate_encapsulate {f₀ f₁ : ℕ} {seed msg : Bytes} {keys : KeyPair}
    (hkeys : keygen (PARAMS set) h f₀ seed = .ok keys) (hle : f₀ ≤ f₁)
    (hmsg : msg.length = 32) :
    ∃ e, encapsulate (PARAMS set) h f₁ keys.publicKey msg = .ok e
      ∧ (Readable (PARAMS set) h seed keys.publicKey msg →
        decapsulate (PARAMS set) h f₁ e.cipherText keys.secretKey
          = .ok e.sharedSecret) := by
  have hfits := PARAMS_fits set
  obtain ⟨A, sk, hk⟩ := keygen_generated hfits hkeys
  obtain ⟨ct, -, hencapsulate⟩ := hk.encapsulated hfits hle hmsg
  refine ⟨_, hencapsulate, ?_⟩
  intro hnoise
  obtain ⟨e, he, hdecapsulate⟩ := hk.shared hfits hle hmsg hnoise
  cases Except.ok.inj (he.symm.trans hencapsulate)
  exact hdecapsulate

/-- The message 0, 1, 2 and so on. -/
theorem decapsulate_encapsulate_toy : ∃ (keys : KeyPair) (e : Encapsulated),
    encapsulate (PARAMS .ml_kem768) toy 3 keys.publicKey (counting 32) = .ok e
      ∧ decapsulate (PARAMS .ml_kem768) toy 3 e.cipherText keys.secretKey
        = .ok e.sharedSecret := by
  obtain ⟨keys, hkeys⟩ := toy_keys
  obtain ⟨e, he, hdecapsulate⟩ := decapsulate_encapsulate .ml_kem768 toy hkeys
    le_rfl (length_counting 32)
  exact ⟨keys, e, he, hdecapsulate (toy_readable _ _)⟩

/-- **Ciphertexts have one encoding**, and bring `u` and `v` back rounded:
whatever has the length of a ciphertext is read, and written as it was, and
of a vector and a polynomial that are written no coefficient comes back
further off than half of what a level stands for. The coders of fewer than
twelve bits pass the check of the carry shape. -/
theorem ciphertexts_exact :
    (∀ d < 12, bitsCoder d (compress d) = .ok (polyCoder d))
      ∧ (∀ ct : Bytes, ct.length = (KPKE.cipherCoder (PARAMS set)).bytesLen →
      ∃ w, (KPKE.cipherCoder (PARAMS set)).decode ct = .ok w
        ∧ (KPKE.cipherCoder (PARAMS set)).encode w = .ok ct)
      ∧ ∀ u v, u.length = (PARAMS set).K → (∀ p ∈ u, AllOk (Reduced Q) p) →
        AllOk (Reduced Q) v →
        ∃ ct u' v', (KPKE.cipherCoder (PARAMS set)).encode (u, v, ()) = .ok ct
          ∧ (KPKE.cipherCoder (PARAMS set)).decode ct = .ok (u', v', ())
          ∧ (∀ j < (PARAMS set).K, ∀ i < N, ∃ e : ℤ,
            |e| ≤ roundingBound (PARAMS set).du
              ∧ Q ∣ get (nth u' j) i - (get (nth u j) i + e))
          ∧ ∀ i < N, ∃ e : ℤ, |e| ≤ roundingBound (PARAMS set).dv
            ∧ Q ∣ get v' i - (get v i + e) := by
  have hfits := PARAMS_fits set
  refine ⟨?_, ?_, ?_⟩
  · intro d hd
    rw [bitsCoder_ok (by omega), polyCoder_eq (by omega)]
  · intro ct hct
    obtain ⟨u, v, -, -, -, hwrites⟩ := cipherCoder_reads hfits hct
    exact ⟨_, hwrites.decode, hwrites.encode⟩
  · intro u v hu hured hv
    obtain ⟨ct, hct, hwrites⟩ := cipherCoder_writes hfits hu hured hv
    refine ⟨ct, _, _, hct, hwrites.decode, ?_, ?_⟩
    · intro j hj i hi
      rw [nth_map (by omega)]
      exact ⟨_, abs_rounding_le hfits.du (hured _ (nth_mem (by omega))) hi,
        dvd_rounding i⟩
    · intro i hi
      exact ⟨_, abs_rounding_le hfits.dv hv hi, dvd_rounding i⟩

end

end KxcoPostQuantum.Vendor.MlKem
