/-
The coders of ML-KEM polynomials.

Below twelve bits a coefficient is compressed to the nearest of `2 ^ d`
levels (`compress_word`), although the quotient is computed in binary64 and
cut off by the mask. Levels come back from what they decompress to
(`compress_decompress`), so ciphertexts have one encoding
(`polyCoder_canonical`); coefficients come back rounded, not far off
(`decompress_compress`), so a polynomial is written like a rounded one
(`rounded_writes`). With twelve bits nothing is rounded, and a word that is
not below the modulus is reduced (`byteCoder_reads`).

A message is the bits of its bytes, each of them none or half of the
modulus (`message_decode`, `message_encode`).
-/
import KxcoPostQuantum.Vendor.Proofs.KemSampling
import KxcoPostQuantum.Vendor.Proofs.BitsCoder

namespace KxcoPostQuantum.Vendor.MlKem

open Lib Lib.Negacyclic

-- ========================================================== compression

/-- The level nearest to a coefficient. -/
def Compress (d x : ℕ) : ℕ := (2 * x * 2 ^ d + q) / (2 * q) % 2 ^ d

/-- The coefficient nearest to a level. -/
def Decompress (d y : ℕ) : ℕ := (y * q + 2 ^ (d - 1)) / 2 ^ d

/-- What is compressed to `d` bits has `d` bits. -/
theorem compress_lt (d x : ℕ) : Compress d x < 2 ^ d := by
  unfold Compress
  exact Nat.mod_lt _ (Nat.two_pow_pos d)

/-- How far off a coefficient comes back. -/
def roundingBound (d : ℕ) : ℕ := (q + 2 ^ d) / 2 ^ (d + 1)

section

variable {d : ℕ} (hd : 1 ≤ d ∧ d ≤ 11)

include hd

/-- What is decompressed is below the modulus. -/
theorem decompress_lt {y : ℕ} (hy : y < 2 ^ d) : Decompress d y < q := by
  obtain ⟨hlow, hhigh⟩ := hd
  unfold Decompress q
  interval_cases d <;> omega

/-- **What is decompressed compresses** to the word it came from, since the
levels are further apart than rounding moves a number. -/
theorem compress_decompress {y : ℕ} (hy : y < 2 ^ d) :
    Compress d (Decompress d y) = y := by
  have hhalf : 2 ^ (d - 1) ≤ 2 ^ 10 := Nat.pow_le_pow_right two_pos (by omega)
  have hpow : 2 ^ d = 2 * 2 ^ (d - 1) := by
    rw [← pow_succ', Nat.sub_add_cancel hd.1]
  have hsplit := Nat.div_add_mod (y * q + 2 ^ (d - 1)) (2 ^ d)
  have hmod := Nat.mod_lt (y * q + 2 ^ (d - 1)) (Nat.two_pow_pos d)
  have hlevel : (2 * (2 ^ d * Decompress d y) + q) / (2 * q) = y := by
    unfold Decompress
    unfold q at *
    omega
  unfold Compress
  rw [Nat.mul_assoc, Nat.mul_comm _ (2 ^ d), hlevel, Nat.mod_eq_of_lt hy]

/-- **A coefficient comes back rounded**, by the nearest of its classes: it
is off by the bound at most, modulo `Q`, as the classes go round. -/
theorem decompress_compress {x : ℕ} (hx : x < q) : ∃ e : ℤ,
    |e| ≤ roundingBound d ∧ Q ∣ (Decompress d (Compress d x) : ℕ) - (x + e) := by
  have hnear : |((Decompress d (Compress d x) : ℕ) : ℤ) - x| ≤ roundingBound d
      ∨ |((Decompress d (Compress d x) : ℕ) : ℤ) - x + Q| ≤ roundingBound d := by
    unfold Compress
    generalize hlevel : (2 * x * 2 ^ d + q) / (2 * q) = y
    -- the level above the highest is the lowest
    have hle : y ≤ 2 ^ d := by
      rw [← hlevel]
      apply Nat.le_of_lt_succ
      rw [Nat.div_lt_iff_lt_mul (by norm_num)]
      have hmul : (x + 1) * 2 ^ d ≤ 3329 * 2 ^ d :=
        Nat.mul_le_mul_right (2 ^ d) (Nat.succ_le_of_lt hx)
      rw [Nat.succ_mul] at hmul
      have hlt : 2 * (x * 2 ^ d) + q < (2 ^ d + 1) * (2 * q) := by
        unfold q
        omega
      rw [Nat.mul_assoc 2 x]
      exact hlt
    obtain ⟨hlow, hhigh⟩ := hd
    rw [abs_le, abs_le]
    rcases hle.lt_or_eq with hlt | rfl
    · left
      rw [Nat.mod_eq_of_lt hlt]
      unfold Decompress roundingBound
      unfold q at *
      interval_cases d <;> omega
    · right
      rw [Nat.mod_self]
      unfold Decompress roundingBound Q
      unfold q at *
      interval_cases d <;> omega
  rcases hnear with h | h
  · exact ⟨_, h, 0, by ring⟩
  · exact ⟨_, h, -1, by ring⟩

/-- The coder of fewer than twelve bits. -/
theorem compress_eq : compress d
    = { encode := fun i => .ok (.round ((shl i d + Q / 2 : ℚ) / Q))
        decode := fun i => .ok (ushr (times i Q + 2 ^ (d - 1)) d) } := by
  unfold compress
  rw [if_neg (by omega)]

/-- The quotient, rounded and cut off, is the level. The program adds a half
of `Q` and divides in floating point, where the standard rounds a
fraction. -/
theorem compress_word {x : ℕ} (hx : x < q) : ∃ word,
    (compress d).encode x = .ok word ∧ word.truncate % 2 ^ d = Compress d x := by
  have hpow : 2 ^ d ≤ 2 ^ 11 := Nat.pow_le_pow_right two_pos hd.2
  have hsmall : x * 2 ^ d ≤ 3328 * 2 ^ 11 :=
    Nat.mul_le_mul (Nat.le_of_lt_succ hx) hpow
  have hquotient : ((shl x d : ℤ) + Q / 2 : ℚ) / Q
      = ((2 * x * 2 ^ d + q : ℕ) : ℚ) / ((2 * q : ℕ) : ℚ) := by
    rw [shl_natCast (by omega) (by omega)]
    unfold Q q
    push_cast
    ring
  have htruncate := truncate_round (a := 2 * x * 2 ^ d + q) (b := 2 * q)
    (by norm_num) (by norm_num) (by rw [Nat.mul_assoc]; unfold q; omega)
  rw [compress_eq hd]
  refine ⟨_, rfl, ?_⟩
  rw [hquotient, htruncate]
  unfold Compress
  push_cast
  rfl

/-- The program decompresses a word as the standard does, by a product, a
half added, and a shift. -/
theorem decompress_word {y : ℕ} (hy : y < 2 ^ d) :
    (compress d).decode y = .ok (Decompress d y : ℕ) := by
  have hpow : 2 ^ d ≤ 2 ^ 11 := Nat.pow_le_pow_right two_pos hd.2
  have hhalf : 2 ^ (d - 1) ≤ 2 ^ 10 := Nat.pow_le_pow_right two_pos (by omega)
  have hsmall : y * q ≤ 2 ^ 11 * q := Nat.mul_le_mul_right q (by omega)
  unfold q at hsmall
  have hexact : times y Q = (y * q : ℕ) := by
    rw [times_of_lt]
    · push_cast
      rfl
    · rw [show (y : ℤ) * Q = ((y * 3329 : ℕ) : ℤ) by push_cast; rfl,
        abs_of_nonneg (Int.natCast_nonneg _)]
      have hlt : y * 3329 < 2 ^ 53 := by omega
      exact_mod_cast hlt
  have hsum : times y Q + 2 ^ (d - 1) = (y * q + 2 ^ (d - 1) : ℕ) := by
    rw [hexact]
    push_cast
    rfl
  rw [compress_eq hd]
  show Except.ok (ushr (times y Q + 2 ^ (d - 1)) d) = _
  rw [hsum, ushr_natCast (by unfold q; omega) (by omega)]
  rfl

/-- What is decompressed is a reduced number. -/
theorem keeps_decompress {y : ℕ} (hy : y < 2 ^ d) :
    Reduced Q (Decompress d y : ℕ) :=
  ⟨Int.natCast_nonneg _, by
    have hlt := decompress_lt hd hy
    unfold q at hlt
    unfold Q
    omega⟩

/-- What the coder reads fits in a `Uint16Array`. -/
theorem compress_kept : (compress d).Kept d UInt16 := by
  intro y z hy hz
  rw [decompress_word hd hy] at hz
  cases hz
  exact keeps_of_reduced (keeps_decompress hd hy)

end

/-- A polynomial of fewer than twelve bits a coefficient is packed. -/
theorem polyCoder_eq {d : ℕ} (hd : d ≤ 11) :
    polyCoder d = packed d (compress d) := by
  unfold polyCoder
  rw [if_neg (by omega)]

-- ============================================================== rounding

/-- A coefficient of a reduced polynomial is a natural number. -/
theorem exists_natCast {p : Poly} (hp : AllOk (Reduced Q) p) {i : ℕ}
    (hi : i < N) : ∃ x : ℕ, x < q ∧ get p i = x := by
  obtain ⟨hlow, hhigh⟩ := hp i hi
  obtain ⟨x, hx⟩ := Int.eq_ofNat_of_zero_le hlow
  unfold Q at hhigh
  exact ⟨x, by unfold q; omega, hx⟩

/-- A polynomial as it comes back from `d` bits for each coefficient. -/
def rounded (d : ℕ) (p : Poly) : Poly :=
  loop N (fun i r => set r i (Decompress d (Compress d (get r i).toNat) : ℕ)) p

/-- What rounding adds to a coefficient. -/
def rounding (d : ℕ) (p : Poly) (i : ℕ) : ℤ :=
  (get (rounded d p) i - get p i).bmod q

section

variable {d : ℕ} (hd : 1 ≤ d ∧ d ≤ 11) {p : Poly}

include hd

/-- A polynomial that is written and read back, slot by slot. -/
theorem get_rounded {i : ℕ} (hi : i < N) :
    get (rounded d p) i = (Decompress d (Compress d (get p i).toNat) : ℕ) := by
  have hloop := get_loop_set (a := p) (f := fun _ x =>
      ((Decompress d (Compress d x.toNat) : ℕ) : ℤ)) le_rfl
    (fun i _ => keeps_of_reduced (keeps_decompress hd (compress_lt d _))) i
  rw [if_pos hi] at hloop
  exact hloop

/-- A rounded polynomial is reduced. -/
theorem reduced_rounded : AllOk (Reduced Q) (rounded d p) := by
  intro i hi
  rw [get_rounded hd hi]
  exact keeps_decompress hd (compress_lt d _)

/-- **Rounding is no further off** than half of what a level stands for. -/
theorem abs_rounding_le (hp : AllOk (Reduced Q) p) {i : ℕ} (hi : i < N) :
    |rounding d p i| ≤ roundingBound d := by
  obtain ⟨x, hx, hget⟩ := exists_natCast hp hi
  obtain ⟨e, he, c, hc⟩ := decompress_compress hd hx
  have hsmall : roundingBound d ≤ 833 := by
    obtain ⟨hlow, hhigh⟩ := hd
    unfold roundingBound q
    interval_cases d <;> omega
  have heq : rounding d p i = e := by
    rw [abs_le] at he
    unfold Q at hc
    unfold rounding q
    rw [get_rounded hd hi, hget, Int.toNat_natCast, Int.bmod_def]
    split <;> omega
  rw [heq]
  exact he

omit hd in
/-- A rounded polynomial differs from what was written by the rounding. -/
theorem dvd_rounding (i : ℕ) :
    Q ∣ get (rounded d p) i - (get p i + rounding d p i) := by
  have hmod : rounding d p i % q = (get (rounded d p) i - get p i) % q :=
    Int.bmod_emod
  unfold q Q at *
  omega

omit hd in
/-- It differs by the rounding in the ring as well. -/
theorem ringOf_rounded :
    ringOf (rounded d p) = ringOf p + ringOfInts (rounding d p) := by
  apply value_add
  intro i _
  have hzero := sound.cast_eq_zero.mpr (dvd_rounding (d := d) (p := p) i)
  rw [Int.cast_sub, sub_eq_zero, Int.cast_add] at hzero
  exact hzero

/-- The words of a polynomial are those of the rounded one. -/
theorem rounded_word (hp : AllOk (Reduced Q) p) {i : ℕ} (hi : i < N) :
    (∃ word, (compress d).encode (get p i) = .ok word
        ∧ word.truncate % 2 ^ d = (Compress d (get p i).toNat : ℕ))
      ∧ ∃ word, (compress d).encode (get (rounded d p) i) = .ok word
        ∧ word.truncate % 2 ^ d = (Compress d (get p i).toNat : ℕ) := by
  obtain ⟨x, hx, hget⟩ := exists_natCast hp hi
  have hlevel := compress_lt d x
  rw [get_rounded hd hi, hget, Int.toNat_natCast]
  refine ⟨compress_word hd hx, ?_⟩
  have hback := compress_word hd (decompress_lt hd hlevel)
  rwa [compress_decompress hd hlevel] at hback

/-- **A polynomial is written like the rounded one**, which comes back. -/
theorem rounded_writes (hp : AllOk (Reduced Q) p) :
    (polyCoder d).encode (rounded d p) = (polyCoder d).encode p
      ∧ ∃ b, (polyCoder d).Writes (rounded d p) b := by
  have hd24 : d ≤ 24 := by omega
  rw [polyCoder_eq hd.2]
  obtain ⟨b, hb, hlength, htotal⟩ := encode_packed (c := compress d) hd24
    (by decide) fun i hi => (rounded_word hd hp hi).1
  obtain ⟨b', hb', hlength', htotal'⟩ := encode_packed (c := compress d) hd24
    (by decide) fun i hi => (rounded_word hd hp hi).2
  have hsame := ext_little (hlength'.trans hlength.symm)
    (htotal'.trans htotal.symm)
  refine ⟨by rw [hb, hb', hsame], ?_⟩
  apply packed_writes hd24 hd.1 (by decide) (compress_kept hd)
    fun i hi => (rounded_word hd hp hi).2
  intro i hi
  rw [get_rounded hd hi]
  exact decompress_word hd (compress_lt d _)

/-- **Each polynomial has one encoding.** -/
theorem polyCoder_canonical : (polyCoder d).Canonical := by
  rw [polyCoder_eq hd.2]
  apply packed_canonical (by omega) hd.1 (by decide) (compress_kept hd)
  intro y z hy hz
  rw [decompress_word hd hy] at hz
  cases hz
  have hback := compress_word hd (decompress_lt hd hy)
  rwa [compress_decompress hd hy] at hback

/-- All bytes of the length are read, as a reduced polynomial. -/
theorem polyCoder_reads {b : Bytes} (hb : b.length = (polyCoder d).bytesLen) :
    ∃ p, (polyCoder d).decode b = .ok p ∧ AllOk (Reduced Q) p := by
  rw [polyCoder_eq hd.2] at hb ⊢
  obtain ⟨r, hr, htotal⟩ := exists_words (d := d) (N := N) (by decide) hb
  obtain ⟨p, hp⟩ := decode_packed_returns (by omega) hd.1 (by decide)
    (compress_kept hd) hb hr htotal fun j hj => ⟨_, decompress_word hd (hr j hj)⟩
  refine ⟨p, hp, ?_⟩
  have hread := decode_packed (by omega) hd.1 (by decide) (compress_kept hd) hb
    hr htotal hp
  intro i hi
  have hslot := hread i hi
  rw [decompress_word hd (hr i hi)] at hslot
  rw [← Except.ok.inj hslot]
  exact keeps_decompress hd (hr i hi)

end

-- ========================================================== twelve bits

/-- The coefficient coder of twelve bits. -/
def wordCoder : CoefCoder where
  encode := fun i => .ok (.finite i)
  decode := fun i => .ok (if Q ≤ i then i - Q else i)

/-- Twelve bits a coefficient: nothing is compressed. -/
theorem polyCoder_twelve : polyCoder 12 = packed 12 wordCoder := rfl

/-- A word is reduced where it is not below the modulus. -/
theorem reduced_word {y : ℕ} (hy : y < 2 ^ 12) :
    Reduced Q (if Q ≤ (y : ℤ) then y - Q else y) := by
  unfold Reduced Q
  split <;> omega

/-- A word fits in a `Uint16Array`. -/
theorem wordCoder_kept : wordCoder.Kept 12 UInt16 := by
  intro y z hy hz
  cases hz
  exact keeps_of_reduced (reduced_word hy)

/-- A reduced number is its own word. -/
theorem wordCoder_word (x : ℤ) (hx : Reduced Q x) : ∃ word,
    wordCoder.encode x = .ok word ∧ word.truncate % 2 ^ 12 = (x.toNat : ℤ) := by
  obtain ⟨hlow, hhigh⟩ := hx
  unfold Q at hhigh
  refine ⟨_, rfl, ?_⟩
  rw [JsNumber.truncate_intCast]
  omega

section

variable {p : Poly} {b : Bytes}

/-- **Reduced polynomials come back** from their bytes. -/
theorem byteCoder_writes (hp : AllOk (Reduced Q) p) :
    ∃ b, (polyCoder 12).Writes p b := by
  rw [polyCoder_twelve]
  apply packed_writes (by norm_num) (by norm_num) (by decide) wordCoder_kept
    fun i hi => wordCoder_word _ (hp i hi)
  intro i hi
  obtain ⟨hlow, hhigh⟩ := hp i hi
  show Except.ok (if Q ≤ ((get p i).toNat : ℤ) then ((get p i).toNat : ℤ) - Q
    else ((get p i).toNat : ℤ)) = _
  rw [Int.toNat_of_nonneg hlow, if_neg (not_le.mpr hhigh)]

/-- All bytes of the length are read, as a reduced polynomial. -/
theorem byteCoder_reads (hb : b.length = (polyCoder 12).bytesLen) :
    ∃ p, (polyCoder 12).decode b = .ok p ∧ AllOk (Reduced Q) p := by
  rw [polyCoder_twelve] at hb ⊢
  obtain ⟨r, hr, htotal⟩ := exists_words (d := 12) (N := N) (by decide) hb
  obtain ⟨p, hp⟩ := decode_packed_returns (by norm_num) (by norm_num) (by decide)
    wordCoder_kept hb hr htotal fun j hj => ⟨_, rfl⟩
  have hread := decode_packed (by norm_num) (by norm_num) (by decide)
    wordCoder_kept hb hr htotal hp
  refine ⟨p, hp, ?_⟩
  intro i hi
  rw [← Except.ok.inj (hread i hi)]
  exact reduced_word (hr i hi)

-- ============================================================= messages

/-- The bits of some bytes are the digits of their number. -/
theorem little_bit (b : Bytes) :
    little (2 ^ 1) (bit b) (b.length * 8) = little (2 ^ 8) (listBytes b) b.length := by
  have hblocks := little_blocks (b := 2) (w := listBytes b) (n := b.length)
    (k := 8) (by norm_num) fun j _ => listBytes_lt b j
  exact hblocks

/-- A bit is zero or one. -/
theorem bit_lt (b : Bytes) (k : ℕ) : bit b k < 2 ^ 1 := Nat.mod_lt _ two_pos

/-- Bytes of one length with the same bits are the same. -/
theorem ext_bit {b b' : Bytes} (hb : b.length = 32) (hb' : b'.length = 32)
    (h : ∀ i < N, bit b i = bit b' i) : b = b' := by
  apply ext_little (hb.trans hb'.symm)
  rw [← little_bit, ← little_bit, hb, hb']
  exact little_congr h

/-- **A message is read** bit by bit: each of its bits becomes zero or 1665,
which is half of `Q` rounded up. -/
theorem message_decode {m : Bytes} (hm : m.length = 32) :
    ∃ v, KPKE.poly1.decode m = .ok v ∧ ∀ i < N, get v i = 1665 * bit m i := by
  have hd : 1 ≤ 1 ∧ 1 ≤ 11 := by norm_num
  have hlength : m.length = 1 * (N / 8) := hm
  have htotal := little_bit m
  rw [hm] at htotal
  unfold KPKE.poly1
  rw [polyCoder_eq hd.2]
  have hhalf : ∀ i, Decompress 1 (bit m i) = 1665 * bit m i := by
    intro i
    have hlt := bit_lt m i
    unfold Decompress q
    omega
  obtain ⟨v, hv⟩ := decode_packed_returns (N := N) (by norm_num) hd.1 (by decide)
    (compress_kept hd) hlength (fun j _ => bit_lt m j) (hm ▸ htotal)
    fun j _ => ⟨_, decompress_word hd (bit_lt m j)⟩
  refine ⟨v, hv, ?_⟩
  intro i hi
  have hread := decode_packed (by norm_num) hd.1 (by decide) (compress_kept hd)
    hlength (fun j _ => bit_lt m j) (hm ▸ htotal) hv i hi
  rw [decompress_word hd (bit_lt m i), hhalf] at hread
  rw [← Except.ok.inj hread]
  push_cast
  rfl

/-- **A polynomial is written** as the bits nearest to its coefficients,
which is how decryption reads a message. -/
theorem message_encode (hp : AllOk (Reduced Q) p) :
    ∃ b, KPKE.poly1.encode p = .ok b ∧ b.length = 32
      ∧ ∀ i < N, bit b i = Compress 1 (get p i).toNat := by
  have hd : 1 ≤ 1 ∧ 1 ≤ 11 := by norm_num
  unfold KPKE.poly1
  rw [polyCoder_eq hd.2]
  obtain ⟨b, hb, hlength, htotal⟩ := encode_packed (c := compress 1) (by norm_num)
    (by decide) fun i hi => (rounded_word hd hp hi).1
  have hlength : b.length = 32 := hlength
  refine ⟨b, hb, hlength, ?_⟩
  apply little_injective (fun i _ => bit_lt b i) (fun i _ => compress_lt 1 _)
  rw [← htotal, ← little_bit, hlength]
  rfl

end

-- ============================================================== vectors

/-- What is written alike one by one is written alike together. -/
theorem mapM_encode_congr {c : Coder Poly} {f : Poly → Poly} {u : List Poly}
    (h : ∀ p ∈ u, c.encode (f p) = c.encode p) :
    (u.map f).mapM c.encode = u.mapM c.encode := by
  induction u with
  | nil => rfl
  | cons p u ih =>
      rw [List.map_cons, List.mapM_cons, List.mapM_cons, h p List.mem_cons_self,
        ih fun p hp => h p (List.mem_cons_of_mem _ hp)]

/-- The bits of a ciphertext are such as `compress` is made for. -/
structure Params.Fits (P : Params) : Prop where
  eta1 : 0 < P.ETA1
  eta2 : 0 < P.ETA2
  du : 1 ≤ P.du ∧ P.du ≤ 11
  dv : 1 ≤ P.dv ∧ P.dv ≤ 11

/-- **All parameter sets fit** what is assumed of them. -/
theorem PARAMS_fits (set : ParamSet) : (PARAMS set).Fits := by
  cases set <;> exact ⟨by decide, by decide, by decide, by decide⟩

section

variable {P : Params} (hP : P.Fits) {u : List Poly} {v : Poly}

include hP

/-- **A ciphertext is written** like the rounded one, which comes back.
Compressing loses the same of a coefficient as of what it is rounded to. -/
theorem cipherCoder_writes (hu : u.length = P.K)
    (hured : ∀ p ∈ u, AllOk (Reduced Q) p) (hv : AllOk (Reduced Q) v) :
    ∃ b, (KPKE.cipherCoder P).encode (u, v, ()) = .ok b
      ∧ (KPKE.cipherCoder P).Writes
        (u.map (rounded P.du), rounded P.dv v, ()) b := by
  have hsame := fun p hp => (rounded_writes hP.du (hured p hp)).1
  have hmap := mapM_encode_congr hsame
  have hv' := rounded_writes hP.dv hv
  obtain ⟨bv, hbv⟩ := hv'.2
  have hpieces : ∀ p ∈ u.map (rounded P.du),
      ∃ b, (polyCoder P.du).Writes p b := by
    rw [List.forall_mem_map]
    exact fun p hp => (rounded_writes hP.du (hured p hp)).2
  obtain ⟨bu, hbu⟩ := vecCoder_writes_of (n := P.K)
    (by rw [List.length_map, hu]) hpieces
  have hwrites : (KPKE.cipherCoder P).Writes
      (u.map (rounded P.du), rounded P.dv v, ()) (bu ++ (bv ++ [])) :=
    splitCoder_writes (.coder hbu (.coder hbv .nil))
  have hvec : (vecCoder (polyCoder P.du) P.K).encode (u.map (rounded P.du))
      = (vecCoder (polyCoder P.du) P.K).encode u := by
    unfold vecCoder
    simp only [hmap, List.length_map]
  refine ⟨_, ?_, hwrites⟩
  rw [← hwrites.encode]
  exact (Fields.encode_congr hvec (Fields.encode_congr hv'.1 rfl)).symm

/-- **Ciphertexts have one encoding.** -/
theorem cipherCoder_canonical : (KPKE.cipherCoder P).Canonical := by
  rintro ⟨u, v, ⟨⟩⟩
  exact splitCoder_canonical
    ⟨vecCoder_canonical (polyCoder_canonical hP.du) _ _,
      polyCoder_canonical hP.dv _, trivial⟩

end

end KxcoPostQuantum.Vendor.MlKem
