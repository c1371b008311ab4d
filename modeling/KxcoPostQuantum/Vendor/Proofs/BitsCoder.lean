/-
A packing of coefficients is their number, written in bytes.

`packed d c` makes of each coefficient a word of `d` bits. The words are
the digits of a number in base `2 ^ d`, and what it writes are the digits
of the same number in base 256 (`encode_packed`); what it reads are the
words of the number the bytes stand for (`decode_packed`). Both loops are
packers of `Lib.Packed`, whose accumulator never leaves 31 bits.

So a polynomial whose coefficients come back from their words comes back
from its bytes (`packed_writes`), and a coder whose words come back from
their coefficients is canonical (`packed_canonical`).
-/
import KxcoPostQuantum.Vendor.Crystals
import KxcoPostQuantum.Vendor.Proofs.Coders
import KxcoPostQuantum.Lib.Digits

namespace KxcoPostQuantum.Vendor

open Lib

variable {ε : Type} [ArrayElement ε] {N d : ℕ} {c : CoefCoder}

/-- The bytes of an array. -/
def bytesOf {n : ℕ} (out : Vector UInt8 n) (p : ℕ) : ℕ := (load out p).toNat

/-- The bytes of a list. -/
def listBytes (b : Bytes) (p : ℕ) : ℕ := (b.getD p 0).toNat

/-- A byte is below 2^8. -/
theorem listBytes_lt (b : Bytes) (p : ℕ) : listBytes b p < 2 ^ 8 :=
  UInt8.toNat_lt _

/-- The bytes of a stream, as far as they are taken. -/
theorem listBytes_squeeze {stream : ℕ → UInt8} {n p : ℕ} (hp : p < n) :
    listBytes (squeeze stream n) p = (stream p).toNat := by
  unfold listBytes squeeze
  rw [List.getD_eq_getElem?_getD, List.getElem?_map, List.getElem?_range hp]
  rfl

/-- Those of an array are its slots. -/
theorem listBytes_toList {n : ℕ} (out : Vector UInt8 n) :
    listBytes out.toList = bytesOf out := by
  funext p
  unfold listBytes bytesOf load
  rw [List.getD_eq_getElem?_getD, ← Vector.getElem?_toList]
  rfl

/-- Lists of one length with the same number are the same. -/
theorem ext_little {b b' : Bytes} (hlength : b.length = b'.length)
    (h : little (2 ^ 8) (listBytes b) b.length
      = little (2 ^ 8) (listBytes b') b'.length) : b = b' := by
  rw [← hlength] at h
  have hsame := little_injective (fun j _ => listBytes_lt b j)
    (fun j _ => listBytes_lt b' j) h
  apply List.ext_getElem hlength
  intro i hi hi'
  have hget := hsame i hi
  unfold listBytes at hget
  rw [List.getD_eq_getElem?_getD, List.getD_eq_getElem?_getD,
    List.getElem?_eq_getElem hi, List.getElem?_eq_getElem hi'] at hget
  exact UInt8.toNat_inj.mp hget

/-- A byte of the accumulator, stored. -/
theorem bytesOf_set {n : ℕ} {out : Vector UInt8 n} {pos buf : ℕ}
    (hpos : pos < n) (p : ℕ) :
    bytesOf (set out pos (bitAnd buf 0xff)) p
      = if p = pos then buf % 2 ^ 8 else bytesOf out p := by
  have hmask : bitAnd buf 0xff = ((buf % 2 ^ 8 : ℕ) : ℤ) := by
    have h := bitAnd_mask (buf : ℤ) (d := 8) (by norm_num)
    norm_num at h ⊢
    exact h
  unfold bytesOf set
  rw [hmask]
  split
  next h =>
    subst h
    rw [load_store_self hpos]
    have hlt := Nat.mod_lt buf (Nat.two_pow_pos 8)
    have hnumber : (((ArrayElement.convert ((buf % 2 ^ 8 : ℕ) : ℤ) : UInt8).toNat
        : ℕ) : ℤ) = (buf % 2 ^ 8 : ℕ) :=
      ArrayElement.number_convert (ε := UInt8) _ (Int.natCast_nonneg _)
        (show _ ≤ (2 ^ 8 - 1 : ℤ) by omega)
    exact_mod_cast hnumber
  next h => rw [load_store_of_ne (Ne.symm h)]

-- ============================================================== writing

/-- The inner loop of `encode` gives out bytes while it holds any: behind it
less than a byte is left, and what has been taken in is as before. -/
theorem flushBytes_packed {n k : ℕ} (buf : ℕ) {w : ℕ → ℕ}
    (s : Packing UInt8 n) (hbuf : s.buf = buf) (hlen : s.bufLen ≤ 31) (hroom : d * k ≤ 8 * n)
    (h : Packed d 8 w (bytesOf s.out) k s.pos buf s.bufLen) :
    ∃ buf' : ℕ, (flushBytes s).buf = buf'
      ∧ Packed d 8 w (bytesOf (flushBytes s).out) k (flushBytes s).pos buf'
        (flushBytes s).bufLen
      ∧ (flushBytes s).bufLen < 8 := by
  induction s using flushBytes.induct generalizing buf with
  | case1 s hge ih =>
      have hsmall : buf < 2 ^ 31 :=
        h.small.trans_le (Nat.pow_le_pow_right two_pos hlen)
      have hpos : s.pos < n := by
        have := h.bits
        omega
      rw [flushBytes, if_pos hge]
      rw [hbuf] at ih
      rw [hbuf]
      apply ih (buf / 2 ^ 8)
      · exact shr_natCast hsmall (by norm_num)
      · show s.bufLen - 8 ≤ 31
        omega
      · apply h.give hge
        · intro p hp
          rw [bytesOf_set hpos, if_neg (by omega)]
        · rw [bytesOf_set hpos, if_pos rfl]
  | case2 s hlt =>
      rw [flushBytes, if_neg hlt]
      exact ⟨buf, hbuf, h, by omega⟩

/-- **What is written** is the number of the words: the bytes, as digits of
eight bits, come to what the words come to as digits of `d` bits. -/
theorem encode_packed (hd : d ≤ 24) (hN : 8 * (N / 8) = N) {p : Vector ε N}
    {w : ℕ → ℕ} (hw : ∀ i < N, ∃ word, c.encode (get p i) = .ok word
      ∧ word.truncate % 2 ^ d = w i) :
    ∃ b, (packed d c).encode p = .ok b ∧ b.length = d * (N / 8)
      ∧ little (2 ^ 8) (listBytes b) b.length = little (2 ^ d) w N := by
  have hroom : 8 * (d * (N / 8)) = d * N := by
    rw [Nat.mul_left_comm, hN]
  have hword : ∀ i < N, w i < 2 ^ d := by
    intro i hi
    obtain ⟨word, -, htrunc⟩ := hw i hi
    have := Int.emod_lt_of_pos word.truncate (b := 2 ^ d) (by positivity)
    rw [htrunc] at this
    exact_mod_cast this
  -- behind `k` coefficients the accumulator holds less than a byte
  obtain ⟨s, hs, buf, hbuf, hpacked, hlen⟩ := loopM_returns (n := N)
    (b := fun i (s : Packing UInt8 (d * (N / 8))) => do
      let word ← c.encode (get p i)
      let bits := bitAnd word.truncate (lowMask d)
      return flushBytes { s with
        buf := bitOr s.buf (shl bits s.bufLen)
        bufLen := s.bufLen + d })
    (s := { out := zeros UInt8 _ })
    (P := fun k s => ∃ buf : ℕ, s.buf = buf
      ∧ Packed d 8 w (bytesOf s.out) k s.pos buf s.bufLen ∧ s.bufLen < 8)
    ⟨0, rfl, Packed.start, by norm_num⟩
    (by
      rintro i hi s ⟨buf, hbuf, hpacked, hlen⟩
      obtain ⟨word, hok, htrunc⟩ := hw i hi
      have htake := hpacked.take (hword i hi)
      have hsmall := htake.small.trans_le
        (Nat.pow_le_pow_right two_pos (by omega : s.bufLen + d ≤ 31))
      have hbits : bitAnd word.truncate (lowMask d) = w i := by
        rw [lowMask_of_lt (by omega), bitAnd_mask _ (by omega), htrunc]
      have hadd : bitOr s.buf (shl (bitAnd word.truncate (lowMask d)) s.bufLen)
          = (buf + w i * 2 ^ s.bufLen : ℕ) := by
        rw [hbuf, hbits]
        exact bitOr_shl hpacked.small hsmall (by omega)
      have hlen' : s.bufLen + d ≤ 31 := by omega
      have hroom' : d * (i + 1) ≤ 8 * (d * (N / 8)) := by
        rw [hroom]
        exact Nat.mul_le_mul_left d hi
      have hflush := flushBytes_packed (buf + w i * 2 ^ s.bufLen)
        (Packing.mk s.out (bitOr s.buf (shl (bitAnd word.truncate (lowMask d))
          s.bufLen)) (s.bufLen + d) s.pos)
        (by dsimp only; exact hadd) hlen' hroom' htake
      refine ⟨_, ?_, hflush⟩
      rw [hok]
      rfl)
  have hbits := hpacked.bits
  obtain hzero : s.bufLen = 0 := by
    have : 8 * (d * (N / 8)) = d * N := hroom
    omega
  rw [hzero] at hpacked
  obtain ⟨hpos, htotal⟩ := hpacked.finish
  have hlength : s.out.toList.length = d * (N / 8) := s.out.length_toList
  refine ⟨s.out.toList, ?_, hlength, ?_⟩
  · unfold packed
    simp only
    rw [hs]
    rfl
  · rw [hlength, listBytes_toList, ← htotal]
    congr 1
    omega

/-- Polynomials whose coefficients make the same words are written alike. -/
theorem encode_congr {p p' : Vector ε N}
    (h : ∀ i < N, c.encode (get p i) = c.encode (get p' i)) :
    (packed d c).encode p = (packed d c).encode p' := by
  unfold packed
  apply congrArg (fun x : Run (Packing UInt8 (d * (N / 8))) =>
    x >>= fun s => pure s.out.toList)
  apply loopM_congr
  intro i hi s
  rw [h i hi]

-- ============================================================== reading

/-- `decode` has taken `k` bytes; `r` are the words it has decoded. -/
structure Reading (c : CoefCoder) (d : ℕ) (w : ℕ → ℕ) (k : ℕ)
    (s : Packing ε N) (r : ℕ → ℕ) (buf : ℕ) : Prop where
  buf_eq : s.buf = buf
  packed : Packed 8 d w r k s.pos buf s.bufLen
  decoded : ∀ p < s.pos, c.decode (r p) = .ok (get s.out p)

/-- Slots keep what the words decode to. -/
def CoefCoder.Kept (c : CoefCoder) (d : ℕ) (ε : Type) [ArrayElement ε] : Prop :=
  ∀ {x : ℕ} {y}, x < 2 ^ d → c.decode x = .ok y → Keeps ε y

section

variable {w r : ℕ → ℕ} {k buf : ℕ} {s : Packing ε N}

/-- The word the accumulator begins with. -/
theorem Reading.word (h : Reading c d w k s r buf) (hd : d ≤ 24) :
    bitAnd s.buf (lowMask d) = (buf % 2 ^ d : ℕ) := by
  rw [h.buf_eq, lowMask_of_lt (by omega), bitAnd_mask _ (by omega)]
  push_cast
  rfl

/-- A word is decoded: the low bits of the buffer are the next word, and the
array has a coefficient more. -/
theorem Reading.step (h : Reading c d w k s r buf) (hd : d ≤ 24)
    (hlen : d ≤ s.bufLen) (hbound : s.bufLen ≤ 31) (hpos : s.pos < N)
    {y : ℤ} (hy : c.decode (buf % 2 ^ d : ℕ) = .ok y) (hkeeps : Keeps ε y) :
    Reading c d w k (Packing.mk (set s.out s.pos y) (shr s.buf d)
      (s.bufLen - d) (s.pos + 1)) (Function.update r s.pos (buf % 2 ^ d))
      (buf / 2 ^ d) := by
  have hsmall : buf < 2 ^ 31 :=
    h.packed.small.trans_le (Nat.pow_le_pow_right two_pos hbound)
  refine ⟨?_, ?_, ?_⟩
  · dsimp only
    rw [h.buf_eq]
    exact shr_natCast hsmall (by omega)
  · apply h.packed.give hlen
    · intro p hp
      exact Function.update_of_ne (by omega) _ _
    · exact Function.update_self _ _ _
  · intro p hp
    dsimp only at hp ⊢
    rcases Nat.lt_succ_iff_lt_or_eq.mp hp with hlt | rfl
    · rw [Function.update_of_ne (by omega), get_set_of_ne (by omega)]
      exact h.decoded p hlt
    · rw [Function.update_self, get_set hpos hkeeps]
      exact hy

/-- There is room for every word that is held. -/
theorem Reading.room (h : Reading c d w k s r buf) (hd : 0 < d)
    (hroom : 8 * k ≤ d * N) (hlen : d ≤ s.bufLen) : s.pos < N := by
  have hbits := h.packed.bits
  have hle : d * (s.pos + 1) ≤ d * N := by
    rw [Nat.mul_succ]
    omega
  exact Nat.le_of_mul_le_mul_left hle hd

/-- The inner loop of `decode` decodes words while it holds any. There is
room for them, since the bytes hold no more words than there are
coefficients. -/
theorem flushWords_ok (hd : d ≤ 24) (hdpos : 0 < d) (hkept : c.Kept d ε)
    (hroom : 8 * k ≤ d * N) (hbound : s.bufLen ≤ 31)
    (h : Reading c d w k s r buf) {t : Packing ε N}
    (ht : flushWords d c s = .ok t) :
    ∃ r' buf', Reading c d w k t r' buf' ∧ t.bufLen < d := by
  induction s using @flushWords.induct ε _ N d generalizing r buf with
  | case1 s hge ih =>
      rw [flushWords, if_pos hge] at ht
      obtain ⟨y, hy, ht⟩ := run_bind_ok.mp ht
      have hpos := h.room hdpos hroom hge.2
      rw [h.word hd] at hy
      have hstep := h.step hd hge.2 hbound hpos hy
        (hkept (Nat.mod_lt _ (Nat.two_pow_pos d)) hy)
      exact ih y (by dsimp only; omega) hstep ht
  | case2 s hlt =>
      rw [flushWords, if_neg hlt] at ht
      cases ht
      exact ⟨r, buf, h, by omega⟩

/-- And returns where each of them can be decoded. The hypothesis speaks of
every buffer that can come up, as a word may stand anywhere in it. -/
theorem flushWords_returns (hd : d ≤ 24) (hdpos : 0 < d) (hkept : c.Kept d ε)
    (hroom : 8 * k ≤ d * N) (hbound : s.bufLen ≤ 31)
    (h : Reading c d w k s r buf)
    (hwords : ∀ (s : Packing ε N) r buf, Reading c d w k s r buf →
      d ≤ s.bufLen → ∃ y, c.decode (buf % 2 ^ d : ℕ) = .ok y) :
    ∃ t, flushWords d c s = .ok t := by
  induction s using @flushWords.induct ε _ N d generalizing r buf with
  | case1 s hge ih =>
      obtain ⟨y, hy⟩ := hwords s r buf h hge.2
      have hpos := h.room hdpos hroom hge.2
      have hstep := h.step hd hge.2 hbound hpos hy
        (hkept (Nat.mod_lt _ (Nat.two_pow_pos d)) hy)
      obtain ⟨t, ht⟩ := ih y (by dsimp only; omega) hstep
      refine ⟨t, ?_⟩
      rw [flushWords, if_pos hge, h.word hd]
      exact run_bind_ok.mpr ⟨y, hy, ht⟩
  | case2 s hlt =>
      rw [flushWords, if_neg hlt]
      exact ⟨s, rfl⟩

/-- Take a byte. -/
theorem Reading.take {b : Bytes} {k : ℕ}
    (h : Reading c d (listBytes b) k s r buf) (hlen : s.bufLen < d)
    (hd : d ≤ 24) :
    Reading c d (listBytes b) (k + 1) (Packing.mk s.out
      (bitOr s.buf (shl (b.getD k 0).toNat s.bufLen)) (s.bufLen + 8) s.pos)
      r (buf + listBytes b k * 2 ^ s.bufLen) := by
  have htake := h.packed.take (listBytes_lt b k)
  have hsmall := htake.small.trans_le
    (Nat.pow_le_pow_right two_pos (by omega : s.bufLen + 8 ≤ 31))
  refine ⟨?_, htake, h.decoded⟩
  dsimp only
  rw [h.buf_eq]
  exact bitOr_shl h.packed.small hsmall (by omega)

end

section

variable {b : Bytes} {r : ℕ → ℕ}

/-- The pass of `decode` over a byte. -/
def readByte (d : ℕ) (c : CoefCoder) (bytes : Bytes) (i : ℕ)
    (s : Packing ε N) : Run (Packing ε N) :=
  flushWords d c { s with
    buf := bitOr s.buf (shl (bytes.getD i 0).toNat s.bufLen)
    bufLen := s.bufLen + 8 }

/-- Bytes are read one after another, into a new array. -/
theorem decode_eq {p : Vector ε N} : (packed d c).decode b = .ok p
    ↔ ∃ s, loopM b.length (readByte d c b) { out := zeros ε N } = .ok s
      ∧ s.out = p := run_map_ok

/-- What a packing holds at its start. -/
theorem Reading.start (w r : ℕ → ℕ) :
    Reading c d w 0 ({ out := zeros ε N } : Packing ε N) r 0 :=
  ⟨rfl, Packed.start, fun p hp => absurd hp (Nat.not_lt_zero p)⟩

/-- **What is read** are the words of the number, each decoded on its own. A
number has one sequence of words of `d` bits, so any that come to it are
those that are read. -/
theorem decode_packed (hd : d ≤ 24) (hdpos : 0 < d) (hN : 8 * (N / 8) = N)
    (hkept : c.Kept d ε) (hb : b.length = d * (N / 8)) (hr : ∀ j < N, r j < 2 ^ d)
    (htotal : little (2 ^ d) r N = little (2 ^ 8) (listBytes b) b.length)
    {p : Vector ε N} (h : (packed d c).decode b = .ok p) :
    ∀ j < N, c.decode (r j) = .ok (get p j) := by
  have hroom : 8 * b.length = d * N := by
    rw [hb, Nat.mul_left_comm, hN]
  obtain ⟨s, hs, rfl⟩ := decode_eq.mp h
  obtain ⟨r', buf, hreading, hlen⟩ := loopM_induction
    (P := fun k (s : Packing ε N) => ∃ r buf,
      Reading c d (listBytes b) k s r buf ∧ s.bufLen < d)
    ⟨r, 0, Reading.start _ r, hdpos⟩
    (by
      rintro i hi s t ⟨r, buf, hreading, hlen⟩ ht
      have htake := hreading.take hlen hd
      exact flushWords_ok hd hdpos hkept (by omega)
        (show s.bufLen + 8 ≤ 31 by omega) htake ht)
    hs
  have hbits := hreading.packed.bits
  have hpos : s.pos = N := by
    rw [hroom] at hbits
    have hle : d * s.pos ≤ d * N := by omega
    have hlt : d * N < d * (s.pos + 1) := by
      rw [Nat.mul_succ]
      omega
    have := Nat.le_of_mul_le_mul_left hle hdpos
    have := Nat.lt_of_mul_lt_mul_left hlt
    omega
  have hsame := hreading.packed.prefix_eq le_rfl hpos.le hr htotal
  intro j hj
  rw [← hsame j (by omega)]
  exact hreading.decoded j (by omega)

/-- And reading returns where each of them can be decoded: the length has
been checked then, and no other step can throw. -/
theorem decode_packed_returns (hd : d ≤ 24) (hdpos : 0 < d)
    (hN : 8 * (N / 8) = N) (hkept : c.Kept d ε) (hb : b.length = d * (N / 8))
    (hr : ∀ j < N, r j < 2 ^ d)
    (htotal : little (2 ^ d) r N = little (2 ^ 8) (listBytes b) b.length)
    (hwords : ∀ j < N, ∃ y, c.decode (r j) = .ok y) :
    ∃ p : Vector ε N, (packed d c).decode b = .ok p := by
  have hroom : 8 * b.length = d * N := by
    rw [hb, Nat.mul_left_comm, hN]
  obtain ⟨s, hs, -⟩ := loopM_returns (n := b.length) (b := readByte d c b)
    (s := ({ out := zeros ε N } : Packing ε N))
    (P := fun k (s : Packing ε N) => ∃ r buf,
      Reading c d (listBytes b) k s r buf ∧ s.bufLen < d)
    ⟨r, 0, Reading.start _ r, hdpos⟩
    (by
      rintro i hi s ⟨r', buf, hreading, hlen⟩
      have htake := hreading.take hlen hd
      have hbound : s.bufLen + 8 ≤ 31 := by omega
      have hroom' : 8 * (i + 1) ≤ d * N := by omega
      obtain ⟨t, ht⟩ := flushWords_returns hd hdpos hkept hroom' hbound htake (by
        -- a word that is held is the next one of the number
        intro u r'' buf' hu hge
        have hpos := hu.room hdpos hroom' hge
        have hgiven := @Packed.give _ _ _ _ _ _ _ _ (Function.update r'' u.pos
          (buf' % 2 ^ d)) hu.packed hge
          (fun p hp => Function.update_of_ne (by omega) _ _)
          (Function.update_self _ _ _)
        have hsame := hgiven.prefix_eq hi hpos hr htotal u.pos u.pos.lt_succ_self
        rw [Function.update_self] at hsame
        rw [hsame]
        exact hwords u.pos hpos)
      exact ⟨t, ht, flushWords_ok hd hdpos hkept hroom' hbound htake ht⟩)
  exact ⟨s.out, decode_eq.mpr ⟨s, hs, rfl⟩⟩

-- ========================================================== round trips

/-- **A polynomial comes back from its bytes** where its coefficients come
back from their words. -/
theorem packed_writes (hd : d ≤ 24) (hdpos : 0 < d) (hN : 8 * (N / 8) = N)
    (hkept : c.Kept d ε) {p : Vector ε N} {w : ℕ → ℕ}
    (hw : ∀ i < N, ∃ word, c.encode (get p i) = .ok word
      ∧ word.truncate % 2 ^ d = w i)
    (hback : ∀ i < N, c.decode (w i) = .ok (get p i)) :
    ∃ b, (packed d c).Writes p b := by
  have hword : ∀ i < N, w i < 2 ^ d := by
    intro i hi
    obtain ⟨word, -, htrunc⟩ := hw i hi
    have := Int.emod_lt_of_pos word.truncate (b := 2 ^ d) (by positivity)
    rw [htrunc] at this
    exact_mod_cast this
  obtain ⟨b, hencode, hlength, htotal⟩ := encode_packed hd hN hw
  obtain ⟨p', hp'⟩ := decode_packed_returns hd hdpos hN hkept hlength hword
    htotal.symm fun j hj => ⟨_, hback j hj⟩
  have hread := decode_packed hd hdpos hN hkept hlength hword htotal.symm hp'
  refine ⟨b, hencode, hlength, ?_⟩
  rw [hp']
  congr 1
  apply ext_get
  intro i hi
  exact Except.ok.inj ((hread i hi).symm.trans (hback i hi))

/-- The words of a number of bytes. -/
theorem exists_words (hN : 8 * (N / 8) = N) (hb : b.length = d * (N / 8)) :
    ∃ r : ℕ → ℕ, (∀ j < N, r j < 2 ^ d)
      ∧ little (2 ^ d) r N = little (2 ^ 8) (listBytes b) b.length := by
  apply exists_little (Nat.two_pow_pos d)
  have hlt := little_lt (w := listBytes b) (n := b.length)
    fun j _ => listBytes_lt b j
  rw [hb] at hlt ⊢
  rwa [← pow_mul, Nat.mul_left_comm, hN, pow_mul] at hlt

/-- **Bytes are those their polynomial is written as** where words are those
of their coefficients. -/
theorem packed_canonical (hd : d ≤ 24) (hdpos : 0 < d) (hN : 8 * (N / 8) = N)
    (hkept : c.Kept d ε)
    (hback : ∀ {x : ℕ} {y}, x < 2 ^ d → c.decode x = .ok y →
      ∃ word, c.encode y = .ok word ∧ word.truncate % 2 ^ d = x) :
    (packed d c : Coder (Vector ε N)).Canonical := by
  intro p b hlength hdecode
  have hb : b.length = d * (N / 8) := hlength
  obtain ⟨r, hr, htotal⟩ := exists_words hN hb
  have hread := decode_packed hd hdpos hN hkept hb hr htotal hdecode
  obtain ⟨b', hencode, hlength', htotal'⟩ := encode_packed (w := r) hd hN
    fun i hi => hback (hr i hi) (hread i hi)
  rw [hencode]
  congr 1
  exact ext_little (hlength'.trans hb.symm) (htotal'.trans htotal)

end

/-- The carry shape of words that are short enough is valid. -/
theorem bitsCoder_ok (hd : d ≤ 24) :
    bitsCoder d c = .ok (packed d c : Coder (Vector ε N)) := by
  obtain ⟨_, hloop, -⟩ := loopM_returns (n := N) (s := 0)
    (b := fun _ (bufLen : ℕ) => do
      let bufLen := bufLen + d
      if 32 < bufLen then
        let _ ← getMask bufLen
      return bufLen % 8)
    (P := fun _ bufLen => bufLen < 8) (by norm_num) (by
      intro i _ bufLen hlt
      refine ⟨(bufLen + d) % 8, ?_, Nat.mod_lt _ (by norm_num)⟩
      simp only [if_neg (show ¬32 < bufLen + d by omega)]
      rfl)
  unfold bitsCoder
  rw [hloop, getMask_ok (by omega)]
  rfl

end KxcoPostQuantum.Vendor
