/-
What the samplers of ML-KEM draw.

An entry of the matrix holds the first numbers below the modulus that the
stream makes of three bytes each (`sampleNTT_exact`). A noise polynomial is
the centered binomial distribution of its bytes: the coefficient `i` is the
sum of `eta` bits minus the sum of the next `eta`, reduced
(`sampleCBDBytes_exact`). The words those bits are read from, and the
shifts that read them, are seen no more: behind `k` bits the loop has
finished the coefficients below `k / (2 * eta)`, and holds the sums of what
is left over (`Drawn`).
-/
import KxcoPostQuantum.Vendor.Proofs.KemPoly
import KxcoPostQuantum.Vendor.Proofs.Sampling

namespace KxcoPostQuantum.Vendor.MlKem

open Lib Finset

-- =========================================================== the matrix

/-- The numbers of three bytes each that are below the modulus. -/
def candidates : Bytes → List ℤ
  | b0 :: b1 :: b2 :: rest =>
      ([((b0.toNat + 256 * (b1.toNat % 16) : ℕ) : ℤ),
        ((b1.toNat / 16 + 16 * b2.toNat : ℕ) : ℤ)].filter (· < Q))
        ++ candidates rest
  | _ => []

/-- The candidates that are accepted are below the modulus. -/
theorem candidates_reduced (b : Bytes) : ∀ x ∈ candidates b, Reduced Q x := by
  induction b using candidates.induct with
  | case1 b0 b1 b2 rest ih =>
      intro x hx
      rw [candidates, List.mem_append, List.mem_filter] at hx
      rcases hx with ⟨hx, hlt⟩ | hx
      · refine ⟨?_, of_decide_eq_true hlt⟩
        rcases List.mem_cons.mp hx with rfl | hx
        · exact Int.natCast_nonneg _
        · rw [List.mem_singleton.mp hx]
          exact Int.natCast_nonneg _
      · exact ih x hx
  | case2 b hshort =>
      intro x hx
      rw [candidates] at hx
      · cases hx
      · exact hshort

/-- The mask of twelve bits is a remainder. -/
theorem bitAnd_4095 (x : ℤ) : bitAnd x 0xfff = x % 4096 := by
  have hmask := bitAnd_mask x (d := 12) (by norm_num)
  norm_num at hmask
  exact hmask

/-- Three bytes make two numbers of twelve bits. The first of them has the
first byte and the low half of the second one. -/
theorem first_candidate (b0 b1 : UInt8) :
    bitAnd (bitOr (shr b0.toNat 0) (shl b1.toNat 8)) 0xfff
      = (b0.toNat + 256 * (b1.toNat % 16) : ℕ) := by
  have h0 := b0.toNat_lt
  have h1 := b1.toNat_lt
  rw [shr_natCast (by omega) (by norm_num), pow_zero, Nat.div_one,
    bitOr_shl (by omega) (by omega) (by norm_num), bitAnd_4095]
  omega

/-- The second number has the high half of the second byte, and the
third. -/
theorem second_candidate (b1 b2 : UInt8) :
    bitAnd (bitOr (shr b1.toNat 4) (shl b2.toNat 4)) 0xfff
      = (b1.toNat / 16 + 16 * b2.toNat : ℕ) := by
  have h1 := b1.toNat_lt
  have h2 := b2.toNat_lt
  rw [shr_natCast (by omega) (by norm_num),
    bitOr_shl (by omega) (by omega) (by norm_num), bitAnd_4095]
  omega

/-- Two candidates, each stored if it is below the modulus. The second may
find the polynomial full, and is then stored nowhere. -/
theorem fill_two (d1 d2 : ℤ) {s : ℕ × Poly} (hs : s.1 < N) :
    fill ([d1, d2].filter (· < Q)) s
      = let t := if d1 < Q then (s.1 + 1, set s.2 s.1 d1) else s
        if t.1 < N ∧ d2 < Q then (t.1 + 1, set t.2 t.1 d2) else t := by
  have hkeep : keep s d1 = (s.1 + 1, set s.2 s.1 d1) := if_pos hs
  have hsecond : ∀ t : ℕ × Poly, fill ([d2].filter (· < Q)) t
      = if t.1 < N ∧ d2 < Q then (t.1 + 1, set t.2 t.1 d2) else t := by
    intro t
    by_cases h2 : d2 < Q
    · have hfilter : [d2].filter (· < Q) = [d2] := by simp [h2]
      rw [hfilter]
      show keep t d2 = _
      unfold keep
      simp only [h2, and_true]
    · have hfilter : [d2].filter (· < Q) = [] := by simp [h2]
      rw [hfilter, if_neg (by tauto)]
      rfl
  by_cases h1 : d1 < Q
  · have hfilter : [d1, d2].filter (· < Q) = d1 :: [d2].filter (· < Q) := by
      simp [List.filter_cons, h1]
    rw [hfilter]
    show fill ([d2].filter (· < Q)) (keep s d1) = _
    rw [hsecond, hkeep]
    simp only [if_pos h1]
  · have hfilter : [d1, d2].filter (· < Q) = [d2].filter (· < Q) := by
      simp [List.filter_cons, h1]
    rw [hfilter, hsecond]
    simp only [if_neg h1]

/-- A block is stored as its candidates are. -/
theorem sampleNTTBytes_eq (b : Bytes) (s : ℕ × Poly) :
    sampleNTTBytes b s = fill (candidates b) s := by
  induction b using candidates.induct generalizing s with
  | case1 b0 b1 b2 rest ih =>
      obtain ⟨j, r⟩ := s
      by_cases hj : j < N
      · rw [candidates, fill_append, fill_two _ _ hj, ← ih, sampleNTTBytes,
          if_pos hj]
        simp only [first_candidate, second_candidate]
      · rw [fill_full (not_lt.mp hj), sampleNTTBytes, if_neg hj]
  | case2 b hshort =>
      rw [candidates, sampleNTTBytes]
      · rfl
      · exact fun b0 b1 b2 rest _ _ hb _ => hshort b0 b1 b2 rest hb
      · exact hshort

section

variable {fuel fuel' : ℕ} {xof : ℕ → Bytes} {p : Poly}

/-- **An entry of the matrix** holds the first numbers below the modulus
that there are in the stream. -/
theorem sampleNTT_exact (haligned : ∀ call, (xof call).length % 3 = 0) :
    SampleNTT fuel xof = .ok p
      ↔ N ≤ (accepted candidates xof fuel).length
        ∧ ∀ i < N, get p i = (accepted candidates xof fuel).getD i 0 := by
  unfold SampleNTT
  refine run_map_ok.trans (sample_exact ?_ ?_)
  · intro call s
    rw [if_neg (not_not_intro (haligned call)), sampleNTTBytes_eq]
  · intro b x hx
    exact keeps_of_reduced (candidates_reduced b x hx)

/-- More blocks do not change what has been sampled. -/
theorem sampleNTT_mono (hle : fuel ≤ fuel') (h : SampleNTT fuel xof = .ok p) :
    SampleNTT fuel' xof = .ok p := by
  obtain ⟨s, hs, rfl⟩ := run_map_ok.mp h
  exact run_map_ok.mpr ⟨s, sample_mono hle hs, rfl⟩

end

section

variable {h : Hashes} {rho : Bytes} {x y fuel : ℕ} {p : Poly}

/-- A block of SHAKE128 is whole triples of bytes. -/
theorem aligned_XOF128 (call : ℕ) : (XOF128 h rho x y call).length % 3 = 0 := by
  unfold XOF128 createXofShake squeeze
  rw [List.length_map, List.length_range]
  rfl

/-- What is sampled is reduced. -/
theorem sampleNTT_reduced (hp : SampleNTT fuel (XOF128 h rho x y) = .ok p) :
    AllOk (Reduced Q) p := by
  obtain ⟨hlength, hslots⟩ := (sampleNTT_exact aligned_XOF128).mp hp
  intro i hi
  have hlt : i < (accepted candidates (XOF128 h rho x y) fuel).length := by omega
  rw [hslots i hi, List.getD_eq_getElem _ _ hlt]
  obtain ⟨n, -, hmem⟩ := List.mem_flatMap.mp (List.getElem_mem hlt)
  exact candidates_reduced _ _ hmem

end

-- ============================================================ the noise

/-- A bit of some bytes, the lowest of each byte first. -/
def bit (buf : Bytes) (k : ℕ) : ℕ := (buf.getD (k / 8) 0).toNat / 2 ^ (k % 8) % 2

/-- The sum of `n` bits from the position `k` on. -/
def bitSum (buf : Bytes) (k n : ℕ) : ℤ := ∑ j ∈ range n, (bit buf (k + j) : ℤ)

/-- A coefficient of the centered binomial distribution. -/
def centered (buf : Bytes) (eta i : ℕ) : ℤ :=
  bitSum buf (2 * eta * i) eta - bitSum buf (2 * eta * i + eta) eta

/-- The sum of some bits is no larger than their number. -/
theorem bitSum_bounds (buf : Bytes) (k n : ℕ) :
    0 ≤ bitSum buf k n ∧ bitSum buf k n ≤ n := by
  have hbit : ∀ k, (bit buf k : ℤ) ≤ 1 := by
    intro k
    unfold bit
    omega
  constructor
  · exact sum_nonneg fun _ _ => Int.natCast_nonneg _
  · calc bitSum buf k n ≤ ∑ _j ∈ range n, (1 : ℤ) :=
          sum_le_sum fun j _ => hbit (k + j)
      _ = n := by rw [sum_const, card_range, nsmul_one]

/-- A centered difference is no larger than `eta`. -/
theorem abs_centered_le (buf : Bytes) (eta i : ℕ) : |centered buf eta i| ≤ eta := by
  have h := bitSum_bounds buf (2 * eta * i) eta
  have h' := bitSum_bounds buf (2 * eta * i + eta) eta
  unfold centered
  rw [abs_le]
  omega

/-- The bits of a word are bits of the bytes, the lowest byte first, as the
view has them that the program reads words by. -/
theorem bit_word (buf : Bytes) (i : ℕ) {j : ℕ} (hj : j < 32) :
    word buf i / 2 ^ j % 2 = bit buf (32 * i + j) := by
  have hlow : ∀ (w rest : ℕ) {r : ℕ}, r < 8 →
      (w + 256 * rest) / 2 ^ r % 2 = w / 2 ^ r % 2 := by
    intro w rest r hr
    interval_cases r <;> omega
  have hr := Nat.mod_lt j (show 0 < 8 by norm_num)
  have hindex : (32 * i + j) / 8 = 4 * i + j / 8 ∧ (32 * i + j) % 8 = j % 8 := by
    omega
  have hsplit : word buf i / 2 ^ j
      = word buf i / 2 ^ (8 * (j / 8)) / 2 ^ (j % 8) := by
    rw [Nat.div_div_eq_div_mul, ← pow_add, Nat.div_add_mod]
  have hbyte : word buf i / 2 ^ (8 * (j / 8)) % 256
      = (buf.getD (4 * i + j / 8) 0).toNat := by
    have hlt : ∀ k, (buf.getD k 0).toNat < 256 := fun k => UInt8.toNat_lt _
    have h0 := hlt (4 * i + 0)
    have h1 := hlt (4 * i + 1)
    have h2 := hlt (4 * i + 2)
    have h3 := hlt (4 * i + 3)
    have hcases : j / 8 = 0 ∨ j / 8 = 1 ∨ j / 8 = 2 ∨ j / 8 = 3 := by omega
    unfold word
    rcases hcases with h | h | h | h <;> rw [h] <;> dsimp only <;> omega
  have hrest := Nat.mod_add_div (word buf i / 2 ^ (8 * (j / 8))) 256
  rw [hbyte] at hrest
  unfold bit
  rw [hsplit, ← hrest, hlow _ _ hr, hindex.1, hindex.2]

/-- One bit more. -/
theorem bitSum_succ (buf : Bytes) (k n : ℕ) :
    bitSum buf k (n + 1) = bitSum buf k n + bit buf (k + n) :=
  sum_range_succ _ n

/-- What the loop holds behind `k` bits. -/
structure Drawn (buf : Bytes) (eta k : ℕ) (s : Cbd) : Prop where
  count : k = 2 * eta * s.p + s.len
  short : s.len < 2 * eta
  done : ∀ i < N, i < s.p → get s.r i = centered buf eta i % Q
  low : s.len < eta → s.bb = bitSum buf (2 * eta * s.p) s.len
  high : eta ≤ s.len → s.t0 = bitSum buf (2 * eta * s.p) eta
    ∧ s.bb = bitSum buf (2 * eta * s.p + eta) (s.len - eta)

section

variable {buf : Bytes} {eta : ℕ}

/-- Nothing is drawn before the first byte. -/
theorem Drawn.start (heta : 0 < eta) : Drawn buf eta 0 {} where
  count := rfl
  short := Nat.mul_pos two_pos heta
  done := fun i _ h => absurd h (Nat.not_lt_zero i)
  low := fun _ => rfl
  high := fun h => absurd h (not_le.mpr heta)

/-- **A bit** is added to the sum it belongs to. Of twice `eta` bits the
first half are added up in one sum and the others in another, and then the
difference is stored. -/
theorem Drawn.step (heta : 0 < eta) {k : ℕ} {s : Cbd} (h : Drawn buf eta k s) :
    Drawn buf eta (k + 1) (cbdBit eta (bit buf k) s) := by
  obtain ⟨hcount, hshort, hdone, hlow, hhigh⟩ := h
  unfold cbdBit
  dsimp only
  by_cases hhalf : s.len + 1 = eta
  · have hsum : s.bb + bit buf k = bitSum buf (2 * eta * s.p) eta := by
      rw [hlow (by omega), hcount, ← bitSum_succ, hhalf]
    rw [if_pos hhalf]
    refine ⟨by dsimp only; omega, by dsimp only; omega, hdone, ?_, ?_⟩
    · intro h
      dsimp only at h
      omega
    · intro _
      dsimp only
      rw [hsum, hhalf, Nat.sub_self]
      exact ⟨rfl, rfl⟩
  · rw [if_neg hhalf]
    by_cases hwhole : s.len + 1 = 2 * eta
    · obtain ⟨ht0, hbb⟩ := hhigh (by omega)
      have hsum : s.bb + bit buf k = bitSum buf (2 * eta * s.p + eta) eta := by
        rw [hbb, hcount,
          show 2 * eta * s.p + s.len = 2 * eta * s.p + eta + (s.len - eta) by omega,
          ← bitSum_succ]
        congr 1
        omega
      have hcoef : mod (s.t0 - (s.bb + bit buf k)) Q
          = centered buf eta s.p % Q := by
        rw [mod_Q, ht0, hsum]
        rfl
      rw [if_pos hwhole, hcoef]
      refine ⟨?_, by dsimp only; omega, ?_, fun _ => rfl, ?_⟩
      · dsimp only
        rw [Nat.mul_succ]
        omega
      · intro i hi hlt
        dsimp only at hlt ⊢
        by_cases heq : s.p = i
        · subst heq
          exact get_of_reduced hi (reduced_mod _)
        · rw [get_set_of_ne heq]
          exact hdone i hi (by omega)
      · intro h
        dsimp only at h
        omega
    · rw [if_neg hwhole]
      refine ⟨by dsimp only; omega, by dsimp only; omega, hdone, ?_, ?_⟩
      · intro h
        dsimp only at h ⊢
        rw [hlow (by omega), hcount, ← bitSum_succ]
      · intro h
        dsimp only at h ⊢
        obtain ⟨ht0, hbb⟩ := hhigh (by omega)
        refine ⟨ht0, ?_⟩
        rw [hbb, hcount,
          show 2 * eta * s.p + s.len = 2 * eta * s.p + eta + (s.len - eta) by omega,
          ← bitSum_succ]
        congr 1
        omega

/-- A number is stored up to a multiple of 2^32. -/
theorem exists_toInt32 (x : ℤ) : ∃ c, toInt32 x = x + 2 ^ 32 * c := by
  unfold toInt32
  rw [Int.bmod_def]
  split
  next => exact ⟨-(x / 2 ^ 32), by omega⟩
  next => exact ⟨-(x / 2 ^ 32) - 1, by omega⟩

/-- A shift keeps the low bits, whatever it makes of the sign, which is all
that is read of the word. -/
theorem exists_shr (w : ℕ) {t : ℕ} (ht : t < 32) (m : ℤ) :
    ∃ m', shr (w + 2 ^ (t + 1) * m) 1 = (w / 2 : ℕ) + 2 ^ t * m' := by
  obtain ⟨c, hc⟩ := exists_toInt32 (w + 2 ^ (t + 1) * m)
  refine ⟨m + 2 ^ (31 - t) * c, ?_⟩
  have hpow : (2 : ℤ) ^ 32 = 2 ^ (t + 1) * 2 ^ (31 - t) := by
    rw [← pow_add]
    congr 1
    omega
  have hsum : (w : ℤ) + 2 ^ (t + 1) * m + 2 ^ 32 * c
      = w + 2 * (2 ^ t * (m + 2 ^ (31 - t) * c)) := by
    rw [hpow]
    ring
  unfold shr
  rw [hc, hsum, Int.shiftRight_eq_div_pow]
  push_cast
  omega

/-- The bits of a word, one after another, the lowest first. Where words and
coefficients end need not agree. -/
theorem Drawn.word (heta : 0 < eta) {i : ℕ} {s : Cbd}
    (h : Drawn buf eta (32 * i) s) :
    Drawn buf eta (32 * (i + 1)) (cbdWord eta (MlKem.word buf i) s) := by
  -- behind `j` bits the low ones of the word are those above them
  have hloop := loop_induction (n := 32) (s := ((MlKem.word buf i : ℤ), s))
    (b := fun _ (t : ℤ × Cbd) => (shr t.1 1, cbdBit eta (bitAnd t.1 1) t.2))
    (P := fun j t => (∃ m : ℤ, t.1 = (MlKem.word buf i / 2 ^ j : ℕ)
        + 2 ^ (32 - j) * m) ∧ Drawn buf eta (32 * i + j) t.2)
    ⟨⟨0, by rw [pow_zero, Nat.div_one]; ring⟩, h⟩
    (by
      rintro j hj ⟨b, t⟩ ⟨⟨m, hm⟩, hdrawn⟩
      dsimp only at hm hdrawn ⊢
      obtain ⟨n, hn⟩ : ∃ n, 32 - j = n + 1 := ⟨31 - j, by omega⟩
      rw [hn] at hm
      have hbit : bitAnd b 1 = bit buf (32 * i + j) := by
        have hmask := bitAnd_mask b (d := 1) (by norm_num)
        norm_num at hmask
        rw [hmask, ← bit_word buf i hj, hm,
          show (2 : ℤ) ^ (n + 1) * m = 2 * (2 ^ n * m) by ring]
        push_cast
        omega
      constructor
      · obtain ⟨m', hm'⟩ := exists_shr (MlKem.word buf i / 2 ^ j)
          (by omega : n < 32) m
        refine ⟨m', ?_⟩
        rw [hm, hm', Nat.div_div_eq_div_mul, ← pow_succ,
          show 32 - (j + 1) = n by omega]
      · rw [hbit]
        exact hdrawn.step heta)
  exact hloop.2

/-- **The noise** is centered binomial: its coefficients are sums of `eta`
bits minus sums of the next `eta`. -/
theorem sampleCBDBytes_exact (heta : 0 < eta) (hbuf : buf.length = 64 * eta) :
    ∃ r, sampleCBDBytes buf eta = .ok r
      ∧ ∀ i < N, get r i = centered buf eta i % Q := by
  have hwords : buf.length / 4 = 16 * eta := by omega
  have hloop := loop_induction (n := buf.length / 4) (s := {})
    (b := fun i s => cbdWord eta (word buf i) s)
    (P := fun i s => Drawn buf eta (32 * i) s)
    (Drawn.start heta) fun i _ s hs => hs.word heta
  unfold sampleCBDBytes
  generalize loop (buf.length / 4) (fun i s => cbdWord eta (word buf i) s) {} = s
    at hloop
  obtain ⟨hcount, hshort, hdone, -, -⟩ := hloop
  have htotal : 2 * eta * N = 2 * eta * s.p + s.len := by
    rw [← hcount, hwords]
    unfold N
    ring
  have hp : s.p = N := by
    have hle : 2 * eta * s.p ≤ 2 * eta * N := by omega
    have hlt : 2 * eta * N < 2 * eta * (s.p + 1) := by
      rw [Nat.mul_succ]
      omega
    have := Nat.le_of_mul_le_mul_left hle (by omega)
    have := Nat.lt_of_mul_lt_mul_left hlt
    omega
  have hlen : s.len = 0 := by
    rw [hp] at htotal
    omega
  refine ⟨s.r, ?_, fun i hi => hdone i hi (by omega)⟩
  simp only [hlen, ne_eq, not_true_eq_false, if_false]

end

/-- **What is drawn, of each set**: an entry of the matrix is the first
numbers below the modulus, once there are enough, and noise is always
returned, centered binomial and no larger than `eta`. -/
theorem draws_exact (set : ParamSet) (h : Hashes) (seed : Bytes)
    (x y fuel nonce eta : ℕ) (p : Poly) :
    (SampleNTT fuel (XOF128 h seed x y) = .ok p
        ↔ N ≤ (accepted candidates (XOF128 h seed x y) fuel).length
          ∧ ∀ i < N, get p i
            = (accepted candidates (XOF128 h seed x y) fuel).getD i 0)
      ∧ (eta = (PARAMS set).ETA1 ∨ eta = (PARAMS set).ETA2 →
        ∃ r, sampleCBD h seed nonce eta = .ok r ∧ ∀ i < N,
          get r i = centered (shakePRF h (eta * N / 4) seed nonce) eta i % Q
            ∧ |centered (shakePRF h (eta * N / 4) seed nonce) eta i| ≤ eta) := by
  refine ⟨sampleNTT_exact aligned_XOF128, ?_⟩
  intro heta
  have hpos : 0 < eta := by
    rcases heta with rfl | rfl <;> cases set <;> decide
  have hlength : (shakePRF h (eta * N / 4) seed nonce).length = 64 * eta := by
    unfold shakePRF
    rw [length_squeeze]
    unfold N
    omega
  obtain ⟨r, hr, hslots⟩ := sampleCBDBytes_exact hpos hlength
  exact ⟨r, hr, fun i hi => ⟨hslots i hi, abs_centered_le _ _ _⟩⟩

end KxcoPostQuantum.Vendor.MlKem
