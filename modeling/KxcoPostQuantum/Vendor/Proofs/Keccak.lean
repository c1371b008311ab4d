/-
`keccakP` is Keccak-f[1600].

`Lanes` are the 25 lanes of 64 bits that the permutation is defined over. The
code holds a lane as two words, the low one first (`lanes`), and shifts bits
from one half to the other (`lane_rotl`). It runs through rho and pi along
the one cycle of pi, with the lane it has taken out in hand
(`lanes_rhoPi`), and writes over the rows of chi while it reads them
(`lanes_chi`).
-/
import KxcoPostQuantum.Vendor.Sha3

namespace KxcoPostQuantum.Vendor.Sha3

open Lib (loop load store load_store loop_induction load_ofFn)

-- ====================================================== the permutation

/-- The lane of the column `x` and the row `y` is at `x + 5 * y`. -/
abbrev Lanes : Type := ℕ → BitVec 64

namespace Lanes

/-- The parity of a column. -/
def parity (a : Lanes) (x : ℕ) : BitVec 64 :=
  a x ^^^ a (x + 5) ^^^ a (x + 10) ^^^ a (x + 15) ^^^ a (x + 20)

def theta (a : Lanes) : Lanes := fun i =>
  a i ^^^ ((parity a ((i + 1) % 5)).rotateLeft 1 ^^^ parity a ((i + 4) % 5))

/-- How far rho turns a lane. -/
def offsets : List ℕ :=
  [0, 1, 62, 28, 27, 36, 44, 6, 55, 20, 3, 10, 43, 25, 39, 41, 45, 15, 21, 8,
    18, 2, 61, 56, 14]

/-- Where pi takes a lane from. -/
def source (i : ℕ) : ℕ := (i % 5 + 3 * (i / 5)) % 5 + 5 * (i % 5)

def rhoPi (a : Lanes) : Lanes := fun i =>
  (a (source i)).rotateLeft (offsets.getD (source i) 0)

def chi (a : Lanes) : Lanes := fun i =>
  a i ^^^ (~~~a (i / 5 * 5 + (i + 1) % 5) &&& a (i / 5 * 5 + (i + 2) % 5))

/-- The constants of the rounds. -/
def constants : List ℕ :=
  [0x0000000000000001, 0x0000000000008082, 0x800000000000808A,
    0x8000000080008000, 0x000000000000808B, 0x0000000080000001,
    0x8000000080008081, 0x8000000000008009, 0x000000000000008A,
    0x0000000000000088, 0x0000000080008009, 0x000000008000000A,
    0x000000008000808B, 0x800000000000008B, 0x8000000000008089,
    0x8000000000008003, 0x8000000000008002, 0x8000000000000080,
    0x000000000000800A, 0x800000008000000A, 0x8000000080008081,
    0x8000000000008080, 0x0000000080000001, 0x8000000080008008]

def iota (round : ℕ) (a : Lanes) : Lanes := fun i =>
  if i = 0 then a 0 ^^^ BitVec.ofNat 64 (constants.getD round 0) else a i

/-- One round. -/
def step (round : ℕ) (a : Lanes) : Lanes := iota round (chi (rhoPi (theta a)))

def keccakF (a : Lanes) : Lanes := loop 24 step a

end Lanes

-- =============================================================== halves

/-- The lane of two words, the low one first. -/
def lane (h l : UInt32) : BitVec 64 := l.toBitVec ++ h.toBitVec

def lanes (s : Words) : Lanes := fun i => lane (load s (2 * i)) (load s (2 * i + 1))

section

variable {h l h' l' : UInt32}

/-- The exclusive or of two lanes is that of their words. -/
theorem lane_xor : lane (h ^^^ h') (l ^^^ l') = lane h l ^^^ lane h' l' := by
  unfold lane
  rw [UInt32.toBitVec_xor, UInt32.toBitVec_xor, BitVec.xor_append]

/-- The conjunction of two lanes is that of their words. -/
theorem lane_and : lane (h &&& h') (l &&& l') = lane h l &&& lane h' l' := by
  unfold lane
  rw [UInt32.toBitVec_and, UInt32.toBitVec_and, BitVec.and_append]

/-- not. -/
theorem lane_not : lane (~~~h) (~~~l) = ~~~lane h l := by
  unfold lane
  rw [UInt32.toBitVec_not, UInt32.toBitVec_not, BitVec.not_append]

/-- A shift of a word to the left is that of its bits, by less than 32. -/
theorem toBitVec_shl (w : UInt32) {k : ℕ} (hk : k < 32) :
    (w <<< k.toUInt32).toBitVec = w.toBitVec <<< k := by
  apply BitVec.eq_of_toNat_eq
  rw [UInt32.toNat_toBitVec, UInt32.toNat_shiftLeft, BitVec.toNat_shiftLeft]
  simp [Nat.mod_eq_of_lt hk]

/-- A shift of a word to the right is that of its bits, by less than 32. -/
theorem toBitVec_shr (w : UInt32) {k : ℕ} (hk : k < 32) :
    (w >>> k.toUInt32).toBitVec = w.toBitVec >>> k := by
  apply BitVec.eq_of_toNat_eq
  rw [UInt32.toNat_toBitVec, UInt32.toNat_shiftRight, BitVec.toNat_ushiftRight]
  simp [Nat.mod_eq_of_lt hk]

/-- The bits of a lane. -/
theorem getLsbD_lane (i : ℕ) : (lane h l).getLsbD i
    = if i < 32 then h.toBitVec.getLsbD i else l.toBitVec.getLsbD (i - 32) := by
  unfold lane
  rw [BitVec.getLsbD_append]

/-- A low half, turned: the code does it one way below half a lane and the
other way above. -/
theorem getLsbD_rotlH {s i : ℕ} (hs : 0 < s ∧ s < 64 ∧ s ≠ 32) (hi : i < 32) :
    (rotlH h l s).toBitVec.getLsbD i = (lane h l).getLsbD ((i + 64 - s) % 64) := by
  unfold rotlH
  rw [getLsbD_lane]
  split
  next hlarge =>
    rw [UInt32.toBitVec_or, toBitVec_shl _ (by omega), toBitVec_shr _ (by omega)]
    simp only [BitVec.getLsbD_or, BitVec.getLsbD_shiftLeft, BitVec.getLsbD_ushiftRight]
    by_cases hlow : i < s - 32
    · have hmod : (i + 64 - s) % 64 = 64 - s + i := by omega
      rw [hmod, if_pos (by omega), decide_eq_true hlow]
      simp
    · have hmod : (i + 64 - s) % 64 = i + 64 - s := by omega
      rw [hmod, if_neg (by omega), decide_eq_false hlow, decide_eq_true hi,
        show i - (s - 32) = i + 64 - s - 32 by omega,
        BitVec.getLsbD_of_ge h.toBitVec _ (show 32 ≤ 64 - s + i by omega)]
      simp
  next hsmall =>
    rw [UInt32.toBitVec_or, toBitVec_shl _ (by omega), toBitVec_shr _ (by omega)]
    simp only [BitVec.getLsbD_or, BitVec.getLsbD_shiftLeft, BitVec.getLsbD_ushiftRight]
    by_cases hlow : i < s
    · have hmod : (i + 64 - s) % 64 = 64 - s + i := by omega
      rw [hmod, if_neg (by omega), decide_eq_true hlow,
        show 64 - s + i - 32 = 32 - s + i by omega]
      simp
    · have hmod : (i + 64 - s) % 64 = i - s := by omega
      rw [hmod, if_pos (by omega), decide_eq_false hlow, decide_eq_true hi,
        BitVec.getLsbD_of_ge l.toBitVec _ (show 32 ≤ 32 - s + i by omega)]
      simp

/-- The high half is the low one of the lane turned by half. -/
theorem getLsbD_rotlL {s i : ℕ} (hs : 0 < s ∧ s < 64 ∧ s ≠ 32) (hi : i < 32) :
    (rotlL h l s).toBitVec.getLsbD i = (lane h l).getLsbD ((i + 96 - s) % 64) := by
  have hswap : rotlL h l s = rotlH l h s := rfl
  rw [hswap, getLsbD_rotlH hs hi, getLsbD_lane, getLsbD_lane]
  by_cases hlow : (i + 64 - s) % 64 < 32
  · rw [if_pos hlow, if_neg (by omega),
      show (i + 96 - s) % 64 - 32 = (i + 64 - s) % 64 by omega]
  · rw [if_neg hlow, if_pos (by omega),
      show (i + 64 - s) % 64 - 32 = (i + 96 - s) % 64 by omega]

/-- **Two words are turned** as the lane is. Below 32 the bits of each word
go on into the other, above that the two change places first; 32 itself is
none of the offsets. -/
theorem lane_rotl {s : ℕ} (hs : 0 < s ∧ s < 64 ∧ s ≠ 32) :
    lane (rotlH h l s) (rotlL h l s) = (lane h l).rotateLeft s := by
  have hmod : s % 64 = s := by omega
  apply BitVec.eq_of_getLsbD_eq
  intro i hi
  rw [BitVec.getLsbD_rotateLeft, hmod, getLsbD_lane]
  by_cases hhalf : i < 32
  · rw [if_pos hhalf, getLsbD_rotlH hs hhalf]
    by_cases hlow : i < s
    · rw [decide_eq_true hlow, cond_true, show (i + 64 - s) % 64 = 64 - s + i by omega]
    · rw [decide_eq_false hlow, cond_false, decide_eq_true hi, Bool.true_and,
        show (i + 64 - s) % 64 = i - s by omega]
  · rw [if_neg hhalf, getLsbD_rotlL hs (by omega)]
    by_cases hlow : i < s
    · rw [decide_eq_true hlow, cond_true,
        show (i - 32 + 96 - s) % 64 = 64 - s + i by omega]
    · rw [decide_eq_false hlow, cond_false, decide_eq_true hi, Bool.true_and,
        show (i - 32 + 96 - s) % 64 = i - s by omega]

end

-- ================================================================ theta

section

variable {s t : Words} {i j k : ℕ} {w : UInt32}

/-- One word of the state is changed, the others are not. -/
theorem load_xorWord (hi : i < 50) : load (xorWord s i w) j
    = if i = j then load s j ^^^ w else load s j := by
  unfold xorWord
  rw [load_store hi]
  split
  next h => rw [h]
  next => rfl

/-- The words of one column, each of its five lanes in turn, are changed by
one pair of words, and no other word is. -/
theorem load_column (hk : k < 5) (v w : UInt32) (j : ℕ) :
    load (loop 5 (fun m t =>
        xorWord (xorWord t (2 * k + 10 * m) v) (2 * k + 10 * m + 1) w) s) j
      = if j < 50 ∧ j % 10 / 2 = k then
          load s j ^^^ (if j % 2 = 0 then v else w)
        else load s j := by
  have hloop := loop_induction (n := 5) (s := s) (b := fun m t =>
      xorWord (xorWord t (2 * k + 10 * m) v) (2 * k + 10 * m + 1) w)
    (P := fun m t => ∀ j, load t j = if j < 10 * m ∧ j % 10 / 2 = k then
        load s j ^^^ (if j % 2 = 0 then v else w) else load s j)
    (fun j => by rw [if_neg (by omega)])
    (by
      intro m hm t ht j
      rw [load_xorWord (by omega), load_xorWord (by omega), ht j]
      by_cases hlow : 2 * k + 10 * m = j
      · rw [if_neg (by omega), if_pos hlow, if_neg (by omega), if_pos (by omega),
          if_pos (by omega)]
      · by_cases hhigh : 2 * k + 10 * m + 1 = j
        · rw [if_pos hhigh, if_neg hlow, if_neg (by omega), if_pos (by omega),
            if_neg (by omega)]
        · rw [if_neg hhigh, if_neg hlow]
          by_cases hbelow : j < 10 * m ∧ j % 10 / 2 = k
          · have hnext : j < 10 * (m + 1) ∧ j % 10 / 2 = k := by omega
            rw [if_pos hbelow, if_pos hnext]
          · have hnext : ¬(j < 10 * (m + 1) ∧ j % 10 / 2 = k) := by omega
            rw [if_neg hbelow, if_neg hnext])
  exact hloop j

/-- The parities of `theta`, word by word. -/
def parityWord (s : Words) (x : ℕ) : UInt32 :=
  load s x ^^^ load s (x + 10) ^^^ load s (x + 20) ^^^ load s (x + 30)
    ^^^ load s (x + 40)

/-- What `theta` puts into the words of a column. -/
def thetaWord (s : Words) (k : ℕ) : UInt32 × UInt32 :=
  (rotlH (parityWord s (2 * ((k + 1) % 5))) (parityWord s (2 * ((k + 1) % 5) + 1)) 1
      ^^^ parityWord s (2 * ((k + 4) % 5)),
    rotlL (parityWord s (2 * ((k + 1) % 5))) (parityWord s (2 * ((k + 1) % 5) + 1)) 1
      ^^^ parityWord s (2 * ((k + 4) % 5) + 1))

/-- The two loops of theta. -/
theorem theta_eq : theta s = loop 5 (fun k t => loop 5 (fun m t =>
      xorWord (xorWord t (2 * k + 10 * m) (thetaWord s k).1) (2 * k + 10 * m + 1)
        (thetaWord s k).2) t) s := by
  have hB : ∀ x < 10, load (Vector.ofFn fun x : Fin 10 => load s x
      ^^^ load s (x + 10) ^^^ load s (x + 20) ^^^ load s (x + 30)
      ^^^ load s (x + 40)) x = parityWord s x := fun x hx => load_ofFn hx
  unfold theta
  apply Lib.loop_congr
  intro k hk t
  dsimp only
  rw [hB _ (by omega), hB _ (by omega), hB _ (by omega), hB _ (by omega),
    show (2 * k + 2) % 10 = 2 * ((k + 1) % 5) by omega,
    show (2 * k + 8) % 10 = 2 * ((k + 4) % 5) by omega]
  rfl

/-- Each word gets that of its column. The parities are all taken before the
first column is changed, so the columns may be changed one after another. -/
theorem load_theta (hj : j < 50) : load (theta s) j = load s j
    ^^^ (if j % 2 = 0 then (thetaWord s (j % 10 / 2)).1
      else (thetaWord s (j % 10 / 2)).2) := by
  have hloop := loop_induction (n := 5) (s := s) (b := fun k t => loop 5 (fun m t =>
      xorWord (xorWord t (2 * k + 10 * m) (thetaWord s k).1) (2 * k + 10 * m + 1)
        (thetaWord s k).2) t)
    (P := fun k t => ∀ j < 50, load t j = if j % 10 / 2 < k then load s j
        ^^^ (if j % 2 = 0 then (thetaWord s (j % 10 / 2)).1
          else (thetaWord s (j % 10 / 2)).2) else load s j)
    (fun j _ => by rw [if_neg (by omega)])
    (by
      intro k hk t ht j hj
      rw [load_column hk, ht j hj]
      by_cases hcol : j % 10 / 2 = k
      · have hnot : ¬j % 10 / 2 < k := by omega
        have hnext : j % 10 / 2 < k + 1 := by omega
        rw [if_pos ⟨hj, hcol⟩, if_neg hnot, if_pos hnext, hcol]
      · rw [if_neg fun h => hcol h.2]
        by_cases hbelow : j % 10 / 2 < k
        · rw [if_pos hbelow, if_pos (Nat.lt_succ_of_lt hbelow)]
        · have hnext : ¬j % 10 / 2 < k + 1 := by omega
          rw [if_neg hbelow, if_neg hnext])
  have hcol : j % 10 / 2 < 5 := by omega
  rw [theta_eq, hloop j hj, if_pos hcol]

/-- The parity of a column is that of its two words. -/
theorem lane_parity (x : ℕ) : lane (parityWord s (2 * x)) (parityWord s (2 * x + 1))
    = Lanes.parity (lanes s) x := by
  unfold parityWord Lanes.parity lanes
  simp only [lane_xor, show 2 * (x + 5) = 2 * x + 10 by omega,
    show 2 * (x + 10) = 2 * x + 20 by omega, show 2 * (x + 15) = 2 * x + 30 by omega,
    show 2 * (x + 20) = 2 * x + 40 by omega, Nat.add_right_comm _ 1]

/-- **Theta on words is theta on lanes**: the parity of a column, and the
one beside it turned by one, are those of the lanes. -/
theorem lanes_theta (hi : i < 25) : lanes (theta s) i = Lanes.theta (lanes s) i := by
  have hcol : 2 * i % 10 / 2 = i % 5 ∧ (2 * i + 1) % 10 / 2 = i % 5 := by omega
  have hsame : (i % 5 + 1) % 5 = (i + 1) % 5 ∧ (i % 5 + 4) % 5 = (i + 4) % 5 := by
    omega
  show lane (load (theta s) (2 * i)) (load (theta s) (2 * i + 1)) = _
  rw [load_theta (by omega), load_theta (by omega), if_pos (by omega),
    if_neg (by omega), hcol.1, hcol.2, lane_xor]
  unfold thetaWord
  rw [hsame.1, hsame.2, lane_xor, lane_rotl ⟨by omega, by omega, by omega⟩,
    lane_parity, lane_parity]
  rfl

-- =========================================================== rho and pi

/-- A lane is stored as two words, the others stay. -/
theorem lanes_store (hi : i < 25) (v w : UInt32) (i' : ℕ) :
    lanes (store (store s (2 * i) v) (2 * i + 1) w) i'
      = if i = i' then lane v w else lanes s i' := by
  unfold lanes
  rw [load_store (by omega), load_store (by omega), load_store (by omega),
    load_store (by omega)]
  by_cases hsame : i = i'
  · subst hsame
    rw [if_neg (by omega), if_pos rfl, if_pos rfl, if_pos rfl]
  · rw [if_neg (by omega), if_neg (by omega), if_neg (by omega), if_neg (by omega),
      if_neg hsame]

/-- The lane that is in hand before a pass. -/
def held (t : ℕ) : ℕ := if t = 0 then 1 else SHA3_PI (t - 1) / 2

/-- The tables are those of rho and pi: each pass comes to another lane,
which takes what is held. -/
theorem table_pass : ∀ t < 24, SHA3_PI t = 2 * (SHA3_PI t / 2)
    ∧ SHA3_PI t / 2 < 25 ∧ Lanes.source (SHA3_PI t / 2) = held t
    ∧ Lanes.offsets.getD (held t) 0 = SHA3_ROTL t
    ∧ (0 < SHA3_ROTL t ∧ SHA3_ROTL t < 64 ∧ SHA3_ROTL t ≠ 32)
    ∧ ∀ u < t, SHA3_PI u / 2 ≠ SHA3_PI t / 2 := by decide +kernel

/-- All lanes but the first are come to. -/
theorem table_lane : ∀ i < 25, i ≠ 0 → ∃ t < 24, SHA3_PI t / 2 = i := by
  decide +kernel

/-- **Rho and pi**, which the program makes in one loop: it walks along the
cycle of pi with one lane in hand, turns it and lays it where the next one
is taken up. -/
theorem lanes_rhoPi (hi : i < 25) : lanes (rhoPi s) i = Lanes.rhoPi (lanes s) i := by
  have hloop := loop_induction (n := 24) (s := (s, load s 2, load s 3))
    (b := fun t (x : Words × UInt32 × UInt32) =>
      (store (store x.1 (SHA3_PI t) (rotlH x.2.1 x.2.2 (SHA3_ROTL t)))
          (SHA3_PI t + 1) (rotlL x.2.1 x.2.2 (SHA3_ROTL t)),
        load x.1 (SHA3_PI t), load x.1 (SHA3_PI t + 1)))
    (P := fun t x => lane x.2.1 x.2.2 = lanes s (held t)
      ∧ ∀ i < 25, ((∃ u < t, SHA3_PI u / 2 = i) →
          lanes x.1 i = Lanes.rhoPi (lanes s) i)
        ∧ ((∀ u < t, SHA3_PI u / 2 ≠ i) → lanes x.1 i = lanes s i))
    (by
      refine ⟨rfl, fun i _ => ⟨?_, fun _ => rfl⟩⟩
      rintro ⟨u, hu, -⟩
      exact absurd hu (Nat.not_lt_zero u))
    (by
      rintro t ht ⟨w, curH, curL⟩ ⟨hheld, hlanes⟩
      obtain ⟨heven, hlt, hsource, hoffset, hrot, hnew⟩ := table_pass t ht
      dsimp only at hheld hlanes ⊢
      have hcur : lane (rotlH curH curL (SHA3_ROTL t)) (rotlL curH curL (SHA3_ROTL t))
          = Lanes.rhoPi (lanes s) (SHA3_PI t / 2) := by
        unfold Lanes.rhoPi
        rw [lane_rotl hrot, hheld, hsource, hoffset]
      constructor
      · have hnext : held (t + 1) = SHA3_PI t / 2 := if_neg (Nat.succ_ne_zero t)
        rw [hnext, ← (hlanes _ hlt).2 hnew]
        unfold lanes
        rw [← heven]
      · intro i hi
        rw [heven, lanes_store hlt]
        constructor
        · rintro ⟨u, hu, hui⟩
          by_cases hsame : SHA3_PI t / 2 = i
          · rw [if_pos hsame, hcur, hsame]
          · rw [if_neg hsame]
            have hut : u ≠ t := by
              rintro rfl
              exact hsame hui
            exact (hlanes i hi).1 ⟨u, by omega, hui⟩
        · intro hnone
          rw [if_neg (hnone t (Nat.lt_succ_self t))]
          exact (hlanes i hi).2 fun u hu => hnone u (by omega))
  by_cases hzero : i = 0
  · subst hzero
    have hfirst := (hloop.2 0 hi).2 (by decide +kernel)
    have hspec : Lanes.rhoPi (lanes s) 0 = lanes s 0 := by
      show (lanes s 0).rotateLeft 0 = _
      apply BitVec.eq_of_getLsbD_eq
      intro i hi
      rw [BitVec.getLsbD_rotateLeft]
      simp [hi]
    rw [hspec]
    exact hfirst
  · exact (hloop.2 i hi).1 (table_lane i hi hzero)

-- ================================================================== chi

/-- The pass of `chi` over a row. -/
def chiRow (s : Words) (y : ℕ) : Words :=
  let b0 := load s y
  let b1 := load s (y + 1)
  let b2 := load s (y + 2)
  let b3 := load s (y + 3)
  let s := loop 6
    (fun i s => xorWord s (y + i)
      (~~~load s (y + i + 2) &&& load s (y + i + 4))) s
  let s := xorWord s (y + 6) (~~~load s (y + 8) &&& b0)
  let s := xorWord s (y + 7) (~~~load s (y + 9) &&& b1)
  let s := xorWord s (y + 8) (~~~b0 &&& b2)
  xorWord s (y + 9) (~~~b1 &&& b3)

/-- The loop of chi over the rows. -/
theorem chi_eq : chi s = loop 5 (fun k t => chiRow t (10 * k)) s := rfl

/-- What `chi` makes of a word. -/
def chiWord (s : Words) (j : ℕ) : UInt32 :=
  load s j ^^^ (~~~load s (j / 10 * 10 + (j + 2) % 10)
    &&& load s (j / 10 * 10 + (j + 4) % 10))

/-- A row is written over while it is read. The first two lanes have been
kept aside, and none of the others is read once it has been written. -/
theorem load_row (hk : k < 5) (j : ℕ) :
    load (chiRow s (10 * k)) j = if j / 10 = k then chiWord s j else load s j := by
  have hfirst := loop_induction (n := 6) (s := s) (b := fun i t =>
      xorWord t (10 * k + i) (~~~load t (10 * k + i + 2) &&& load t (10 * k + i + 4)))
    (P := fun i t => ∀ j, load t j = if 10 * k ≤ j ∧ j < 10 * k + i then
        load s j ^^^ (~~~load s (j + 2) &&& load s (j + 4)) else load s j)
    (fun j => by rw [if_neg (by omega)])
    (by
      intro i hi t ht j
      have hahead : ∀ d, load t (10 * k + i + d) = load s (10 * k + i + d) := by
        intro d
        rw [ht, if_neg (by omega)]
      rw [load_xorWord (by omega), hahead 2, hahead 4]
      by_cases hsame : 10 * k + i = j
      · subst hsame
        rw [if_pos rfl, show load t (10 * k + i) = _ from hahead 0, if_pos (by omega)]
        rfl
      · rw [if_neg hsame, ht j]
        by_cases hbelow : 10 * k ≤ j ∧ j < 10 * k + i
        · rw [if_pos hbelow, if_pos (by omega)]
        · rw [if_neg hbelow, if_neg (by omega)])
  have hword : ∀ r < 10, 10 * k + r = j → chiWord s j = load s (10 * k + r)
      ^^^ (~~~load s (10 * k + (r + 2) % 10) &&& load s (10 * k + (r + 4) % 10)) := by
    rintro r hr rfl
    unfold chiWord
    rw [show (10 * k + r) / 10 * 10 + (10 * k + r + 2) % 10 = 10 * k + (r + 2) % 10 by
        omega,
      show (10 * k + r) / 10 * 10 + (10 * k + r + 4) % 10 = 10 * k + (r + 4) % 10 by
        omega]
  unfold chiRow
  dsimp only
  generalize loop 6 _ s = t at hfirst
  have hlast : ∀ r, 6 ≤ r → load t (10 * k + r) = load s (10 * k + r) := by
    intro r hr
    rw [hfirst, if_neg (by omega)]
  have hbehind : ∀ w, load (xorWord t (10 * k + 6) w) (10 * k + 9)
      = load s (10 * k + 9) := by
    intro w
    rw [load_xorWord (by omega), if_neg (by omega), hlast 9 (by omega)]
  rw [hbehind, hlast 8 (by omega), load_xorWord (by omega), load_xorWord (by omega),
    load_xorWord (by omega), load_xorWord (by omega)]
  by_cases h9 : 10 * k + 9 = j
  · have hrow : j / 10 = k ∧ ¬10 * k + 8 = j ∧ ¬10 * k + 7 = j ∧ ¬10 * k + 6 = j := by
      omega
    rw [if_pos h9, if_neg hrow.2.1, if_neg hrow.2.2.1, if_neg hrow.2.2.2,
      if_pos hrow.1, hword 9 (by omega) h9, ← h9, hlast 9 (by omega)]
  · rw [if_neg h9]
    by_cases h8 : 10 * k + 8 = j
    · have hrow : j / 10 = k ∧ ¬10 * k + 7 = j ∧ ¬10 * k + 6 = j := by omega
      rw [if_pos h8, if_neg hrow.2.1, if_neg hrow.2.2, if_pos hrow.1,
        hword 8 (by omega) h8, ← h8, hlast 8 (by omega)]
      rfl
    · rw [if_neg h8]
      by_cases h7 : 10 * k + 7 = j
      · have hrow : j / 10 = k ∧ ¬10 * k + 6 = j := by omega
        rw [if_pos h7, if_neg hrow.2, if_pos hrow.1, hword 7 (by omega) h7, ← h7,
          hlast 7 (by omega)]
      · rw [if_neg h7]
        by_cases h6 : 10 * k + 6 = j
        · have hrow : j / 10 = k := by omega
          rw [if_pos h6, if_pos hrow, hword 6 (by omega) h6, ← h6, hlast 6 (by omega)]
          rfl
        · rw [if_neg h6, hfirst j]
          by_cases hin : 10 * k ≤ j ∧ j < 10 * k + 6
          · have hrow : j / 10 = k := by omega
            rw [if_pos hin, if_pos hrow, hword (j - 10 * k) (by omega) (by omega),
              show 10 * k + (j - 10 * k) = j by omega,
              show 10 * k + (j - 10 * k + 2) % 10 = j + 2 by omega,
              show 10 * k + (j - 10 * k + 4) % 10 = j + 4 by omega]
          · have hrow : ¬j / 10 = k := by omega
            rw [if_neg hin, if_neg hrow]

/-- Each word of a row gets what its two neighbours make. -/
theorem load_chi (hj : j < 50) : load (chi s) j = chiWord s j := by
  have hloop := loop_induction (n := 5) (s := s) (b := fun k t => chiRow t (10 * k))
    (P := fun k t => ∀ j, load t j = if j / 10 < k then chiWord s j else load s j)
    (fun j => by rw [if_neg (Nat.not_lt_zero _)])
    (by
      intro k hk t ht j
      rw [load_row hk]
      by_cases hrow : j / 10 = k
      · rw [if_pos hrow, if_pos (by omega)]
        unfold chiWord
        rw [ht, ht, ht, if_neg (by omega), if_neg (by omega), if_neg (by omega)]
      · rw [if_neg hrow, ht j]
        by_cases hbelow : j / 10 < k
        · rw [if_pos hbelow, if_pos (Nat.lt_succ_of_lt hbelow)]
        · rw [if_neg hbelow, if_neg (by omega)])
  rw [chi_eq, hloop j, if_pos (by omega)]

/-- **Chi** on words is chi on lanes. -/
theorem lanes_chi (hi : i < 25) : lanes (chi s) i = Lanes.chi (lanes s) i := by
  show lane (load (chi s) (2 * i)) (load (chi s) (2 * i + 1)) = _
  rw [load_chi (by omega), load_chi (by omega)]
  unfold chiWord
  rw [lane_xor, lane_and, lane_not,
    show 2 * i / 10 * 10 + (2 * i + 2) % 10 = 2 * (i / 5 * 5 + (i + 1) % 5) by omega,
    show 2 * i / 10 * 10 + (2 * i + 4) % 10 = 2 * (i / 5 * 5 + (i + 2) % 5) by omega,
    show (2 * i + 1) / 10 * 10 + (2 * i + 1 + 2) % 10
      = 2 * (i / 5 * 5 + (i + 1) % 5) + 1 by omega,
    show (2 * i + 1) / 10 * 10 + (2 * i + 1 + 4) % 10
      = 2 * (i / 5 * 5 + (i + 2) % 5) + 1 by omega]
  rfl

-- =============================================================== rounds

/-- The two halves of the constants of the table are those of the rounds. -/
theorem table_iota : ∀ round < 24, lane (SHA3_IOTA_H round) (SHA3_IOTA_L round)
    = BitVec.ofNat 64 (Lanes.constants.getD round 0) := by decide +kernel

/-- **Iota** changes the first lane, by the constant of the round. -/
theorem lanes_iota {round : ℕ} (hround : round < 24) (i : ℕ) :
    lanes (xorWord (xorWord s 0 (SHA3_IOTA_H round)) 1 (SHA3_IOTA_L round)) i
      = Lanes.iota round (lanes s) i := by
  unfold Lanes.iota
  rw [← table_iota round hround]
  unfold lanes
  rw [load_xorWord (by omega), load_xorWord (by omega), load_xorWord (by omega),
    load_xorWord (by omega)]
  by_cases hi : i = 0
  · subst hi
    rw [if_pos rfl, ← lane_xor]
    rfl
  · rw [if_neg hi, if_neg (by omega), if_neg (by omega), if_neg (by omega),
      if_neg (by omega)]

namespace Lanes

/-- The lanes that there are. -/
def Agree (a b : Lanes) : Prop := ∀ i < 25, a i = b i

variable {a b c : Lanes}

/-- Lanes agree where their first 25 do; that can be chained. -/
theorem Agree.trans (h : Agree a b) (h' : Agree b c) : Agree a c :=
  fun i hi => (h i hi).trans (h' i hi)

/-- Theta looks at those lanes only. -/
theorem Agree.theta (h : Agree a b) : Agree a.theta b.theta := by
  have hparity : ∀ x < 5, parity a x = parity b x := by
    intro x hx
    unfold parity
    rw [h _ (by omega), h _ (by omega), h _ (by omega), h _ (by omega),
      h _ (by omega)]
  intro i hi
  unfold Lanes.theta
  rw [h i hi, hparity _ (by omega), hparity _ (by omega)]

/-- So do rho and pi. -/
theorem Agree.rhoPi (h : Agree a b) : Agree a.rhoPi b.rhoPi := by
  intro i hi
  unfold Lanes.rhoPi
  rw [h _ (by unfold source; omega)]

/-- So does chi. -/
theorem Agree.chi (h : Agree a b) : Agree a.chi b.chi := by
  intro i hi
  unfold Lanes.chi
  rw [h i hi, h _ (by omega), h _ (by omega)]

/-- And so does iota. -/
theorem Agree.iota (h : Agree a b) (round : ℕ) :
    Agree (a.iota round) (b.iota round) := by
  intro i hi
  unfold Lanes.iota
  rw [h i hi, h 0 (by omega)]

end Lanes

/-- **A round on words is a round on lanes**: the four steps, each by its
own lemma. -/
theorem lanes_round {round : ℕ} (hround : round < 24) : Lanes.Agree
    (lanes (xorWord (xorWord (chi (rhoPi (theta s))) 0 (SHA3_IOTA_H round)) 1
      (SHA3_IOTA_L round)))
    (Lanes.step round (lanes s)) := by
  have htheta : Lanes.Agree (lanes (theta s)) (Lanes.theta (lanes s)) :=
    fun _ hi => lanes_theta hi
  have hrhoPi : Lanes.Agree (lanes (rhoPi (theta s))) (Lanes.rhoPi (lanes (theta s))) :=
    fun _ hi => lanes_rhoPi hi
  have hchi : Lanes.Agree (lanes (chi (rhoPi (theta s))))
      (Lanes.chi (lanes (rhoPi (theta s)))) := fun _ hi => lanes_chi hi
  have hiota : Lanes.Agree (lanes (xorWord (xorWord (chi (rhoPi (theta s))) 0
      (SHA3_IOTA_H round)) 1 (SHA3_IOTA_L round)))
      (Lanes.iota round (lanes (chi (rhoPi (theta s))))) :=
    fun i _ => lanes_iota hround i
  have hbefore := hchi.trans (hrhoPi.trans htheta.rhoPi).chi
  exact hiota.trans (hbefore.iota round)

/-- **The permutation of the code is Keccak-f[1600]**, lane by lane, for
every state. The code keeps a lane as two words, walks along the cycle of pi
and looks its offsets up in tables that it has computed itself; the other
side is the formulas of the five steps over lanes of sixty-four bits. -/
theorem keccakP_exact (s : Words) :
    Lanes.Agree (lanes (keccakP s 24)) (Lanes.keccakF (lanes s)) := by
  have hrounds : keccakP s 24 = loop 24 (fun round t => xorWord
      (xorWord (chi (rhoPi (theta t))) 0 (SHA3_IOTA_H round)) 1 (SHA3_IOTA_L round)) s := by
    unfold keccakP
    apply Lib.loop_congr
    intro i _ t
    dsimp only
    rw [Nat.sub_self, Nat.zero_add]
  rw [hrounds]
  refine loop_induction (P := fun round t => Lanes.Agree (lanes t)
    (loop round Lanes.step (lanes s))) (fun _ _ => rfl) ?_
  intro round hround t ht
  exact (lanes_round hround).trans ((((ht.theta).rhoPi).chi).iota round)

end

end KxcoPostQuantum.Vendor.Sha3
