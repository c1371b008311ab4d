/-
The hint of an ML-DSA signature: its encoding, and which bytes are one.

A hint is a vector of rows of zeros and ones. Its bytes are the positions
of the ones, row by row, zeros up to `OMEGA`, and for each row where its
positions end. `Hinted P b h` says so of the bytes `b`.

The decoder accepts the bytes of hints and no others: it returns `h` exactly
if `Hinted P b h` (`hintRows_iff`). The encoder writes them
(`hinted_hintBytes`), and a hint has one encoding only (`Hinted.unique`).
Together, encoding and decoding are inverse to each other
(`hintCoder_writes`, `hintCoder_canonical`).
-/
import KxcoPostQuantum.Vendor.Proofs.DsaCoders
import Mathlib.Data.List.GetD
import Mathlib.Data.List.Sort

namespace KxcoPostQuantum.Vendor.MlDsa

open Lib

-- ================================================================= rows

/-- The positions of the ones of a row. -/
def ones (p : Poly) : List ℕ :=
  (List.range N).filter fun j => decide (get p j ≠ 0)

/-- The positions of the ones of all rows. -/
def onesOf (h : List Poly) : List ℕ := h.flatMap ones

/-- A row of zeros and ones. -/
def Binary (p : Poly) : Prop := ∀ j < N, get p j = 0 ∨ get p j = 1

/-- The places that are listed are those of a coefficient other than
zero. -/
theorem mem_ones {p : Poly} {j : ℕ} : j ∈ ones p ↔ j < N ∧ get p j ≠ 0 := by
  unfold ones
  rw [List.mem_filter, List.mem_range, decide_eq_true_iff]

/-- The places are listed in ascending order. -/
theorem ones_pairwise (p : Poly) : (ones p).Pairwise (· < ·) :=
  List.Pairwise.filter _ List.pairwise_lt_range

/-- The places of two lists of rows are those of the one and then of the
other. -/
theorem onesOf_append (h h' : List Poly) :
    onesOf (h ++ h') = onesOf h ++ onesOf h' := List.flatMap_append

/-- The places of one row are its own. -/
theorem onesOf_singleton (p : Poly) : onesOf [p] = ones p :=
  List.flatMap_singleton _ _

/-- The places of one row more stand behind those of the rows before it. -/
theorem onesOf_take_succ {h : List Poly} {i : ℕ} (hi : i < h.length) :
    onesOf (h.take (i + 1)) = onesOf (h.take i) ++ ones (nth h i) := by
  have hnth : nth h i = h[i] := by
    unfold nth
    rw [List.getD_eq_getElem?_getD, List.getElem?_eq_getElem hi,
      Option.getD_some]
  rw [← List.take_append_getElem hi, onesOf_append, onesOf_singleton, hnth]

/-- Some of the rows have no more places than all. -/
theorem length_onesOf_take_le (h : List Poly) (i : ℕ) :
    (onesOf (h.take i)).length ≤ (onesOf h).length := by
  conv_rhs => rw [← List.take_append_drop i h, onesOf_append]
  rw [List.length_append]
  exact Nat.le_add_right _ _

variable (P : Params)

/-- The bytes are those of the hint. -/
structure Hinted (b : Bytes) (h : List Poly) : Prop where
  rows : h.length = P.K
  binary : ∀ p ∈ h, Binary p
  room : (onesOf h).length ≤ P.OMEGA
  position : ∀ m < P.OMEGA, byteAt b m = (onesOf h).getD m 0
  stop : ∀ i < P.K, byteAt b (P.OMEGA + i) = (onesOf (h.take (i + 1))).length

variable {P} {b b' : Bytes} {h : List Poly}

/-- **A hint has one encoding.** All of its bytes are determined: the
positions, the zeros behind them, and the ends of the rows. -/
theorem Hinted.unique (hb : Hinted P b h) (hb' : Hinted P b' h)
    (hlength : b.length = P.OMEGA + P.K) (hlength' : b'.length = P.OMEGA + P.K) :
    b = b' := by
  apply List.ext_getElem (hlength.trans hlength'.symm)
  intro m hm hm'
  have hbyte : byteAt b m = byteAt b' m := by
    by_cases hlt : m < P.OMEGA
    · rw [hb.position m hlt, hb'.position m hlt]
    · obtain ⟨i, rfl⟩ := Nat.exists_eq_add_of_le (Nat.le_of_not_lt hlt)
      rw [hb.stop i (by omega), hb'.stop i (by omega)]
  unfold byteAt at hbyte
  rw [List.getD_eq_getElem?_getD, List.getD_eq_getElem?_getD,
    List.getElem?_eq_getElem hm, List.getElem?_eq_getElem hm'] at hbyte
  exact UInt8.toNat_inj.mp hbyte

-- ============================================================== reading

/-- The bytes of a row. -/
def segment (b : Bytes) (k n : ℕ) : List ℕ :=
  (List.range n).map fun m => byteAt b (k + m)

/-- One byte more of a segment. -/
theorem segment_succ (k n : ℕ) :
    segment b k (n + 1) = segment b k n ++ [byteAt b (k + n)] := by
  unfold segment
  rw [List.range_succ, List.map_append, List.map_singleton]

/-- A byte is a place in a polynomial. -/
theorem byteAt_lt (b : Bytes) (m : ℕ) : byteAt b m < N := UInt8.toNat_lt _

/-- The pass of `hintRow` over a position. -/
def readPosition (buf : Bytes) (k n : ℕ) (hi : Poly) : Except Unit Poly :=
  let j := k + n
  if k < j ∧ byteAt buf j ≤ byteAt buf (j - 1) then .error ()
  else .ok (set hi (byteAt buf j) 1)

/-- The row with ones at these positions. -/
def Marked (l : List ℕ) (p : Poly) : Prop :=
  ∀ j < N, get p j = if j ∈ l then 1 else 0

/-- One fits in an `Int32Array`. -/
theorem keeps_one : Keeps Int32 1 := keeps_of_abs (by norm_num)

/-- A polynomial can be marked at any places. -/
theorem exists_marked (l : List ℕ) : ∃ p, Marked l p := by
  refine ⟨loop N (fun j p => set p j (if j ∈ l then 1 else 0)) newPoly, ?_⟩
  intro j hj
  have hloop := get_loop_set (a := newPoly)
    (f := fun j _ => if j ∈ l then 1 else 0) le_rfl (fun j _ => by
      apply keeps_of_abs
      split <;> norm_num) j
  rwa [if_pos hj] at hloop

/-- There is one polynomial only that is marked at given places. -/
theorem Marked.unique {l : List ℕ} {p p' : Poly} (hp : Marked l p)
    (hp' : Marked l p') : p = p' := by
  apply ext_get
  intro j hj
  rw [hp j hj, hp' j hj]

/-- Storing a one marks one place more. -/
theorem Marked.set {l : List ℕ} {p : Poly} {x : ℕ} (hp : Marked l p) :
    Marked (l ++ [x]) (set p x 1) := by
  intro j hj
  by_cases hx : x = j
  · subst hx
    rw [get_set hj keeps_one,
      if_pos (List.mem_append_right _ List.mem_cons_self)]
  · rw [get_set_of_ne hx, hp j hj]
    apply if_congr _ rfl rfl
    rw [List.mem_append, List.mem_singleton]
    exact ⟨Or.inl, fun hmem => hmem.resolve_right (Ne.symm hx)⟩

/-- A place is read where it is behind the one before, in its row; then it
is marked. -/
theorem readPosition_ok {k n : ℕ} {p q : Poly} : readPosition b k n q = .ok p
    ↔ (0 < n → byteAt b (k + (n - 1)) < byteAt b (k + n))
      ∧ set q (byteAt b (k + n)) 1 = p := by
  unfold readPosition
  dsimp only
  split
  next hbad =>
    refine iff_of_false (fun hok => by cases hok) fun hok => ?_
    have hlt := hok.1 (by omega)
    rw [show k + n - 1 = k + (n - 1) by omega] at hbad
    omega
  next hgood =>
    constructor
    · intro hok
      refine ⟨?_, Except.ok.inj hok⟩
      intro hn
      rw [show k + n - 1 = k + (n - 1) by omega] at hgood
      omega
    · rintro ⟨-, rfl⟩
      rfl

/-- A byte above the one before it is above all, where these ascend. So the
program, which compares neighbours, checks the whole order. -/
theorem segment_pairwise_succ {k n : ℕ} :
    (segment b k (n + 1)).Pairwise (· < ·)
      ↔ (segment b k n).Pairwise (· < ·)
        ∧ (0 < n → byteAt b (k + (n - 1)) < byteAt b (k + n)) := by
  rw [segment_succ, List.pairwise_append]
  constructor
  · rintro ⟨hpair, -, hall⟩
    refine ⟨hpair, ?_⟩
    intro hn
    apply hall _ _ _ List.mem_cons_self
    exact List.mem_map.mpr ⟨n - 1, List.mem_range.mpr (by omega), rfl⟩
  · rintro ⟨hpair, hlast⟩
    refine ⟨hpair, List.pairwise_singleton _ _, ?_⟩
    intro x hx y hy
    rw [List.mem_singleton.mp hy]
    cases n with
    | zero => cases hx
    | succ n =>
        have hlast := hlast n.succ_pos
        rw [segment_succ, List.pairwise_append] at hpair
        rw [segment_succ] at hx
        rcases List.mem_append.mp hx with hx | hx
        · exact (hpair.2.2 x hx _ List.mem_cons_self).trans hlast
        · rw [List.mem_singleton.mp hx]
          exact hlast

/-- A row is read where its bytes ascend, and then just the slots that they
name are one. By induction over the bytes. -/
theorem readPositions {k n : ℕ} {p : Poly} :
    loopM n (readPosition b k) newPoly = .ok p
      ↔ (segment b k n).Pairwise (· < ·) ∧ Marked (segment b k n) p := by
  induction n generalizing p with
  | zero =>
      have hstart : Marked (segment b k 0) newPoly := fun j _ => get_zeros
      constructor
      · intro hp
        cases hp
        exact ⟨List.Pairwise.nil, hstart⟩
      · rintro ⟨-, hp⟩
        exact congrArg Except.ok (hstart.unique hp)
  | succ n ih =>
      rw [loopM_succ, run_bind_ok, segment_pairwise_succ, segment_succ]
      constructor
      · rintro ⟨q, hq, hp⟩
        obtain ⟨hpair, hmarked⟩ := ih.mp hq
        obtain ⟨hlast, rfl⟩ := readPosition_ok.mp hp
        exact ⟨⟨hpair, hlast⟩, hmarked.set⟩
      · rintro ⟨⟨hpair, hlast⟩, hmarked⟩
        obtain ⟨q, hq⟩ := exists_marked (segment b k n)
        exact ⟨q, ih.mpr ⟨hpair, hq⟩,
          readPosition_ok.mpr ⟨hlast, hq.set.unique hmarked⟩⟩

/-- **A row is read** exactly if its positions are the bytes: the polynomial
is one of zeros and ones, and its ones, in ascending order, are the
segment. -/
theorem hintRow_iff {k stop : ℕ} {p : Poly} : hintRow b k stop = .ok p
    ↔ Binary p ∧ ones p = segment b k (stop - k) := by
  have hread : hintRow b k stop = .ok p
      ↔ (segment b k (stop - k)).Pairwise (· < ·)
        ∧ Marked (segment b k (stop - k)) p := readPositions
  rw [hread]
  generalize hl : segment b k (stop - k) = l
  have hsmall : ∀ j ∈ l, j < N := by
    intro j hj
    rw [← hl] at hj
    obtain ⟨m, -, rfl⟩ := List.mem_map.mp hj
    exact byteAt_lt b _
  constructor
  · rintro ⟨hpair, hmarked⟩
    refine ⟨?_, ?_⟩
    · intro j hj
      rw [hmarked j hj]
      split
      next => exact Or.inr rfl
      next => exact Or.inl rfl
    · apply (ones_pairwise p).eq_of_mem_iff hpair
      intro j
      rw [mem_ones]
      constructor
      · rintro ⟨hj, hne⟩
        rw [hmarked j hj] at hne
        by_contra hmem
        rw [if_neg hmem] at hne
        exact hne rfl
      · intro hj
        refine ⟨hsmall j hj, ?_⟩
        rw [hmarked j (hsmall j hj), if_pos hj]
        exact one_ne_zero
  · rintro ⟨hbinary, rfl⟩
    refine ⟨ones_pairwise p, ?_⟩
    intro j hj
    by_cases hzero : get p j = 0
    · rw [if_neg fun hmem => (mem_ones.mp hmem).2 hzero, hzero]
    · rw [if_pos (mem_ones.mpr ⟨hj, hzero⟩)]
      exact (hbinary j hj).resolve_left hzero

-- ============================================================ all rows

/-- When a list is a segment of the bytes. -/
theorem segment_eq_iff {l : List ℕ} {k n : ℕ} : l = segment b k n
    ↔ l.length = n ∧ ∀ m < n, byteAt b (k + m) = l.getD m 0 := by
  have hlength : (segment b k n).length = n := by
    unfold segment
    rw [List.length_map, List.length_range]
  have hget : ∀ m < n, (segment b k n).getD m 0 = byteAt b (k + m) := by
    intro m hm
    unfold segment
    rw [List.getD_eq_getElem?_getD, List.getElem?_map,
      List.getElem?_range hm]
    rfl
  constructor
  · rintro rfl
    exact ⟨hlength, fun m hm => (hget m hm).symm⟩
  · rintro ⟨hl, hbytes⟩
    apply List.ext_getElem (hl.trans hlength.symm)
    intro m hm hm'
    have hsame := (hbytes m (by omega)).symm.trans (hget m (by omega)).symm
    rwa [List.getD_eq_getElem _ _ hm, List.getD_eq_getElem _ _ hm'] at hsame

/-- The pass of `hintRows` over a row. -/
def readRow (P : Params) (buf : Bytes) (i : ℕ) :
    ℕ × List Poly → Except Unit (ℕ × List Poly) :=
  fun (k, h) => do
    let stop := byteAt buf (P.OMEGA + i)
    if stop < k ∨ P.OMEGA < stop then throw ()
    let hi ← hintRow buf k stop
    return (stop, h ++ [hi])

/-- `hintRows` has read `i` rows, of `k` positions. -/
structure Rows (P : Params) (b : Bytes) (i k : ℕ) (h : List Poly) : Prop where
  rows : h.length = i
  binary : ∀ p ∈ h, Binary p
  count : (onesOf h).length = k
  room : k ≤ P.OMEGA
  position : ∀ m < k, byteAt b m = (onesOf h).getD m 0
  stop : ∀ j < i, byteAt b (P.OMEGA + j) = (onesOf (h.take (j + 1))).length

section

variable {i k k' : ℕ} {h' : List Poly} {p : Poly}

/-- **One row is read** where its end is not in front of its beginning, nor
behind the places there are, and its places ascend. -/
theorem readRow_ok : readRow P b i (k, h) = .ok (k', h')
    ↔ (k ≤ k' ∧ k' ≤ P.OMEGA ∧ byteAt b (P.OMEGA + i) = k')
      ∧ ∃ p, hintRow b k k' = .ok p ∧ h ++ [p] = h' := by
  unfold readRow
  dsimp only
  generalize byteAt b (P.OMEGA + i) = stop
  by_cases hbad : stop < k ∨ P.OMEGA < stop
  · rw [if_pos hbad]
    refine iff_of_false (fun hok => by cases hok) fun hok => ?_
    omega
  · rw [if_neg hbad]
    constructor
    · intro hok
      obtain ⟨p, hp, heq⟩ := run_map_ok.mp hok
      obtain ⟨rfl, rfl⟩ := Prod.mk.inj heq
      exact ⟨by omega, p, hp, rfl⟩
    · rintro ⟨⟨-, -, rfl⟩, p, hp, rfl⟩
      exact run_map_ok.mpr ⟨p, hp, rfl⟩

/-- A row more: it begins where the rows before it end, ends where its own
byte says, and neither goes back nor beyond `OMEGA`. -/
theorem rows_succ : Rows P b (i + 1) k' (h ++ [p])
    ↔ ∃ k, Rows P b i k h
      ∧ (k ≤ k' ∧ k' ≤ P.OMEGA ∧ byteAt b (P.OMEGA + i) = k')
      ∧ hintRow b k k' = .ok p := by
  have hall : onesOf (h ++ [p]) = onesOf h ++ ones p := by
    rw [onesOf_append, onesOf_singleton]
  constructor
  · intro hrows
    have hlength : h.length = i := by
      have hrows := hrows.rows
      rw [List.length_append, List.length_singleton] at hrows
      omega
    have hcount := hrows.count
    have hroom := hrows.room
    have hposition := hrows.position
    rw [hall] at hcount hposition
    rw [List.length_append] at hcount
    have hstop := hrows.stop i i.lt_succ_self
    rw [List.take_of_length_le hrows.rows.le, hall, List.length_append,
      hcount] at hstop
    refine ⟨(onesOf h).length, ?_, ⟨by omega, hroom, hstop⟩,
      hintRow_iff.mpr ⟨hrows.binary p (List.mem_append_right _
        List.mem_cons_self), segment_eq_iff.mpr ⟨by omega, ?_⟩⟩⟩
    · refine ⟨hlength, ?_, rfl, by omega, ?_, ?_⟩
      · intro q hq
        exact hrows.binary q (List.mem_append_left _ hq)
      · intro m hm
        rw [hposition m (by omega), List.getD_append _ _ _ _ hm]
      · intro j hj
        rw [hrows.stop j (by omega), List.take_append_of_le_length (by omega)]
    · intro m hm
      rw [hposition _ (by omega), List.getD_append_right _ _ _ _ (by omega),
        Nat.add_sub_cancel_left]
  · rintro ⟨k, hrows, ⟨hle, hroom, hstop⟩, hp⟩
    obtain ⟨hbinary, hones⟩ := hintRow_iff.mp hp
    obtain ⟨hlength, hbytes⟩ := segment_eq_iff.mp hones
    have hcount := hrows.count
    refine ⟨?_, ?_, ?_, hroom, ?_, ?_⟩
    · rw [List.length_append, hrows.rows]
      rfl
    · intro q hq
      rcases List.mem_append.mp hq with hq | hq
      · exact hrows.binary q hq
      · rw [List.mem_singleton.mp hq]
        exact hbinary
    · rw [hall, List.length_append]
      omega
    · intro m hm
      rw [hall]
      by_cases hlt : m < k
      · rw [List.getD_append _ _ _ _ (by omega)]
        exact hrows.position m hlt
      · rw [List.getD_append_right _ _ _ _ (by omega), hcount,
          ← hbytes (m - k) (by omega)]
        congr 1
        omega
    · intro j hj
      rcases Nat.lt_succ_iff_lt_or_eq.mp hj with hlt | rfl
      · rw [List.take_append_of_le_length (by rw [hrows.rows]; omega)]
        exact hrows.stop j hlt
      · rw [List.take_of_length_le (by
          rw [List.length_append, hrows.rows]
          rfl), hall, List.length_append, hstop]
        omega

/-- **The rows are read one after another**, each from where the one before
it ended. -/
theorem readRows : loopM i (readRow P b) (0, []) = .ok (k, h)
    ↔ Rows P b i k h := by
  induction i generalizing k h with
  | zero =>
      constructor
      · intro hok
        cases hok
        exact ⟨rfl, fun q hq => (by cases hq), rfl, Nat.zero_le _,
          fun m hm => absurd hm (Nat.not_lt_zero m),
          fun j hj => absurd hj (Nat.not_lt_zero j)⟩
      · intro hrows
        obtain rfl := List.length_eq_zero_iff.mp hrows.rows
        obtain rfl := hrows.count
        rfl
  | succ i ih =>
      rw [loopM_succ, run_bind_ok]
      constructor
      · rintro ⟨⟨k', h'⟩, hrest, hrow⟩
        obtain ⟨hstop, p, hp, rfl⟩ := readRow_ok.mp hrow
        exact rows_succ.mpr ⟨k', ih.mp hrest, hstop, hp⟩
      · intro hrows
        have hne : h ≠ [] := List.ne_nil_of_length_eq_add_one hrows.rows
        rw [← List.dropLast_append_getLast hne] at hrows ⊢
        obtain ⟨k', hrest, hstop, hp⟩ := rows_succ.mp hrows
        exact ⟨_, ih.mpr hrest, readRow_ok.mpr ⟨hstop, _, hp, rfl⟩⟩

end

/-- **The decoder accepts the bytes of hints**, and no others. The rows are
read by induction; then what is behind the last position has to be zero, or
one hint would have several encodings. -/
theorem hintRows_iff : hintRows P b = .ok h ↔ Hinted P b h := by
  have hread : hintRows P b = .ok h ↔ ∃ k, Rows P b P.K k h
      ∧ ∀ n < P.OMEGA - k, byteAt b (k + n) = 0 := by
    have heq : hintRows P b = loopM P.K (readRow P b) (0, []) >>= fun s => do
      if (List.range (P.OMEGA - s.1)).any
        fun n => decide (byteAt b (s.1 + n) ≠ 0) then throw ()
      return s.2 := rfl
    rw [heq, run_bind_ok]
    have hzeros : ∀ k, ((List.range (P.OMEGA - k)).any
        fun n => decide (byteAt b (k + n) ≠ 0)) = true
          ↔ ¬∀ n < P.OMEGA - k, byteAt b (k + n) = 0 := by
      intro k
      rw [List.any_eq_true]
      push Not
      apply exists_congr
      intro n
      rw [List.mem_range, decide_eq_true_iff]
    constructor
    · rintro ⟨⟨k, h'⟩, hrows, hrest⟩
      refine ⟨k, ?_⟩
      dsimp only at hrest
      split at hrest
      next => cases hrest
      next hgood =>
        cases hrest
        rw [hzeros, not_not] at hgood
        exact ⟨readRows.mp hrows, hgood⟩
    · rintro ⟨k, hrows, hrest⟩
      refine ⟨(k, h), readRows.mpr hrows, ?_⟩
      dsimp only
      rw [if_neg]
      · rfl
      · rw [hzeros, not_not]
        exact hrest
  rw [hread]
  constructor
  · rintro ⟨k, hrows, hrest⟩
    have hcount := hrows.count
    have hroom := hrows.room
    refine ⟨hrows.rows, hrows.binary, by omega, ?_, hrows.stop⟩
    intro m hm
    by_cases hlt : m < k
    · exact hrows.position m hlt
    · have hzero := hrest (m - k) (by omega)
      rw [Nat.add_sub_cancel' (by omega)] at hzero
      rw [hzero, List.getD_eq_default _ _ (by omega)]
  · intro hb
    have hroom := hb.room
    refine ⟨(onesOf h).length, ⟨hb.rows, hb.binary, rfl, hroom, ?_, hb.stop⟩, ?_⟩
    · intro m hm
      exact hb.position m (by omega)
    · intro n hn
      rw [hb.position _ (by omega), List.getD_eq_default _ _ (by omega)]

-- ============================================================== writing

/-- The pass of `hintBytes` over a coefficient. -/
def writeOne {n : ℕ} (p : Poly) (j : ℕ) :
    ℕ × Vector UInt8 n → ℕ × Vector UInt8 n :=
  fun (k, res) => if get p j ≠ 0 then (k + 1, set res k j) else (k, res)

/-- The pass of `hintBytes` over a row. -/
def writeRow (P : Params) (h : List Poly) (i : ℕ)
    (s : ℕ × Vector UInt8 (P.OMEGA + P.K)) :
    ℕ × Vector UInt8 (P.OMEGA + P.K) :=
  let (k, res) := loop N (writeOne (nth h i)) s
  (k, set res (P.OMEGA + i) k)

/-- The loop over the rows, with the loop over the places of a row for its
body. -/
theorem hintBytes_eq {P : Params} {h : List Poly} :
    hintBytes P h = loop P.K (writeRow P h) (0, zeros UInt8 _) := by
  unfold hintBytes writeRow writeOne
  congr

/-- The positions of the ones below `n`. -/
def onesBelow (p : Poly) (n : ℕ) : List ℕ :=
  (List.range n).filter fun j => decide (get p j ≠ 0)

/-- The places below the next bound. -/
theorem onesBelow_succ (p : Poly) (n : ℕ) : onesBelow p (n + 1)
    = if get p n ≠ 0 then onesBelow p n ++ [n] else onesBelow p n := by
  unfold onesBelow
  rw [List.range_succ, List.filter_append, List.filter_singleton]
  by_cases h : get p n ≠ 0
  · rw [if_pos h, decide_eq_true h]
    rfl
  · rw [if_neg h, decide_eq_false h]
    exact List.append_nil _

/-- There are no more places below a bound than in the row. -/
theorem length_onesBelow_le {p : Poly} {n : ℕ} (hn : n ≤ N) :
    (onesBelow p n).length ≤ (ones p).length :=
  ((List.range_sublist.mpr hn).filter _).length_le

/-- The row has been written behind the first `k` bytes. -/
structure Wrote {M : ℕ} (k : ℕ) (res : Vector UInt8 M) (l : List ℕ)
    (s : ℕ × Vector UInt8 M) : Prop where
  count : s.1 = k + l.length
  position : ∀ m < l.length, get s.2 (k + m) = l.getD m 0
  frame : ∀ m, m < k ∨ k + l.length ≤ m → get s.2 m = get res m

/-- **A row is written** as the places of its ones, where there is room for
them. -/
theorem wrote_ones {M k : ℕ} {res : Vector UInt8 M} {p : Poly}
    (hroom : k + (ones p).length ≤ M) :
    Wrote k res (ones p) (loop N (writeOne p) (k, res)) := by
  have hrun : ∀ n ≤ N,
      Wrote k res (onesBelow p n) (loop n (writeOne p) (k, res)) := by
    intro n
    induction n with
    | zero =>
        intro _
        exact ⟨rfl, fun m hm => absurd hm (Nat.not_lt_zero m), fun _ _ => rfl⟩
    | succ n ih =>
        intro hn
        have hle := length_onesBelow_le (p := p) hn
        have hrest := ih (Nat.le_of_succ_le hn)
        rw [loop_succ, onesBelow_succ]
        rw [onesBelow_succ] at hle
        generalize loop n (writeOne p) (k, res) = s at hrest ⊢
        obtain ⟨k', out⟩ := s
        obtain ⟨hcount, hposition, hframe⟩ := hrest
        dsimp only at hcount hposition hframe
        unfold writeOne
        dsimp only
        by_cases hone : get p n ≠ 0
        · rw [if_pos hone] at hle
          rw [if_pos hone, if_pos hone]
          rw [List.length_append, List.length_singleton] at hle
          have hkeeps : Keeps UInt8 (n : ℤ) :=
            ⟨Int.natCast_nonneg n, show (n : ℤ) ≤ 2 ^ 8 - 1 by unfold N at hn; omega⟩
          refine ⟨?_, ?_, ?_⟩
          · rw [List.length_append, List.length_singleton]
            dsimp only
            omega
          · intro m hm
            rw [List.length_append, List.length_singleton] at hm
            dsimp only
            rcases Nat.lt_succ_iff_lt_or_eq.mp hm with hlt | rfl
            · rw [get_set_of_ne (by omega), List.getD_append _ _ _ _ hlt]
              exact hposition m hlt
            · rw [hcount, get_set (by omega) hkeeps,
                List.getD_append_right _ _ _ _ le_rfl, Nat.sub_self]
              rfl
          · intro m hm
            rw [List.length_append, List.length_singleton] at hm
            dsimp only
            rw [get_set_of_ne (by omega)]
            exact hframe m (by omega)
        · rw [if_neg hone, if_neg hone]
          exact ⟨hcount, hposition, hframe⟩
  exact hrun N le_rfl

/-- The bytes of an array are its slots. -/
theorem byteAt_toList {n : ℕ} (out : Vector UInt8 n) (m : ℕ) :
    (byteAt out.toList m : ℤ) = get out m :=
  congrArg Int.ofNat (congrFun (listBytes_toList out) m)

/-- **The encoder writes the bytes of the hint**, where there is room: the
positions of the ones, row after row, zeros behind them, and where each row
ends. -/
theorem hinted_hintBytes (homega : P.OMEGA < 2 ^ 8) (hrows : h.length = P.K)
    (hbinary : ∀ p ∈ h, Binary p) (hroom : (onesOf h).length ≤ P.OMEGA) :
    Hinted P (hintBytes P h).2.toList h := by
  have hrun := loop_induction (n := P.K) (b := writeRow P h)
    (s := (0, zeros UInt8 _))
    (P := fun i s => s.1 = (onesOf (h.take i)).length
      ∧ (∀ m < P.OMEGA, get s.2 m = (onesOf (h.take i)).getD m 0)
      ∧ ∀ j < i, get s.2 (P.OMEGA + j) = (onesOf (h.take (j + 1))).length)
    ⟨rfl, fun m _ => get_zeros, fun j hj => absurd hj (Nat.not_lt_zero j)⟩
    (by
      rintro i hi ⟨k, res⟩ ⟨hcount, hposition, hstop⟩
      dsimp only at hcount hposition hstop
      have hle := length_onesOf_take_le h (i + 1)
      have hsucc := onesOf_take_succ (h := h) (i := i) (by omega)
      rw [hsucc, List.length_append, ← hcount] at hle
      have hwrote : Wrote k res (ones (nth h i))
          (loop N (writeOne (nth h i)) (k, res)) := wrote_ones (by omega)
      unfold writeRow
      generalize loop N (writeOne (nth h i)) (k, res) = t at hwrote ⊢
      obtain ⟨k', res'⟩ := t
      obtain ⟨hcount', hposition', hframe⟩ := hwrote
      dsimp only at hcount' hposition' hframe ⊢
      have hkeeps : Keeps UInt8 (k' : ℤ) :=
        ⟨Int.natCast_nonneg _, show (k' : ℤ) ≤ 2 ^ 8 - 1 by omega⟩
      refine ⟨?_, ?_, ?_⟩
      · rw [hsucc, List.length_append, hcount', hcount]
      · intro m hm
        rw [get_set_of_ne (by omega), hsucc]
        by_cases hlt : m < k
        · rw [hframe m (Or.inl hlt), List.getD_append _ _ _ _ (by omega)]
          exact hposition m hm
        · rw [List.getD_append_right _ _ _ _ (by omega), ← hcount]
          obtain ⟨n, rfl⟩ := Nat.exists_eq_add_of_le (Nat.le_of_not_lt hlt)
          rw [Nat.add_sub_cancel_left]
          by_cases hn : n < (ones (nth h i)).length
          · exact hposition' n hn
          · rw [hframe _ (Or.inr (by omega)), hposition _ hm,
              List.getD_eq_default _ _ (by omega),
              List.getD_eq_default _ _ (by omega)]
      · intro j hj
        rcases Nat.lt_succ_iff_lt_or_eq.mp hj with hlt | rfl
        · rw [get_set_of_ne (by omega), hframe _ (Or.inr (by omega))]
          exact hstop j hlt
        · rw [get_set (by omega) hkeeps, hsucc, List.length_append, hcount',
            hcount])
  rw [← hintBytes_eq] at hrun
  obtain ⟨-, hposition, hstop⟩ := hrun
  have hbyte := byteAt_toList (hintBytes P h).2
  refine ⟨hrows, hbinary, hroom, ?_, ?_⟩
  · intro m hm
    have hsame := (hbyte m).trans (hposition m hm)
    rw [List.take_of_length_le hrows.le] at hsame
    exact_mod_cast hsame
  · intro j hj
    exact_mod_cast (hbyte _).trans (hstop j hj)

-- =========================================================== round trips

/-- A hint has one length, however many ones it has. -/
theorem length_hintBytes :
    (hintBytes P h).2.toList.length = (hintCoder P).bytesLen :=
  Vector.length_toList

/-- A hint is written and read back. -/
theorem hintCoder_writes (homega : P.OMEGA < 2 ^ 8) (hrows : h.length = P.K)
    (hbinary : ∀ p ∈ h, Binary p) (hroom : (onesOf h).length ≤ P.OMEGA) :
    (hintCoder P).Writes (some h) (hintBytes P h).2.toList := by
  refine ⟨rfl, length_hintBytes, ?_⟩
  have hread := hintRows_iff.mpr (hinted_hintBytes homega hrows hbinary hroom)
  unfold hintCoder
  simp only [hread]
  rfl

/-- **A hint that is accepted** has the form the standard gives it, with
nothing behind its last position. -/
theorem hintCoder_decode (hdecode : (hintCoder P).decode b = .ok (some h)) :
    Hinted P b h := by
  have hrows : (hintRows P b).toOption = some h := Except.ok.inj hdecode
  cases hresult : hintRows P b with
  | error e =>
      rw [hresult] at hrows
      cases hrows
  | ok h' =>
      rw [hresult] at hrows
      cases hrows
      exact hintRows_iff.mp hresult

/-- Bytes that are read as a hint are those it is written as. -/
theorem hintCoder_canonical (homega : P.OMEGA < 2 ^ 8) :
    (hintCoder P).CanonicalAt (some h) := by
  intro b hlength hdecode
  have hb := hintCoder_decode hdecode
  have hwritten := hinted_hintBytes homega hb.rows hb.binary hb.room
  exact congrArg Except.ok (hwritten.unique hb length_hintBytes hlength)

/-- **Which bytes are a hint, and of what**: exactly those that some rows of
zeros and ones, not too many of them ones, are written as. So decoding is
the inverse of encoding, and no bytes but those that are written are
accepted: the order of the positions and the zeros behind them are
checked. -/
theorem hintCoder_exact (set : ParamSet) (b : Bytes) (h : List Poly) :
    b.length = (hintCoder (PARAMS set)).bytesLen
        ∧ (hintCoder (PARAMS set)).decode b = .ok (some h)
      ↔ (h.length = (PARAMS set).K ∧ (∀ p ∈ h, Binary p)
          ∧ (onesOf h).length ≤ (PARAMS set).OMEGA)
        ∧ (hintCoder (PARAMS set)).encode (some h) = .ok b := by
  have homega : (PARAMS set).OMEGA < 2 ^ 8 := by cases set <;> decide
  constructor
  · rintro ⟨hlength, hdecode⟩
    have hb := hintCoder_decode hdecode
    exact ⟨⟨hb.rows, hb.binary, hb.room⟩,
      hintCoder_canonical homega b hlength hdecode⟩
  · rintro ⟨⟨hrows, hbinary, hroom⟩, hencode⟩
    have hwrites := hintCoder_writes homega hrows hbinary hroom
    obtain rfl := Except.ok.inj (hencode.symm.trans hwrites.encode)
    exact ⟨hwrites.length, hwrites.decode⟩

/-- **No key and no signature has two encodings**: bytes that are read are
those that what is read is written as. The coders they are made of pass the
check of the carry shape. -/
theorem encodings_canonical (set : ParamSet) :
    (∀ d ≤ 24, ∀ compress verify, bitsCoder d (coefCoder compress verify)
      = .ok (polyCoder d compress verify))
    ∧ (publicCoder (PARAMS set)).Canonical ∧ (secretCoder (PARAMS set)).Canonical
      ∧ ∀ cTilde z h,
        (sigCoder (PARAMS set)).CanonicalAt (cTilde, z, some h, ()) := by
  have homega : (PARAMS set).OMEGA < 2 ^ 8 := by cases set <;> decide
  have heta := fun n => vecCoder_canonical (eta_involutive (PARAMS set)).canonical n
  refine ⟨?_, ?_, ?_, ?_⟩
  · intro d hd compress verify
    rw [bitsCoder_ok hd, polyCoder_eq]
  · rintro ⟨rho, t1, ⟨⟩⟩
    exact splitCoder_canonical
      ⟨vecCoder_canonical t1_involutive.canonical _ _, trivial⟩
  · rintro ⟨rho, K_, tr, s1, s2, t0, ⟨⟩⟩
    exact splitCoder_canonical ⟨heta _ _, heta _ _,
      vecCoder_canonical t0_involutive.canonical _ _, trivial⟩
  · intro cTilde z h
    exact splitCoder_canonical
      ⟨vecCoder_canonical (z_involutive (PARAMS set)).canonical _ _,
        hintCoder_canonical homega, trivial⟩

end KxcoPostQuantum.Vendor.MlDsa
