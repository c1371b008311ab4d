/-
The class of sha3.js is a sponge.

# A run

`update` absorbs its data byte by byte, whether it takes bytes or the words
of a block, and wherever the data has been cut (`updateLoop_absorbs`).
`finish` absorbs the padding (`finish_absorbs`). What is read then is the
stream of the sponge, in pieces of any length (`writeLoop_stream`).

# What is invariant

`pos` is where the next byte goes, in front of the end of a block, and the
state is that of the sponge after all that was absorbed. Once finished the
hash counts what it has given instead, from a position that may be the
end of the block, where it permutes before it goes on. `Holds` says the
first of an object, `Reads` the second, and each method is a step from one
of them to the next.

# The functions

The wrappers make a new hash for each call, so what they return is the
stream of the sponge over their argument (`hashes_run`); that is what the
lattice schemes were given as functions.
-/
import KxcoPostQuantum.Lib.Sponge
import KxcoPostQuantum.Vendor.Sha3
import KxcoPostQuantum.Vendor.Crystals

namespace KxcoPostQuantum.Vendor.Sha3

open Lib (loop load store load_store load_of_lt ext_load)

-- =============================================================== words

/-- The bytes of an exclusive or are those of the words, taken together. -/
theorem byteOf_xor (v w : UInt32) (k : ℕ) :
    byteOf (v ^^^ w) k = byteOf v k ^^^ byteOf w k := by
  unfold byteOf
  apply UInt8.toBitVec_inj.mp
  rw [UInt8.toBitVec_xor, UInt32.toBitVec_xor, BitVec.extractLsb'_xor]

/-- The bits of a byte of a word. -/
theorem getLsbD_byteOf (w : UInt32) (k : ℕ) {i : ℕ} (hi : i < 8) :
    (byteOf w k).toBitVec.getLsbD i = w.toBitVec.getLsbD (8 * k + i) := by
  unfold byteOf
  rw [BitVec.getLsbD_extractLsb', decide_eq_true hi, Bool.true_and]

/-- A word is made of its four bytes, the lowest first. -/
theorem byteOf_wordOf (b0 b1 b2 b3 : UInt8) : byteOf (wordOf b0 b1 b2 b3) 0 = b0
    ∧ byteOf (wordOf b0 b1 b2 b3) 1 = b1 ∧ byteOf (wordOf b0 b1 b2 b3) 2 = b2
    ∧ byteOf (wordOf b0 b1 b2 b3) 3 = b3 := by
  refine ⟨?_, ?_, ?_, ?_⟩ <;>
    refine UInt8.toBitVec_inj.mp (BitVec.eq_of_getLsbD_eq fun i hi => ?_) <;>
    rw [getLsbD_byteOf _ _ hi] <;>
    unfold wordOf <;>
    simp only [BitVec.getLsbD_append]
  · rw [if_pos (by omega), Nat.mul_zero, Nat.zero_add]
  · rw [if_neg (by omega), if_pos (by omega), show 8 * 1 + i - 8 = i by omega]
  · rw [if_neg (by omega), if_neg (by omega), if_pos (by omega),
      show 8 * 2 + i - 8 - 8 = i by omega]
  · rw [if_neg (by omega), if_neg (by omega), if_neg (by omega),
      show 8 * 3 + i - 8 - 8 - 8 = i by omega]

section

variable {s : State} {i : ℕ} {w : UInt32}

/-- One byte of the state is changed, the others are not. -/
theorem load_xorByte (hi : i < 200) (b : UInt8) (j : ℕ) :
    load (xorByte s i b) j = if i = j then load s j ^^^ b else load s j := by
  unfold xorByte
  rw [load_store hi]
  split
  next h => rw [h]
  next => rfl

/-- A zero byte changes nothing. -/
theorem xorByte_zero : xorByte s i 0 = s := by
  apply ext_load
  intro j hj
  unfold xorByte
  by_cases hi : i < 200
  · rw [load_store hi, UInt8.xor_zero]
    split
    next h => rw [h]
    next => rfl
  · unfold load store
    rw [Vector.getElem?_setIfInBounds, if_neg (by omega)]

/-- Bytes that are put in the same place add up. -/
theorem xorByte_xorByte (hi : i < 200) (a b : UInt8) :
    xorByte (xorByte s i a) i b = xorByte s i (a ^^^ b) := by
  apply ext_load
  intro j _
  unfold xorByte
  rw [load_store hi, load_store hi, load_store hi, load_store hi, if_pos rfl,
    UInt8.xor_assoc]
  split <;> rfl

/-- Bytes are put in one after another, wherever they are cut. -/
theorem xorBytes_append (l l' : Bytes) :
    xorBytes s i (l ++ l') = xorBytes (xorBytes s i l) (i + l.length) l' := by
  induction l generalizing s i with
  | nil => rfl
  | cons b l ih =>
      show xorBytes (xorByte s i b) (i + 1) (l ++ l') = _
      rw [ih, List.length_cons, Nat.add_right_comm, Nat.add_assoc]
      rfl

/-- Zero bytes change nothing. -/
theorem xorBytes_zero (n : ℕ) : xorBytes s i (List.replicate n 0) = s := by
  induction n generalizing i with
  | zero => rfl
  | succ n ih =>
      rw [List.replicate_succ]
      show xorBytes (xorByte s i 0) (i + 1) _ = s
      rw [xorByte_zero, ih]

/-- **A word** is put in as its bytes are: the program reads four bytes as a
number, adds it to a word of the state, and the bytes of that are as if each
had been added. -/
theorem setWord_xor (hi : 4 * i + 4 ≤ 200) (b0 b1 b2 b3 : UInt8) :
    setWord s i (word s i ^^^ wordOf b0 b1 b2 b3)
      = xorBytes s (4 * i) [b0, b1, b2, b3] := by
  obtain ⟨h0, h1, h2, h3⟩ := byteOf_wordOf b0 b1 b2 b3
  obtain ⟨g0, g1, g2, g3⟩ := byteOf_wordOf (load s (4 * i)) (load s (4 * i + 1))
    (load s (4 * i + 2)) (load s (4 * i + 3))
  have hstores : setWord s i (word s i ^^^ wordOf b0 b1 b2 b3)
      = store (store (store (store s (4 * i) (load s (4 * i) ^^^ b0))
        (4 * i + 1) (load s (4 * i + 1) ^^^ b1))
        (4 * i + 2) (load s (4 * i + 2) ^^^ b2))
        (4 * i + 3) (load s (4 * i + 3) ^^^ b3) := by
    have hloop : ∀ w, setWord s i w = store (store (store (store s (4 * i)
        (byteOf w 0)) (4 * i + 1) (byteOf w 1)) (4 * i + 2) (byteOf w 2))
        (4 * i + 3) (byteOf w 3) := fun _ => rfl
    rw [hloop, byteOf_xor, byteOf_xor, byteOf_xor, byteOf_xor, h0, h1, h2, h3]
    unfold word
    rw [g0, g1, g2, g3]
  have hbytes : xorBytes s (4 * i) [b0, b1, b2, b3] = xorByte (xorByte (xorByte
      (xorByte s (4 * i) b0) (4 * i + 1) b1) (4 * i + 2) b2) (4 * i + 3) b3 := rfl
  rw [hstores, hbytes]
  apply ext_load
  intro j _
  rw [load_xorByte (by omega), load_xorByte (by omega), load_xorByte (by omega),
    load_xorByte (by omega), load_store (by omega), load_store (by omega),
    load_store (by omega), load_store (by omega)]
  by_cases hj3 : 4 * i + 3 = j
  · subst hj3
    simp
  · by_cases hj2 : 4 * i + 2 = j
    · subst hj2
      simp
    · by_cases hj1 : 4 * i + 1 = j
      · subst hj1
        simp
      · by_cases hj0 : 4 * i = j
        · subst hj0
          simp
        · simp [hj0, hj1, hj2, hj3]

/-- The words of a block are put in as its bytes are, by induction over the
words. -/
theorem xorWords_eq {l : Bytes} (hmod : l.length % 4 = 0)
    (hfit : 4 * i + l.length ≤ 200) : xorWords s i l = xorBytes s (4 * i) l := by
  induction s, i, l using xorWords.induct with
  | case1 s i b0 b1 b2 b3 rest ih =>
      rw [List.length_cons, List.length_cons, List.length_cons,
        List.length_cons] at hmod hfit
      rw [xorWords, ih (by omega) (by omega), setWord_xor (by omega)]
      rfl
  | case2 l s i hshort =>
      have hnil : l = [] := by
        by_contra hne
        have hlength := List.length_pos_iff.mpr hne
        obtain ⟨b0, l0, rfl⟩ := List.exists_cons_of_length_pos hlength
        rw [List.length_cons] at hmod
        obtain ⟨b1, l1, rfl⟩ := List.exists_cons_of_length_pos (l := l0) (by omega)
        rw [List.length_cons] at hmod
        obtain ⟨b2, l2, rfl⟩ := List.exists_cons_of_length_pos (l := l1) (by omega)
        rw [List.length_cons] at hmod
        obtain ⟨b3, rest, rfl⟩ := List.exists_cons_of_length_pos (l := l2) (by omega)
        exact hshort b0 b1 b2 b3 rest rfl
      subst hnil
      rfl

end

-- ========================================================== absorbing

/-- A block has at least one byte. -/
theorem Options.blockLen_pos (o : Options) : 0 < o.blockLen := o.blockLen_range.1

/-- The sponge of a state of 200 bytes. -/
def sponge (o : Options) : Lib.Sponge State UInt8 where
  rate := o.blockLen
  rate_pos := o.blockLen_pos
  permute := permute o.rounds
  inject := xorByte
  read := fun s i => load s i

variable {o : Options}

/-- What the sponge injects is put in as bytes. -/
theorem injectAll_eq (s : State) (i : ℕ) (l : Bytes) :
    (sponge o).injectAll s i l = xorBytes s i l := by
  induction l generalizing s i with
  | nil => rfl
  | cons b l ih => exact ih _ _

/-- The permutation of the sponge is that of the options. -/
theorem sponge_permute (s : State) :
    (sponge o).permute s = permute o.rounds s := rfl

/-- `keccak` permutes the state. -/
theorem keccak_state (c : Keccak o) (s : State) :
    (c.keccak s).state = permute o.rounds s := rfl

/-- It starts again at the first byte for what is put in. -/
theorem keccak_pos (c : Keccak o) (s : State) : (c.keccak s).pos = 0 := rfl

/-- It starts again at the first byte for what is taken out. -/
theorem keccak_posOut (c : Keccak o) (s : State) : (c.keccak s).posOut = 0 := rfl

/-- It leaves the flag `finished` as it is. -/
theorem keccak_finished (c : Keccak o) (s : State) :
    (c.keccak s).finished = c.finished := by
  simp only [Keccak.keccak]

/-- It leaves the flag `destroyed` as it is. -/
theorem keccak_destroyed (c : Keccak o) (s : State) :
    (c.keccak s).destroyed = c.destroyed := by
  simp only [Keccak.keccak]

/-- Data has been absorbed between two states of the object. -/
structure Absorbs (c : Keccak o) (l : Bytes) (c' : Keccak o) : Prop where
  state : (c'.state, c'.pos) = (sponge o).absorb (c.state, c.pos) l
  posOut : c.posOut = 0 → c'.posOut = 0
  finished : c'.finished = c.finished
  destroyed : c'.destroyed = c.destroyed

namespace Absorbs

variable {c c' c'' : Keccak o} {l l' : Bytes}

/-- Nothing is absorbed of no data. -/
theorem nil : Absorbs c [] c := ⟨rfl, fun h => h, rfl, rfl⟩

/-- Data may be absorbed in two parts. -/
theorem append (h : Absorbs c l c') (h' : Absorbs c' l' c'') :
    Absorbs c (l ++ l') c'' where
  state := by rw [Lib.Sponge.absorb_append, ← h.state, h'.state]
  posOut := fun hc => h'.posOut (h.posOut hc)
  finished := h'.finished.trans h.finished
  destroyed := h'.destroyed.trans h.destroyed

/-- A full block, put in by bytes. -/
theorem block (hl : c.pos + l.length = o.blockLen) :
    Absorbs c l (c.keccak (xorBytes c.state c.pos l)) := by
  have hfull := Lib.Sponge.absorb_full (sponge o) (s := c.state) (i := c.pos)
    (l := l) hl c.pos_lt
  rw [injectAll_eq, sponge_permute] at hfull
  refine ⟨?_, ?_, ?_, ?_⟩
  · rw [keccak_state, keccak_pos]
    exact hfull.symm
  · exact fun _ => keccak_posOut c _
  · exact keccak_finished c _
  · exact keccak_destroyed c _

/-- Bytes that are taken into the block. -/
theorem taken {n : ℕ} (hn : l.length = n) (h : c.pos + n ≤ o.blockLen) :
    Absorbs c l (c.taken (xorBytes c.state c.pos l) n h) := by
  unfold Keccak.taken
  by_cases hfull : c.pos + n = o.blockLen
  · rw [dif_pos hfull]
    exact block (hn.symm ▸ hfull)
  · rw [dif_neg hfull]
    refine ⟨?_, fun h => h, rfl, rfl⟩
    have hshort : c.pos + l.length < (sponge o).rate := by
      rw [hn]
      exact lt_of_le_of_ne h hfull
    rw [Lib.Sponge.absorb_short _ hshort, injectAll_eq, hn]

end Absorbs

/-- **`update` absorbs its data**, however it reads it: word by word where
the data is aligned, byte by byte where it is not, and in either case with
the permutation behind each full block. -/
theorem updateLoop_absorbs (canUseU32 : Bool)
    (hcan : canUseU32 = true → o.blockLen % 4 = 0) (n pos : ℕ) (rest : Bytes)
    (c : Keccak o) (hn : rest.length ≤ n) :
    Absorbs c rest (Keccak.updateLoop canUseU32 pos rest c) := by
  induction n generalizing pos rest c with
  | zero =>
      have hrest := Nat.le_zero.mp hn
      rw [Keccak.updateLoop, dif_pos hrest]
      obtain rfl := List.length_eq_zero_iff.mp hrest
      exact Absorbs.nil
  | succ n ih =>
      rw [Keccak.updateLoop]
      by_cases hrest : rest.length = 0
      · rw [dif_pos hrest]
        obtain rfl := List.length_eq_zero_iff.mp hrest
        exact Absorbs.nil
      · have hrange := o.blockLen_range
        rw [dif_neg hrest]
        by_cases hfast : canUseU32 = true ∧ c.pos = 0 ∧ pos % 4 = 0
            ∧ o.blockLen ≤ rest.length
        · -- the words of a block
          obtain ⟨hu32, hpos, hmod, hblock⟩ := hfast
          have hlength : (rest.take o.blockLen).length = o.blockLen := by
            rw [List.length_take, Nat.min_eq_left hblock]
          have hwords : xorWords c.state 0 (rest.take o.blockLen)
              = xorBytes c.state c.pos (rest.take o.blockLen) := by
            rw [xorWords_eq (by rw [hlength]; exact hcan hu32)
              (by rw [hlength]; omega), hpos]
          have hstep : Absorbs c (rest.take o.blockLen)
              (c.keccak (xorWords c.state 0 (rest.take o.blockLen))) := by
            rw [hwords]
            exact Absorbs.block (by omega)
          have hnext := hstep.append (ih (pos + o.blockLen)
            (rest.drop o.blockLen) _ (by rw [List.length_drop]; omega))
          rw [List.take_append_drop] at hnext
          rw [if_pos ⟨hu32, hpos, hmod, hblock⟩]
          exact hnext
        · -- as many bytes as there is room for
          have hlt := c.pos_lt
          have hlength : (rest.take (min (o.blockLen - c.pos) rest.length)).length
              = min (o.blockLen - c.pos) rest.length := by
            rw [List.length_take]
            omega
          have hstep := Absorbs.taken (c := c) hlength (by omega)
          have hnext := hstep.append (ih
            (pos + min (o.blockLen - c.pos) rest.length)
            (rest.drop (min (o.blockLen - c.pos) rest.length)) _
            (by rw [List.length_drop]; omega))
          rw [List.take_append_drop] at hnext
          rw [if_neg hfast]
          exact hnext

-- =========================================================== finishing

/-- What is absorbed behind the message, at the position it ends at: the
suffix, and a bit at the end of the block. -/
def padding (o : Options) (p : ℕ) : Bytes :=
  if p + 1 < o.blockLen then
    [o.suffix] ++ (List.replicate (o.blockLen - p - 2) 0 ++ [0x80])
  else if o.suffix &&& 0x80 ≠ 0 then
    [o.suffix] ++ (List.replicate (o.blockLen - 1) 0 ++ [0x80])
  else [o.suffix ^^^ 0x80]

/-- One byte on its own. -/
theorem xorBytes_one (s : State) (i : ℕ) (b : UInt8) :
    xorBytes s i [b] = xorByte s i b := rfl

/-- Zeros, and a byte at the end. -/
theorem xorBytes_last (s : State) (i n : ℕ) (b : UInt8) :
    xorBytes s i (List.replicate n 0 ++ [b]) = xorByte s (i + n) b := by
  rw [xorBytes_append, xorBytes_zero, List.length_replicate, xorBytes_one]

/-- Bytes that fill the block. -/
theorem absorb_block {s : State} {p : ℕ} {l : Bytes} (hp : p < o.blockLen)
    (hl : p + l.length = o.blockLen) :
    (sponge o).absorb (s, p) l = (permute o.rounds (xorBytes s p l), 0) := by
  rw [Lib.Sponge.absorb_full (sponge o) hl hp, injectAll_eq, sponge_permute]

/-- **The padding is absorbed** by what `finish` does: the suffix at the
place that was reached, the last bit at the end of the block, and a
permutation between where the suffix ends on that bit. -/
theorem absorb_padding (s : State) {p : ℕ} (hp : p < o.blockLen) :
    (sponge o).absorb (s, p) (padding o p) = (permute o.rounds (xorByte
      (if o.suffix &&& 0x80 ≠ 0 ∧ p = o.blockLen - 1 then
        permute o.rounds (xorByte s p o.suffix)
      else xorByte s p o.suffix) (o.blockLen - 1) 0x80), 0) := by
  have hrange := o.blockLen_range
  unfold padding
  by_cases hroom : p + 1 < o.blockLen
  · rw [if_pos hroom, if_neg fun h => by omega, absorb_block hp (by
        rw [List.length_append, List.length_append, List.length_replicate,
          List.length_singleton, List.length_singleton]
        omega),
      xorBytes_append, xorBytes_last, xorBytes_one, List.length_singleton,
      show p + 1 + (o.blockLen - p - 2) = o.blockLen - 1 by omega]
  · have hlast : p = o.blockLen - 1 := by omega
    rw [if_neg hroom]
    by_cases hbit : o.suffix &&& 0x80 ≠ 0
    · -- the suffix takes the last bit, which goes to a block of its own
      rw [if_pos hbit, if_pos ⟨hbit, hlast⟩, Lib.Sponge.absorb_append,
        absorb_block hp (by rw [List.length_singleton]; omega),
        absorb_block hrange.1 (by
          rw [List.length_append, List.length_replicate, List.length_singleton]
          omega),
        xorBytes_last, xorBytes_one, Nat.zero_add]
    · rw [if_neg hbit, if_neg fun h => hbit h.1,
        absorb_block hp (by rw [List.length_singleton]; omega), xorBytes_one,
        ← hlast, xorByte_xorByte (by omega)]

section

variable {c : Keccak o} {s : State} {n : ℕ}

/-- The state is that of the sponge behind the padding. -/
theorem finish_state (hfin : c.finished = false) : c.finish.state
    = ((sponge o).absorb (c.state, c.pos) (padding o c.pos)).1 := by
  rw [absorb_padding _ c.pos_lt]
  simp only [Keccak.finish, Keccak.keccak, hfin, Bool.false_eq_true, if_false]

/-- Finishing twice is finishing once. -/
theorem finish_of_finished (hfin : c.finished = true) : c.finish = c := by
  unfold Keccak.finish
  rw [if_pos hfin]

/-- Finishing sets its flag, and what is read next is the first byte of a
block. -/
theorem finish_flags (hfin : c.finished = false) : c.finish.posOut = 0
    ∧ c.finish.finished = true ∧ c.finish.destroyed = c.destroyed := by
  simp only [Keccak.finish, Keccak.keccak, hfin, Bool.false_eq_true, if_false,
    and_self]

-- =========================================================== squeezing

/-- `n` bytes have been read of the stream of `s`. -/
def Squeezed (s : State) (n : ℕ) (c : Keccak o) : Prop :=
  ∃ k, c.state = (permute o.rounds)^[k] s
    ∧ n = k * o.blockLen + c.posOut ∧ c.posOut ≤ o.blockLen

/-- A block that is used up is followed by the next one. -/
theorem Squeezed.ready (h : Squeezed s n c) : Squeezed s n c.ready := by
  obtain ⟨k, hstate, hcount, hle⟩ := h
  unfold Keccak.ready
  by_cases hfull : o.blockLen ≤ c.posOut
  · refine ⟨k + 1, ?_, ?_, ?_⟩
    · rw [if_pos hfull, keccak_state, hstate, Function.iterate_succ_apply']
    · rw [if_pos hfull, keccak_posOut, Nat.succ_mul]
      omega
    · rw [if_pos hfull, keccak_posOut]
      exact Nat.zero_le _
  · rw [if_neg hfull]
    exact ⟨k, hstate, hcount, hle⟩

/-- What is left of the block is what comes next in the stream. -/
theorem Squeezed.read (h : Squeezed s n c) {i : ℕ}
    (hi : c.posOut + i < o.blockLen) :
    load c.state (c.posOut + i) = (sponge o).stream s (n + i) := by
  obtain ⟨k, hstate, hcount, -⟩ := h
  have hstream := Lib.Sponge.stream_add (sponge o) (s := s) (k := k) hi
  rw [hcount, Nat.add_assoc]
  exact (congrArg (fun t => load t (c.posOut + i)) hstate).trans hstream.symm

/-- Within a block, reading only moves the place. -/
theorem Squeezed.advance (h : Squeezed s n c) {m : ℕ}
    (hm : c.posOut + m ≤ o.blockLen) : Squeezed s (n + m) (c.advance m) := by
  obtain ⟨k, hstate, hcount, -⟩ := h
  exact ⟨k, hstate, by rw [hcount, Nat.add_assoc]; rfl, hm⟩

/-- Neither flag is touched by that. -/
theorem ready_flags : c.ready.finished = c.finished
    ∧ c.ready.destroyed = c.destroyed := by
  unfold Keccak.ready
  split
  next => exact ⟨keccak_finished c _, keccak_destroyed c _⟩
  next => exact ⟨rfl, rfl⟩

/-- **What is written is what comes next** in the stream, whether or not
that begins in the middle of a block. By induction over the length. -/
theorem writeLoop_stream (bound len : ℕ) (hbound : len ≤ bound)
    (h : Squeezed s n c) :
    (Keccak.writeLoop len c).1
        = (List.range len).map (fun i => (sponge o).stream s (n + i))
      ∧ Squeezed s (n + len) (Keccak.writeLoop len c).2
      ∧ (Keccak.writeLoop len c).2.finished = c.finished
      ∧ (Keccak.writeLoop len c).2.destroyed = c.destroyed := by
  induction bound generalizing len n c with
  | zero =>
      obtain rfl := Nat.le_zero.mp hbound
      rw [Keccak.writeLoop, dif_pos rfl]
      exact ⟨rfl, h, rfl, rfl⟩
  | succ bound ih =>
      rw [Keccak.writeLoop]
      by_cases hlen : len = 0
      · subst hlen
        rw [dif_pos rfl]
        exact ⟨rfl, h, rfl, rfl⟩
      · rw [dif_neg hlen]
        dsimp only
        have hready := h.ready
        have hpos := c.ready_posOut
        generalize htake : min (o.blockLen - c.ready.posOut) len = take
        have hle : take ≤ len ∧ c.ready.posOut + take ≤ o.blockLen := by omega
        obtain ⟨hout, hnext, hfinished, hdestroyed⟩ := ih (len - take) (by omega)
          (hready.advance hle.2)
        obtain ⟨hfinished', hdestroyed'⟩ := @ready_flags o c
        refine ⟨?_, ?_, hfinished.trans hfinished', hdestroyed.trans hdestroyed'⟩
        · obtain ⟨rest, rfl⟩ := Nat.exists_eq_add_of_le hle.1
          rw [hout, List.range_add, List.map_append, List.map_map,
            Nat.add_sub_cancel_left]
          congr 1
          · apply List.map_congr_left
            intro i hi
            have hlt := List.mem_range.mp hi
            exact hready.read (by omega)
          · apply List.map_congr_left
            intro i _
            rw [Function.comp_apply, Nat.add_assoc]
        · rw [show n + len = n + take + (len - take) by omega]
          exact hnext

end

-- ================================================================ runs

/-- Data given to `update` piece by piece, each at a place of its own. -/
def updates (c : Keccak o) : List (Bytes × Bool) → Run (Keccak o)
  | [] => .ok c
  | d :: rest => do
      let c ← c.update d.1 d.2
      updates c rest

/-- Reads of some lengths, one after another. -/
def reads (c : Keccak o) : List ℕ → Run (List Bytes × Keccak o)
  | [] => .ok ([], c)
  | len :: rest => do
      let r ← c.xofInto len
      let rs ← reads r.2 rest
      return (r.1 :: rs.1, rs.2)

/-- The state behind a message and its padding. -/
def final (o : Options) (m : Bytes) : State :=
  ((sponge o).absorb (Vector.replicate 200 0, 0)
    (m ++ padding o (m.length % o.blockLen))).1

/-- The stream of a message. -/
def streamOf (o : Options) (m : Bytes) : ℕ → UInt8 :=
  (sponge o).stream (final o m)

/-- The object has absorbed a message, and can take more of it. -/
structure Holds (m : Bytes) (c : Keccak o) : Prop where
  state : (c.state, c.pos)
    = (sponge o).absorb (Vector.replicate 200 0, 0) m
  posOut : c.posOut = 0
  finished : c.finished = false
  destroyed : c.destroyed = false

/-- Of the stream of a message, `n` bytes have been read. -/
structure Reads (m : Bytes) (n : ℕ) (c : Keccak o) : Prop where
  squeezed : Squeezed (final o m) n c.finish
  finished : c.finish.finished = true
  destroyed : c.destroyed = false
  destroyed' : c.finish.destroyed = false

section

variable {c : Keccak o} {m : Bytes} {n : ℕ}

/-- A new instance holds no data. -/
theorem Holds.create : Holds [] (Keccak.create o) := ⟨rfl, rfl, rfl, rfl⟩

/-- **An update appends**, from aligned words as from bytes, and leaves an
instance that may be updated again. -/
theorem Holds.update (h : Holds m c) (data : Bytes) (aligned : Bool) :
    ∃ c', c.update data aligned = .ok c' ∧ Holds (m ++ data) c' := by
  have hexists : c.aexists true = .ok () := by
    unfold Keccak.aexists
    rw [h.destroyed, h.finished]
    rfl
  have habsorbs := updateLoop_absorbs (decide (o.blockLen % 4 = 0) && aligned)
    (fun hcan => of_decide_eq_true (Bool.and_eq_true_iff.mp hcan).1)
    data.length 0 data c le_rfl
  refine ⟨_, run_bind_ok.mpr ⟨(), hexists, rfl⟩, ?_, ?_, ?_, ?_⟩
  · rw [habsorbs.state, h.state, Lib.Sponge.absorb_append]
  · exact habsorbs.posOut h.posOut
  · rw [habsorbs.finished, h.finished]
  · rw [habsorbs.destroyed, h.destroyed]

/-- So do updates one after another. -/
theorem Holds.updates (h : Holds m c) (chunks : List (Bytes × Bool)) :
    ∃ c', updates c chunks = .ok c'
      ∧ Holds (m ++ (chunks.map Prod.fst).flatten) c' := by
  induction chunks generalizing c m with
  | nil =>
      refine ⟨c, rfl, ?_⟩
      rw [List.map_nil, List.flatten_nil, List.append_nil]
      exact h
  | cons d chunks ih =>
      obtain ⟨c', hc', hholds⟩ := h.update d.1 d.2
      obtain ⟨c'', hc'', hholds'⟩ := ih hholds
      refine ⟨c'', run_bind_ok.mpr ⟨c', hc', hc''⟩, ?_⟩
      rw [List.map_cons, List.flatten_cons, ← List.append_assoc]
      exact hholds'

/-- Finishing ends the message: the padding is put in, and reading starts at
the first byte of the stream. -/
theorem Holds.finish (h : Holds m c) : Reads m 0 c := by
  obtain ⟨hposOut, hfinished, hdestroyed⟩ := finish_flags h.finished
  have hpos : c.pos = m.length % o.blockLen := by
    have hmod := Lib.Sponge.absorb_pos (sponge o) (l := m)
      (t := (Vector.replicate 200 0, 0)) o.blockLen_pos
    rw [← h.state] at hmod
    rw [show c.pos = _ from hmod]
    exact congrArg (· % o.blockLen) (Nat.zero_add _)
  refine ⟨⟨0, ?_, ?_, ?_⟩, hfinished, h.destroyed, hdestroyed.trans h.destroyed⟩
  · rw [finish_state h.finished, h.state, ← Lib.Sponge.absorb_append, hpos]
    rfl
  · rw [hposOut, Nat.zero_mul]
  · rw [hposOut]
    exact Nat.zero_le _

/-- **A read** gives out what comes next in the stream. The first one pads
and permutes before it reads; those behind it go on from where it
stopped. -/
theorem Reads.writeInto (h : Reads m n c) (len : ℕ) :
    ∃ c', c.writeInto len
        = .ok ((List.range len).map fun i => streamOf o m (n + i), c')
      ∧ Reads m (n + len) c' ∧ c'.finished = true := by
  obtain ⟨hout, hnext, hfinished, hdestroyed⟩ :=
    writeLoop_stream len len le_rfl h.squeezed
  have hexists : c.aexists false = .ok () := by
    unfold Keccak.aexists
    rw [h.destroyed]
    rfl
  have hfin := hfinished.trans h.finished
  have hdes := hdestroyed.trans h.destroyed'
  have hsame : (Keccak.writeLoop len c.finish).2.finish
      = (Keccak.writeLoop len c.finish).2 := finish_of_finished hfin
  refine ⟨(Keccak.writeLoop len c.finish).2, run_bind_ok.mpr ⟨(), hexists, ?_⟩,
    ⟨?_, ?_, hdes, ?_⟩, hfin⟩
  · exact congrArg Except.ok (Prod.ext hout rfl)
  · rw [hsame]
    exact hnext
  · rw [hsame]
    exact hfin
  · rw [hsame]
    exact hdes

/-- **Reading goes on in the stream** where the last read stopped, if the
instance has extendable output. -/
theorem Reads.xofInto (h : Reads m n c) (hxof : o.enableXOF = true) (len : ℕ) :
    ∃ c', c.xofInto len
        = .ok ((List.range len).map fun i => streamOf o m (n + i), c')
      ∧ Reads m (n + len) c' := by
  obtain ⟨c', hc', hreads, -⟩ := h.writeInto len
  unfold Keccak.xofInto
  rw [hxof]
  exact ⟨c', hc', hreads⟩

/-- Reads of one length give out blocks of the stream, which is how the
samplers of the lattice schemes read theirs. -/
theorem Reads.blocks (h : Reads m n c) (hxof : o.enableXOF = true)
    (len calls : ℕ) : ∃ c', reads c (List.replicate calls len)
      = .ok ((List.range calls).map fun call =>
          (List.range len).map fun i => streamOf o m (n + call * len + i), c') := by
  induction calls generalizing c n with
  | zero => exact ⟨c, rfl⟩
  | succ calls ih =>
      obtain ⟨c', hc', hreads⟩ := h.xofInto hxof len
      obtain ⟨c'', hc''⟩ := ih hreads
      have hshift : (List.range calls).map ((fun call => (List.range len).map
            fun i => streamOf o m (n + call * len + i)) ∘ Nat.succ)
          = (List.range calls).map fun call => (List.range len).map
            fun i => streamOf o m (n + len + call * len + i) := by
        apply List.map_congr_left
        intro call _
        rw [Function.comp_apply, Nat.succ_mul, Nat.add_comm (call * len),
          ← Nat.add_assoc]
      refine ⟨c'', run_bind_ok.mpr ⟨_, hc', run_map_ok.mpr ⟨_, hc'', ?_⟩⟩⟩
      rw [List.range_succ_eq_map, List.map_cons, List.map_map, hshift,
        Nat.zero_mul, Nat.add_zero]

/-- A run of reads gives out what comes next, read after read: put together,
as much as was asked for, with nothing left out between two of them. -/
theorem Reads.reads (h : Reads m n c) (hxof : o.enableXOF = true)
    (lens : List ℕ) : ∃ outs c', reads c lens = .ok (outs, c')
      ∧ outs.map List.length = lens
      ∧ outs.flatten = (List.range lens.sum).map fun i => streamOf o m (n + i) := by
  induction lens generalizing c n with
  | nil => exact ⟨[], c, rfl, rfl, rfl⟩
  | cons len lens ih =>
      obtain ⟨c', hc', hreads⟩ := h.xofInto hxof len
      obtain ⟨outs, c'', hc'', hlength, hflatten⟩ := ih hreads
      refine ⟨_, c'', run_bind_ok.mpr ⟨_, hc', run_map_ok.mpr ⟨_, hc'', rfl⟩⟩,
        ?_, ?_⟩
      · rw [List.map_cons, hlength, List.length_map, List.length_range]
      · rw [List.flatten_cons, hflatten, List.sum_cons, List.range_add,
          List.map_append, List.map_map]
        congr 1
        apply List.map_congr_left
        intro i _
        rw [Function.comp_apply, Nat.add_assoc]

/-- **A digest** is the first bytes of the stream, and the last thing the
object gives out. -/
theorem Holds.digest (h : Holds m c) :
    ∃ c', c.digest = .ok (squeeze (streamOf o m) o.outputLen, c')
      ∧ c'.finished = true ∧ c'.destroyed = true := by
  obtain ⟨c', hc', -, hfinished⟩ := h.finish.writeInto o.outputLen
  simp only [Nat.zero_add] at hc'
  refine ⟨c'.destroy, ?_, hfinished, rfl⟩
  unfold Keccak.digest
  rw [if_neg (by rw [h.finished]; exact Bool.false_ne_true)]
  exact run_map_ok.mpr ⟨_, hc', rfl⟩

end

/-- **The object is a stream**: of whatever pieces the data is given in,
wherever they are in their buffers, and in whatever lengths it is read, the
bytes that are read are those of the stream of all the data. -/
theorem reads_stream (hxof : o.enableXOF = true) (chunks : List (Bytes × Bool))
    (lens : List ℕ) : ∃ outs c,
      (updates (Keccak.create o) chunks >>= fun c => reads c lens) = .ok (outs, c)
        ∧ outs.map List.length = lens
        ∧ outs.flatten
          = squeeze (streamOf o (chunks.map Prod.fst).flatten) lens.sum := by
  obtain ⟨c, hc, hholds⟩ := (Holds.create (o := o)).updates chunks
  obtain ⟨outs, c', hc', hlength, hflatten⟩ := hholds.finish.reads hxof lens
  refine ⟨outs, c', run_bind_ok.mpr ⟨c, hc, hc'⟩, hlength, ?_⟩
  rw [hflatten]
  simp only [Nat.zero_add, List.nil_append]
  rfl

/-- Three bytes in two updates, read as one byte and then two hundred. -/
theorem reads_stream_shake : ∃ (outs : List Bytes) (c : Keccak (shake128 16)),
    (updates (Keccak.create (shake128 16)) [([1, 2], false), ([3], true)]
      >>= fun c => reads c [1, 200]) = .ok (outs, c)
        ∧ outs.map List.length = [1, 200]
        ∧ outs.flatten = squeeze (streamOf (shake128 16) [1, 2, 3]) 201 :=
  reads_stream rfl [([1, 2], false), ([3], true)] [1, 200]

/-- **A digest ends the object**: it is the first bytes of the stream of the
data, in whatever pieces that has been given, and from then on nothing is
taken and nothing is given out. -/
theorem digest_ends (o : Options) (chunks : List (Bytes × Bool)) (data : Bytes)
    (aligned : Bool) (len : ℕ) : ∃ c : Keccak o,
      (updates (Keccak.create o) chunks >>= Keccak.digest)
          = .ok (squeeze (streamOf o (chunks.map Prod.fst).flatten) o.outputLen, c)
        ∧ c.update data aligned = raise (error (js "hash was destroyed"))
        ∧ c.digest = raise (error (js "digest() was already called"))
        ∧ c.writeInto len = raise (error (js "hash was destroyed")) := by
  obtain ⟨c, hc, hholds⟩ := (Holds.create (o := o)).updates chunks
  obtain ⟨c', hdigest, hfinished, hdestroyed⟩ := hholds.digest
  rw [List.nil_append] at hdigest
  refine ⟨c', run_bind_ok.mpr ⟨c, hc, hdigest⟩, ?_, ?_, ?_⟩
  · unfold Keccak.update Keccak.aexists
    rw [if_pos hdestroyed]
    rfl
  · unfold Keccak.digest
    rw [if_pos hfinished]
  · unfold Keccak.writeInto Keccak.aexists
    rw [if_pos hdestroyed]
    rfl

-- ============================================================= lattices

/-- The hash functions that the lattice code is given. -/
def hashes : Hashes where
  shake128 := streamOf (shake128 16)
  shake256 := streamOf (shake256 32)
  sha3_256 m := Vector.ofFn fun i => streamOf sha3_256 m i
  sha3_512 m := Vector.ofFn fun i => streamOf sha3_512 m i

/-- A digest of fixed length is the beginning of a stream. -/
theorem toList_ofFn_stream (f : ℕ → UInt8) (n : ℕ) :
    (Vector.ofFn fun i : Fin n => f i).toList = squeeze f n := by
  unfold squeeze
  apply List.ext_getElem
  · rw [Vector.length_toList, List.length_map, List.length_range]
  · intro i hi hi'
    rw [List.getElem_map, List.getElem_range, Vector.getElem_toList,
      Vector.getElem_ofFn]

/-- One digest of one piece. -/
theorem digest_one (o : Options) (m : Bytes) (aligned : Bool) : ∃ c : Keccak o,
    ((Keccak.create o).update m aligned >>= Keccak.digest)
      = .ok (squeeze (streamOf o m) o.outputLen, c) := by
  obtain ⟨c, hc, hholds⟩ := (Holds.create (o := o)).update m aligned
  obtain ⟨c', hdigest, -⟩ := hholds.digest
  exact ⟨c', run_bind_ok.mpr ⟨c, hc, hdigest⟩⟩

/-- **The hash functions of the lattice code are those of this one**: the
readers of `createXofShake`, of blocks of any length, give out the blocks
of the stream one after another, and the digests are its first bytes, of
any length. A block length of zero does not reach a reader, which is given
that of the hash in its place. -/
theorem hashes_run (seed m : Bytes) (x y blockLen calls dkLen : ℕ)
    (aligned : Bool) :
    (∃ outs c, ((Keccak.create (shake128 16)).update
          (seed ++ [x.toUInt8, y.toUInt8]) aligned
        >>= fun c => reads c (List.replicate calls blockLen)) = .ok (outs, c)
      ∧ outs = (List.range calls).map
        (createXofShake hashes.shake128 blockLen seed x y))
    ∧ (∃ outs c, ((Keccak.create (shake256 32)).update
          (seed ++ [x.toUInt8, y.toUInt8]) aligned
        >>= fun c => reads c (List.replicate calls blockLen)) = .ok (outs, c)
      ∧ outs = (List.range calls).map (XOF256 hashes blockLen seed x y))
    ∧ (∃ c, ((Keccak.create (shake256 dkLen)).update m aligned >>= Keccak.digest)
      = .ok (squeeze (hashes.shake256 m) dkLen, c))
    ∧ (∃ c, ((Keccak.create sha3_256).update m aligned >>= Keccak.digest)
      = .ok ((hashes.sha3_256 m).toList, c))
    ∧ ∃ c, ((Keccak.create sha3_512).update m aligned >>= Keccak.digest)
      = .ok ((hashes.sha3_512 m).toList, c) := by
  have hreader : ∀ (o : Options), o.enableXOF = true → ∀ len, ∃ outs c,
      ((Keccak.create o).update (seed ++ [x.toUInt8, y.toUInt8]) aligned
        >>= fun c => reads c (List.replicate calls len)) = .ok (outs, c)
      ∧ outs = (List.range calls).map
        (createXofShake (streamOf o) len seed x y) := by
    intro o hxof len
    obtain ⟨c, hc, hholds⟩ := (Holds.create (o := o)).update
      (seed ++ [x.toUInt8, y.toUInt8]) aligned
    obtain ⟨c', hc'⟩ := hholds.finish.blocks hxof len calls
    refine ⟨_, c', run_bind_ok.mpr ⟨c, hc, hc'⟩, ?_⟩
    simp only [Nat.zero_add, List.nil_append]
    rfl
  refine ⟨hreader (shake128 16) rfl _, hreader (shake256 32) rfl _, ?_, ?_, ?_⟩
  · exact digest_one (shake256 dkLen) m aligned
  · have hlist : (hashes.sha3_256 m).toList = squeeze (streamOf sha3_256 m) 32 :=
      toList_ofFn_stream _ _
    rw [hlist]
    exact digest_one sha3_256 m aligned
  · have hlist : (hashes.sha3_512 m).toList = squeeze (streamOf sha3_512 m) 64 :=
      toList_ofFn_stream _ _
    rw [hlist]
    exact digest_one sha3_512 m aligned

end KxcoPostQuantum.Vendor.Sha3
