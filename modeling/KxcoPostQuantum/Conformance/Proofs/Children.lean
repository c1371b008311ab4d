/-
Where the DER walker comes to an end.

`lengthAt` says what a length field stands for as a number: a short one
its octet, a long one its octets read big-endian as a 32-bit number in
two's complement, missing octets being zero (`readTag_len`). Such a number
can be negative. The walk then goes back, and a length that leads to the
element's own first byte, or in front of it, is what keeps it from ending
in a chain of elements; so does a length octet that is not there.

`Lib.walk_placed_iff` gives the rest: the walk ends, with its elements
one behind the other, exactly when every element it comes to has a length
that leads forward (`children_placed_iff`).
-/
import KxcoPostQuantum.Conformance.Protocol

namespace KxcoPostQuantum.Conformance.Protocol

open Lib

variable {buf : Bytes} {i : Int}

-- =========================================================== lengths

/-- The octets from a position on, as numbers. -/
def octets (buf : Bytes) (n : Nat) (i : Int) : List Nat :=
  (List.range n).map fun (k : Nat) => ((octet buf (i + k)).getD 0).toNat

/-- The big-endian number in front of which `high` stands. -/
def bigEndian (high : Nat) (digits : List Nat) : Nat :=
  digits.foldl (fun n d => n * 256 + d) high

/-- How many octets follow a first length octet as the length. -/
def lengthOctets (b : UInt8) : Nat :=
  if b.toNat < 128 then 0 else b.toNat - 128

/-- The number a length field stands for. -/
def lengthAt (buf : Bytes) (i : Int) : Option Int :=
  (octet buf (i + 1)).map fun b =>
    if b.toNat < 128 then b.toNat
    else Int.bmod (bigEndian 0 (octets buf (lengthOctets b) (i + 2))) (2 ^ 32)

/-- Where the element at a position ends: behind its tag, its length field
and as many bytes as that says. -/
def endAt (buf : Bytes) (i : Int) : Option Int := do
  let b ← octet buf (i + 1)
  let len ← lengthAt buf i
  return i + 2 + lengthOctets b + len

theorem octets_succ (n : Nat) :
    octets buf (n + 1) i
      = ((octet buf i).getD 0).toNat :: octets buf n (i + 1) := by
  rw [octets, octets, List.range_succ_eq_map, List.map_cons, List.map_map]
  congr 1
  · rw [Nat.cast_zero, Int.add_zero]
  · apply List.map_congr_left
    intro k _
    rw [Function.comp_apply, Nat.succ_eq_add_one, Nat.cast_add, Nat.cast_one,
      Int.add_assoc, Int.add_comm 1]

/-- `(len << 8) | v` puts an octet behind a number. -/
theorem orOctet_shift (len : BitVec 32) (v : Option UInt8) :
    orOctet (len <<< 8) v
      = len * 256#32 + BitVec.ofNat 32 (v.getD 0).toNat := by
  rw [orOctet, ← BitVec.add_eq_or_of_and_eq_zero]
  · congr 1
    · rw [BitVec.shiftLeft_eq_mul_twoPow]
      rfl
    · apply BitVec.eq_of_toNat_eq
      simp
  · apply BitVec.eq_of_getLsbD_eq
    intro k hk
    have hbyte (h8 : 8 ≤ k) : (v.getD 0).toBitVec.getLsbD k = false :=
      BitVec.getLsbD_of_ge _ _ h8
    simpa using fun _ h8 _ _ => hbyte h8

/-- The loop reads its octets as a number modulo 2^32. By induction over the
octets; what is shifted out at the top is gone. -/
theorem readLength_eq (n : Nat) (high : Nat) (i : Int) :
    readLength buf n (BitVec.ofNat 32 high) i
      = (BitVec.ofNat 32 (bigEndian high (octets buf n i)), i + n) := by
  induction n generalizing high i with
  | zero =>
      rw [readLength, Nat.cast_zero, Int.add_zero]
      rfl
  | succ n ih =>
      have hnext : orOctet (BitVec.ofNat 32 high <<< 8) (octet buf i)
          = BitVec.ofNat 32 (high * 256 + ((octet buf i).getD 0).toNat) := by
        rw [orOctet_shift, BitVec.ofNat_add, BitVec.ofNat_mul]
      rw [readLength, hnext, ih, octets_succ]
      refine Prod.ext rfl ?_
      show i + 1 + n = i + (n + 1 : Nat)
      omega

-- =========================================================== elements

@[simp] theorem readTag_tagStart (buf : Bytes) (i : Int) :
    (readTag buf i).tagStart = i := by
  rw [readTag]
  split
  next => rfl
  next => split <;> rfl

/-- The first bit of an octet, and the other seven. -/
theorem octet_bits : ∀ n : Fin 256,
    (n.val &&& 128 = 0 ↔ n.val < 128) ∧ n.val &&& 127 = n.val % 128 := by
  decide +kernel

theorem short_iff {b : UInt8} : b &&& 0x80 = 0 ↔ b.toNat < 128 := by
  rw [← UInt8.toNat_inj, UInt8.toNat_and]
  exact (octet_bits ⟨b.toNat, b.toNat_lt⟩).1

theorem lengthOctets_long {b : UInt8} (hb : ¬b.toNat < 128) :
    (b &&& 0x7f).toNat = lengthOctets b := by
  rw [UInt8.toNat_and, lengthOctets, if_neg hb]
  refine (octet_bits ⟨b.toNat, b.toNat_lt⟩).2.trans ?_
  have hlt := b.toNat_lt
  show b.toNat % 128 = b.toNat - 128
  omega

theorem endAt_some {b : UInt8} (hb : octet buf (i + 1) = some b) :
    endAt buf i
      = (lengthAt buf i).map fun len => i + 2 + lengthOctets b + len := by
  rw [endAt, hb]
  cases lengthAt buf i <;> rfl

/-- Where `readTag` lets an element end. -/
theorem readTag_stop (buf : Bytes) (i : Int) :
    (readTag buf i).stop = endAt buf i := by
  cases hb : octet buf (i + 1) with
  | none => rw [readTag, endAt, hb]; rfl
  | some b =>
      rw [endAt_some hb, lengthAt, hb, Option.map_some, Option.map_some,
        readTag, hb]
      by_cases hshort : b.toNat < 128
      · rw [if_pos hshort, lengthOctets, if_pos hshort]
        simp only [short_iff.mpr hshort]
        rw [if_pos trivial, Nat.cast_zero, Int.add_zero]
      · rw [if_neg hshort]
        simp only [mt short_iff.mp hshort, lengthOctets_long hshort]
        rw [if_neg not_false, show (0 : BitVec 32) = BitVec.ofNat 32 0 from rfl,
          readLength_eq]
        exact congrArg (fun len => some (i + 2 + lengthOctets b + len))
          (BitVec.toInt_ofNat' _)

-- =========================================================== children

/-- Every element the walk over `seq` comes to has its length octet and
ends behind its start. -/
def Advances (buf : Bytes) (seq : Element) : Prop :=
  ∀ stop, seq.stop = some stop →
    ∀ i, Comes id (endAt buf) stop seq.start i → i < stop →
      ∃ j, endAt buf i = some j ∧ i < j

theorem children_ends {seq : Element} (h : Advances buf seq) :
    ∃ fuel out, children fuel buf seq = some out
      ∧ Placed Element.tagStart Element.stop out := by
  cases hstop : seq.stop with
  | none =>
      refine ⟨0, [], by rw [children, hstop], ?_, .nil⟩
      exact fun t ht => absurd ht List.not_mem_nil
  | some stop =>
      simp only [children, hstop]
      apply walk_forward (readTag_tagStart buf)
      intro i hi hlt
      obtain ⟨j, hend, hj⟩ := h stop hstop i (hi.of_end (readTag_stop buf)) hlt
      exact ⟨j, (readTag_stop buf i).trans hend, hj⟩

theorem advances_of_children {seq : Element} {fuel : Nat}
    {out : List Element} (hout : children fuel buf seq = some out)
    (hplaced : Placed Element.tagStart Element.stop out) :
    Advances buf seq := by
  intro stop hstop i hi hlt
  simp only [children, hstop] at hout
  have hforward := (walk_placed_iff (readTag_tagStart buf) seq.start).mp
    ⟨fuel, out, hout, hplaced⟩ i
  simp only [readTag_stop] at hforward
  exact hforward (hi.of_end fun i => (readTag_stop buf i).symm) hlt

/-- **Where the walk ends.** For every element read from a buffer the
children come to an end, each one ending behind its start and the next one
starting there, exactly when every element the walk comes to has its
length octet and ends behind its start. -/
theorem children_terminates_iff (buf : Bytes) (origin : Int) :
    (∃ fuel out, children fuel buf (readTag buf origin) = some out
        ∧ (∀ t ∈ out, ∃ j, t.stop = some j ∧ t.tagStart < j)
        ∧ out.IsChain fun t t' => t.stop = some t'.tagStart)
      ↔ Advances buf (readTag buf origin) := by
  constructor
  · intro h
    obtain ⟨fuel, out, hout, hforward, hjoined⟩ := h
    exact advances_of_children hout ⟨hforward, hjoined⟩
  · intro h
    obtain ⟨fuel, out, hout, hforward, hjoined⟩ := children_ends h
    exact ⟨fuel, out, hout, hforward, hjoined⟩

/-- A sequence whose one element has the length -6: it ends where it
starts. -/
def looping : Bytes := [0x30, 6, 0x04, 0x84, 0xFF, 0xFF, 0xFF, 0xFA]

/-- The walk over it never ends, and a certificate that is one is never
split. -/
theorem children_looping :
    (∀ fuel, children fuel looping (readTag looping 0) = none)
      ∧ ∀ fuel, splitCertificate fuel looping = none := by
  have hwalk (fuel : Nat) :
      walk (readTag looping) Element.stop 8 fuel (some 2) = none := by
    induction fuel with
    | zero => rfl
    | succ fuel ih =>
        rw [walk, if_pos (by decide),
          show (readTag looping 2).stop = some 2 from rfl, ih]
        rfl
  have hchildren (fuel : Nat) :
      children fuel looping (readTag looping 0) = none := hwalk fuel
  refine ⟨hchildren, fun fuel => ?_⟩
  rw [splitCertificate, hchildren]
  rfl

end KxcoPostQuantum.Conformance.Protocol
