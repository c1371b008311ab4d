/-
DER: the elements whose length has its shortest text, and a strict reader
of them.

`Shortest` picks one of the texts BER has for a length (`Lib.Ber`): one
octet below 128, and otherwise no leading zero octet. The reader takes an
element off the front of a text and refuses every other length text and
an element that is cut off (`readElement_iff`), so what it reads it has
read whole.
-/
import KxcoPostQuantum.Lib.Ber

namespace Lib.Der

open Lib.Ber

-- ======================================================== definitions

/-- The shortest text of a length. -/
inductive Shortest : List UInt8 → Nat → Prop
  | short {n : Nat} (h : n < 128) : Shortest [n.toUInt8] n
  | long {o : UInt8} {octets : List UInt8} (ho : o ≠ 0)
      (hk : octets.length < 126) (hn : 128 ≤ octetsValue (o :: octets)) :
      Shortest ((128 + (o :: octets).length).toUInt8 :: o :: octets)
        (octetsValue (o :: octets))

/-- The text of an element. -/
def Distinguished (tag : UInt8) (content text : List UInt8) : Prop :=
  ∃ octets, Shortest octets content.length ∧ text = tag :: (octets ++ content)

theorem Shortest.lengthOctets {l : List UInt8} {n : Nat} (h : Shortest l n) :
    LengthOctets l n := by
  cases h with
  | short hn => exact .short hn
  | long ho hk hn =>
      exact .long (List.cons_ne_nil _ _) (Nat.succ_lt_succ hk)

theorem Distinguished.element {tag : UInt8} {c x : List UInt8}
    (h : Distinguished tag c x) : Element tag c x := by
  obtain ⟨l, hl, rfl⟩ := h
  exact ⟨l, hl.lengthOctets, rfl⟩

/-- A length below 128 has one octet. -/
theorem Shortest.eq_short {l : List UInt8} {n : Nat} (h : Shortest l n)
    (hn : n < 128) : l = [n.toUInt8] := by
  cases h with
  | short _ => rfl
  | long _ _ hlong => omega

/-- A content below 128 is two octets behind its tag. -/
theorem Distinguished.eq_short {tag : UInt8} {c x : List UInt8}
    (h : Distinguished tag c x) (hc : c.length < 128) :
    x = tag :: c.length.toUInt8 :: c ∧ x.length = c.length + 2 := by
  obtain ⟨l, hl, rfl⟩ := h
  rw [hl.eq_short hc]
  exact ⟨rfl, rfl⟩

-- ============================================================= reader

/-- Take the shortest text of a length off the front. -/
def readLength : List UInt8 → Option (Nat × List UInt8)
  | [] => none
  | first :: rest =>
      if first.toNat < 128 then some (first.toNat, rest)
      else
        let octets := rest.take (first.toNat - 128)
        if octets.length = first.toNat - 128 ∧ first.toNat < 255
            ∧ octets.headD 0 ≠ 0 ∧ 128 ≤ octetsValue octets then
          some (octetsValue octets, rest.drop (first.toNat - 128))
        else none

/-- Take an element off the front: its tag, its content and the rest. -/
def readElement : List UInt8 → Option (UInt8 × List UInt8 × List UInt8)
  | [] => none
  | tag :: rest => do
      let (n, rest) ← readLength rest
      if n ≤ rest.length then some (tag, rest.take n, rest.drop n) else none

/-- The first complete element of a text. -/
def firstElement (x : List UInt8) : Option (List UInt8) := do
  let (_, _, rest) ← readElement x
  return x.take (x.length - rest.length)

theorem readLength_iff {x r : List UInt8} {n : Nat} :
    readLength x = some (n, r) ↔ ∃ l, Shortest l n ∧ x = l ++ r := by
  constructor
  · intro h
    cases x with
    | nil => cases h
    | cons first rest =>
        rw [readLength] at h
        split at h
        next hshort =>
          cases h
          refine ⟨[first], ?_, rfl⟩
          have hone := Shortest.short hshort
          rwa [Nat.toUInt8_eq, UInt8.ofNat_toNat] at hone
        next hlong =>
          simp only at h
          split at h
          next hoctets =>
            obtain ⟨rfl, rfl⟩ := Prod.mk.inj (Option.some.inj h)
            obtain ⟨hlength, hfirst, hhead, hvalue⟩ := hoctets
            cases htake : rest.take (first.toNat - 128) with
            | nil =>
                rw [htake] at hhead
                exact absurd List.headD_nil hhead
            | cons o octets =>
                rw [htake] at hlength hhead hvalue
                rw [List.length_cons] at hlength
                have hcount : (128 + (o :: octets).length).toUInt8
                    = first := by
                  rw [List.length_cons, hlength,
                    show 128 + (first.toNat - 128) = first.toNat by omega,
                    Nat.toUInt8_eq, UInt8.ofNat_toNat]
                refine ⟨first :: o :: octets, ?_, ?_⟩
                · rw [← hcount]
                  exact .long hhead (by omega) hvalue
                · rw [List.cons_append, ← htake, List.take_append_drop]
          next => cases h
  · intro hx
    obtain ⟨l, hl, rfl⟩ := hx
    cases hl with
    | short hn =>
        rw [List.singleton_append, readLength, short_toNat hn, if_pos hn]
    | @long o octets ho hk hn =>
        have hfirst : (128 + (o :: octets).length).toUInt8.toNat
            = 128 + (o :: octets).length :=
          long_toNat (Nat.succ_lt_succ hk)
        have hcount : 128 + (o :: octets).length - 128
            = (o :: octets).length := by omega
        have hlt : 128 + (o :: octets).length < 255 := by
          rw [List.length_cons]
          omega
        rw [List.cons_append, readLength, hfirst, if_neg (by omega), hcount]
        simp only [List.take_left', List.drop_left']
        rw [if_pos ⟨trivial, hlt, ho, hn⟩]

/-- **The strict reader** takes exactly the elements, and leaves what
follows. Of the lengths that could be written in several ways it takes the
shortest only. -/
theorem readElement_iff {x c r : List UInt8} {tag : UInt8} :
    readElement x = some (tag, c, r)
      ↔ ∃ e, Distinguished tag c e ∧ x = e ++ r := by
  constructor
  · intro h
    cases x with
    | nil => cases h
    | cons t rest =>
        simp only [readElement, Option.bind_eq_bind,
          Option.bind_eq_some_iff, Prod.exists] at h
        obtain ⟨n, rest', hlength, h⟩ := h
        split at h
        next hle =>
          cases h
          obtain ⟨l, hl, rfl⟩ := readLength_iff.mp hlength
          refine ⟨tag :: (l ++ rest'.take n), ⟨l, ?_, rfl⟩, ?_⟩
          · rwa [List.length_take, Nat.min_eq_left hle]
          · rw [List.cons_append, List.append_assoc,
              List.take_append_drop]
        next => cases h
  · intro hx
    obtain ⟨e, ⟨l, hl, rfl⟩, rfl⟩ := hx
    have hlength : readLength (l ++ (c ++ r)) = some (c.length, c ++ r) :=
      readLength_iff.mpr ⟨l, hl, rfl⟩
    rw [List.cons_append, List.append_assoc, readElement, hlength]
    simp

section

variable {tag : UInt8} {c e : List UInt8}

/-- An element in front of a text is read. -/
theorem Distinguished.read (h : Distinguished tag c e) (r : List UInt8) :
    readElement (e ++ r) = some (tag, c, r) :=
  readElement_iff.mpr ⟨e, h, rfl⟩

/-- The first element of a text that begins with one. -/
theorem Distinguished.firstElement (h : Distinguished tag c e)
    (r : List UInt8) : firstElement (e ++ r) = some e := by
  rw [Der.firstElement, h.read]
  simp

end

end Lib.Der
