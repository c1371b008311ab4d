/-
Definite-length elements: a tag, the length of the content, the content.

The length is one octet below 128, or a count of octets and then that
many, most significant first. BER allows every count, so a length has
many texts; DER picks the shortest. Nothing here needs the choice.

# What is used of it

Length octets are prefix-free (`LengthOctets.append_inj`), so an element
says where it ends: two elements that begin one text are the same
element, with the same content (`Element.append_inj`).
-/
import Mathlib.Tactic.Common
import Mathlib.Data.UInt

namespace Lib.Ber

-- ======================================================== definitions

/-- The number some octets are, most significant first. -/
def octetsValue (octets : List UInt8) : Nat :=
  octets.foldl (fun n o => n * 256 + o.toNat) 0

/-- The texts of a length. -/
inductive LengthOctets : List UInt8 → Nat → Prop
  | short {n : Nat} (h : n < 128) : LengthOctets [n.toUInt8] n
  | long {octets : List UInt8} (h : octets ≠ [])
      (h' : octets.length < 127) :
      LengthOctets ((128 + octets.length).toUInt8 :: octets)
        (octetsValue octets)

/-- The texts of an element. -/
def Element (tag : UInt8) (content text : List UInt8) : Prop :=
  ∃ octets, LengthOctets octets content.length
    ∧ text = tag :: (octets ++ content)

-- ====================================================== length octets

/-- The first octet of a short length, and of a long one. -/
theorem short_toNat {n : Nat} (h : n < 128) : n.toUInt8.toNat = n := by
  rw [Nat.toUInt8_eq, UInt8.toNat_ofNat']
  omega

theorem long_toNat {k : Nat} (h : k < 127) :
    (128 + k).toUInt8.toNat = 128 + k := by
  rw [Nat.toUInt8_eq, UInt8.toNat_ofNat']
  omega

/-- A text begins with the length octets of one length only: the first octet
says how many there are, and these say the length. The shortest form is not
asked for. -/
theorem LengthOctets.append_inj {l l' r r' : List UInt8} {n n' : Nat}
    (h : LengthOctets l n) (h' : LengthOctets l' n')
    (heq : l ++ r = l' ++ r') : l = l' ∧ n = n' ∧ r = r' := by
  cases h with
  | short hn =>
      cases h' with
      | short hn' =>
          obtain ⟨hhead, htail⟩ := List.cons.inj heq
          have hnat := congrArg UInt8.toNat hhead
          rw [short_toNat hn, short_toNat hn'] at hnat
          exact ⟨by rw [hnat], hnat, htail⟩
      | long _ hk' =>
          have hnat := congrArg UInt8.toNat (List.cons.inj heq).1
          rw [short_toNat hn, long_toNat hk'] at hnat
          omega
  | long _ hk =>
      cases h' with
      | short hn' =>
          have hnat := congrArg UInt8.toNat (List.cons.inj heq).1
          rw [short_toNat hn', long_toNat hk] at hnat
          omega
      | long _ hk' =>
          obtain ⟨hhead, htail⟩ := List.cons.inj heq
          have hnat := congrArg UInt8.toNat hhead
          rw [long_toNat hk, long_toNat hk'] at hnat
          obtain ⟨rfl, rfl⟩ := List.append_inj htail (by omega)
          exact ⟨rfl, rfl, rfl⟩

-- =========================================================== elements

/-- The element of a content of fewer than 128 octets. -/
theorem Element.short {tag : UInt8} {c : List UInt8} (h : c.length < 128) :
    Element tag c (tag :: c.length.toUInt8 :: c) :=
  ⟨[c.length.toUInt8], .short h, rfl⟩

/-- A text begins with one element only. -/
theorem Element.append_inj {tag tag' : UInt8}
    {c c' x x' r r' : List UInt8} (h : Element tag c x)
    (h' : Element tag' c' x') (heq : x ++ r = x' ++ r') :
    tag = tag' ∧ c = c' ∧ x = x' ∧ r = r' := by
  obtain ⟨l, hl, rfl⟩ := h
  obtain ⟨l', hl', rfl⟩ := h'
  rw [List.cons_append, List.cons_append, List.append_assoc,
    List.append_assoc] at heq
  obtain ⟨rfl, hoctets⟩ := List.cons.inj heq
  obtain ⟨rfl, hlength, hcontent⟩ := hl.append_inj hl' hoctets
  obtain ⟨rfl, rfl⟩ := List.append_inj hcontent hlength
  exact ⟨rfl, rfl, rfl, rfl⟩

/-- No proper prefix of an element is an element. -/
theorem Element.eq_of_initial {tag tag' : UInt8} {c c' x x' : List UInt8}
    (h : Element tag c x) (h' : Element tag' c' x') (hx : x <+: x') :
    x = x' := by
  obtain ⟨r, rfl⟩ := hx
  obtain ⟨-, -, hx, -⟩ := h.append_inj h' (List.append_nil (x ++ r)).symm
  exact hx

end Lib.Ber
