/-
Bytes and their spellings in hexadecimal.

A byte string has one spelling in lower case, which is what `bytesToHex`
writes, and is read back from every spelling: `hexToBytes` takes pairs of
digits of either case and nothing else. So a signature or a public key may
be handed over as bytes or as any of its spellings (`hex_exact`).

The copies of the codec read and write the same. What differs is kid.js,
which checks the length first and so refuses some texts with another
message.
-/
import KxcoPostQuantum.Kid
import KxcoPostQuantum.Signature.Modules

namespace KxcoPostQuantum

open Signature (Backends SignatureSet normalizeContext signatureBytes verify
  verifyWith)
open Kid (fingerprint)

-- ================================================================= case

/-- `toLowerCase` of an ASCII character. -/
def lowerCase (c : UInt16) : UInt16 :=
  if 65 ≤ c.toNat ∧ c.toNat ≤ 90 then c + 32 else c

/-- `toUpperCase` of an ASCII character. -/
def upperCase (c : UInt16) : UInt16 :=
  if 97 ≤ c.toNat ∧ c.toNat ≤ 122 then c - 32 else c

/-- A character of `0-9`, `a-f` or `A-F`. -/
def IsHexDigit (c : UInt16) : Prop :=
  (48 ≤ c.toNat ∧ c.toNat ≤ 57) ∨ (97 ≤ c.toNat ∧ c.toNat ≤ 102)
    ∨ (65 ≤ c.toNat ∧ c.toNat ≤ 70)

/-- What is known of the value of a digit: it is one of ten characters, or
one of twice six letters. All that is said of case rests on this. -/
theorem hexValue_cases {c : UInt16} {d : Nat}
    (h : Lib.Json.hexValue c = some d) :
    (c.toNat = 48 + d ∧ d < 10)
      ∨ (10 ≤ d ∧ d < 16 ∧ (c.toNat = 87 + d ∨ c.toNat = 55 + d)) := by
  unfold Lib.Json.hexValue at h
  simp only at h
  split at h
  next hc =>
    cases h
    omega
  next =>
    split at h
    next hc =>
      cases h
      omega
    next =>
      split at h
      next hc =>
        cases h
        omega
      next => cases h

theorem isHexDigit_iff {c : UInt16} :
    IsHexDigit c ↔ (Lib.Json.hexValue c).isSome = true := by
  constructor
  · intro h
    unfold Lib.Json.hexValue
    simp only
    rcases h with h | h | h
    · rw [if_pos h]
      rfl
    · rw [if_neg (by omega), if_pos h]
      rfl
    · rw [if_neg (by omega), if_neg (by omega), if_pos h]
      rfl
  · intro h
    obtain ⟨d, hd⟩ := Option.isSome_iff_exists.mp h
    unfold IsHexDigit
    rcases hexValue_cases hd with h | h <;> omega

/-- The digit that is written for a value is the one read, in lower
case. -/
theorem hexDigit_of_hexValue {c : UInt16} {d : Nat}
    (h : Lib.Json.hexValue c = some d) :
    Lib.Json.hexDigit d = lowerCase c := by
  apply UInt16.toNat_inj.mp
  unfold Lib.Json.hexDigit lowerCase
  rcases hexValue_cases h with ⟨hc, hd⟩ | ⟨hd, hd', hc | hc⟩
  · rw [if_pos hd, if_neg (by omega), hc]
    exact UInt16.toNat_ofNat_of_lt' (by show 48 + d < 65536; omega)
  · rw [if_neg (by omega), if_neg (by omega), hc]
    refine (UInt16.toNat_ofNat_of_lt' ?_).trans ?_
    · show 97 + (d - 10) < 65536
      omega
    · omega
  · rw [if_neg (by omega), if_pos (by omega), UInt16.toNat_add, hc]
    refine (UInt16.toNat_ofNat_of_lt' ?_).trans ?_
    · show 97 + (d - 10) < 65536
      omega
    · show 97 + (d - 10) = (55 + d + 32) % 65536
      omega

/-- The value of a digit does not depend on its case. -/
theorem hexValue_upperCase {c : UInt16} {d : Nat}
    (h : Lib.Json.hexValue c = some d) :
    Lib.Json.hexValue (upperCase c) = some d := by
  unfold upperCase
  split
  next hc =>
    have hvalue : (c - 32).toNat = c.toNat - 32 :=
      UInt16.toNat_sub_of_le _ _ (by
        rw [UInt16.le_iff_toNat_le]
        show 32 ≤ c.toNat
        omega)
    unfold Lib.Json.hexValue
    simp only
    rcases hexValue_cases h with h' | h'
    · omega
    · rw [if_neg (by omega), if_neg (by omega), if_pos (by omega)]
      exact congrArg some (by omega)
  next => exact h

-- ================================================================ texts

/-- The two digits of a byte that was read from two. -/
theorem byteHex_digits {c d : UInt16} {h l : Nat}
    (hc : Lib.Json.hexValue c = some h) (hd : Lib.Json.hexValue d = some l) :
    byteHex (h * 16 + l).toUInt8 = [lowerCase c, lowerCase d] := by
  have hh : h < 16 := by rcases hexValue_cases hc with h' | h' <;> omega
  have hl : l < 16 := by rcases hexValue_cases hd with h' | h' <;> omega
  have hbyte : (h * 16 + l).toUInt8.toNat = h * 16 + l :=
    UInt8.toNat_ofNat_of_lt' (by show h * 16 + l < 256; omega)
  unfold byteHex
  rw [hbyte, show (h * 16 + l) / 16 = h by omega,
    show (h * 16 + l) % 16 = l by omega, hexDigit_of_hexValue hc,
    hexDigit_of_hexValue hd]

/-- **The one spelling in lower case** is the one that is written. -/
theorem bytesToHex_of_hexPairs {s : JsString} {b : Bytes}
    (h : hexPairs s = some b) : bytesToHex b = s.map lowerCase := by
  refine hexPairs_induction (motive := fun s b =>
    bytesToHex b = s.map lowerCase) rfl ?_ h
  intro c d x l rest bytes hc hd _ ih
  show byteHex _ ++ bytesToHex bytes = _
  rw [byteHex_digits hc hd, ih]
  rfl

/-- A text in upper case spells the same bytes. -/
theorem hexPairs_upperCase {s : JsString} {b : Bytes}
    (h : hexPairs s = some b) : hexPairs (s.map upperCase) = some b := by
  refine hexPairs_induction (motive := fun s b =>
    hexPairs (s.map upperCase) = some b) rfl ?_ h
  intro c d x l rest bytes hc hd _ ih
  rw [List.map_cons, List.map_cons, hexPairs, hexValue_upperCase hc,
    hexValue_upperCase hd, ih]

theorem isHex_iff {s : JsString} :
    IsHex s ↔ s.length % 2 = 0 ∧ ∀ c ∈ s, IsHexDigit c := by
  unfold IsHex
  refine and_congr_right fun _ => forall₂_congr fun c _ => ?_
  exact isHexDigit_iff.symm

/-- Each copy of the codec reads what it writes. -/
theorem Copy.roundTrip (m : HexCodec.Copy) (b : Bytes) :
    m.hexToBytes (m.bytesToHex b) = .ok b := by
  rw [HexCodec.Copy.bytesToHex_eq, HexCodec.Copy.hexToBytes_ok]
  exact hexPairs_bytesToHex b

/-- Each copy reads the spellings of byte strings and no other text. -/
theorem Copy.reads_iff (m : HexCodec.Copy) (h : JsString) :
    (∃ b, m.hexToBytes h = .ok b)
      ↔ h.length % 2 = 0 ∧ ∀ c ∈ h, IsHexDigit c := by
  rw [← isHex_iff, ← hexPairs_isSome, Option.isSome_iff_exists]
  exact exists_congr fun b => HexCodec.Copy.hexToBytes_ok m

-- ================================================================= uses

namespace Signature

variable {rt : Runtime} {backends : Backends} {set : SignatureSet}
  {publicKey message opts : JsVal}

/-- `verify` looks at the bytes of a signature only. -/
theorem verify_congr {s t : JsVal} (h : signatureBytes s = signatureBytes t) :
    verify rt backends set publicKey message s opts
      = verify rt backends set publicKey message t opts := by
  unfold verify verifyWith
  rw [h]

/-- A spelling of a signature is the signature. -/
theorem verify_spelling {s : JsString} {b : Bytes}
    (h : hexPairs s = some b) :
    verify rt backends set publicKey message (.string s) opts
      = verify rt backends set publicKey message (.uint8Array b) opts := by
  apply verify_congr
  show hexToBytes (.string s) = .ok b
  rw [hexToBytes, h]

/-- Any other text is not: it is no signature of anything, and `verify` says
so rather than throws, once the options have been looked at. -/
theorem verify_other {s : JsString} (h : ¬IsHex s) :
    verify rt backends set publicKey message (.string s) opts
      = (normalizeContext opts).map fun _ => some false := by
  have hpairs : hexPairs s = none := by
    rw [← Option.not_isSome_iff_eq_none, hexPairs_isSome]
    exact h
  have hthrows : signatureBytes (.string s)
      = .error (error (js "invalid hex")) := by
    show hexToBytes (.string s) = _
    rw [hexToBytes, hpairs]
  cases hcontext : normalizeContext opts with
  | error e =>
      unfold verify
      rw [hcontext]
      rfl
  | ok context =>
      rw [verify_ok hcontext]
      have herror : ∃ e, verifyWith rt backends set publicKey message
          (.string s) context = .error e := by
        unfold verifyWith
        rw [hthrows]
        cases usesNative rt backends set context with
        | none => exact ⟨_, rfl⟩
        | some native =>
            cases toBytes message with
            | error e => exact ⟨e, rfl⟩
            | ok m => exact ⟨_, rfl⟩
      obtain ⟨e, he⟩ := herror
      rw [he]
      rfl

end Signature

/-- **The hex codec is exact**, in every copy, and so are the functions that
take hex in the place of bytes. Writing and reading are inverse; what is
read are the pairs of digits, of either case; a signature or a key that is
spelled in hexadecimal is taken as the bytes, in upper case as in lower; and
a signature that is no spelling is refused with `false`. -/
theorem hex_exact (rt : Runtime) (backends : Backends)
    (sha256 : Bytes → Bytes) :
    (∀ v, HexCodec.hexToBytes v = hexToBytes v)
    ∧ (∀ (m : HexCodec.Copy) (b : Bytes),
      m.hexToBytes (m.bytesToHex b) = .ok b)
    ∧ (∀ (m : HexCodec.Copy) (h : JsString),
      ((∃ b, m.hexToBytes h = .ok b)
        ↔ h.length % 2 = 0 ∧ ∀ c ∈ h, IsHexDigit c)
      ∧ ∀ b, m.hexToBytes h = .ok b → m.bytesToHex b = h.map lowerCase)
    ∧ (∀ (set : SignatureSet) (publicKey message opts : JsVal),
      (∀ b : Bytes,
        verify rt backends set publicKey message
            (.string (HexCodec.bytesToHex b)) opts
          = verify rt backends set publicKey message (.uint8Array b) opts
        ∧ verify rt backends set publicKey message
            (.string ((HexCodec.bytesToHex b).map upperCase)) opts
          = verify rt backends set publicKey message (.uint8Array b) opts)
      ∧ (∀ (h : JsString) (b : Bytes), HexCodec.hexToBytes (.string h) = .ok b →
        verify rt backends set publicKey message (.string h) opts
          = verify rt backends set publicKey message (.uint8Array b) opts)
      ∧ ∀ h : JsString, ¬(h.length % 2 = 0 ∧ ∀ c ∈ h, IsHexDigit c) →
        verify rt backends set publicKey message (.string h) opts
          = (normalizeContext opts).map fun _ => some false)
    ∧ ∀ k : Bytes,
      fingerprint rt sha256 (.string (HexCodec.bytesToHex k))
        = fingerprint rt sha256 (.uint8Array k)
      ∧ fingerprint rt sha256 (.string ((HexCodec.bytesToHex k).map upperCase))
        = fingerprint rt sha256 (.uint8Array k) := by
  have hlower : ∀ b : Bytes, hexPairs (HexCodec.bytesToHex b) = some b := by
    intro b
    rw [HexCodec.bytesToHex_eq]
    exact hexPairs_bytesToHex b
  have hupper : ∀ b : Bytes,
      hexPairs ((HexCodec.bytesToHex b).map upperCase) = some b :=
    fun b => hexPairs_upperCase (hlower b)
  refine ⟨HexCodec.hexToBytes_eq, Copy.roundTrip, ?_, ?_, ?_⟩
  · intro m h
    refine ⟨Copy.reads_iff m h, ?_⟩
    intro b hb
    rw [HexCodec.Copy.bytesToHex_eq]
    exact bytesToHex_of_hexPairs (m.hexToBytes_ok.mp hb)
  · intro set publicKey message opts
    refine ⟨?_, ?_, ?_⟩
    · intro b
      exact ⟨Signature.verify_spelling (hlower b),
        Signature.verify_spelling (hupper b)⟩
    · intro h b hb
      apply Signature.verify_spelling
      exact (HexCodec.Copy.hexToBytes_ok .mlDsa).mp hb
    · intro h hh
      exact Signature.verify_other (mt isHex_iff.mp hh)
  · intro k
    exact ⟨Kid.fingerprint_string (hlower k), Kid.fingerprint_string (hupper k)⟩

end KxcoPostQuantum
