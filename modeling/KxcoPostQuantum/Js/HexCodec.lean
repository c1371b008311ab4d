/-
The hexadecimal codec as the modules write it, loop for loop.

Six modules carry `hexToBytes` and `bytesToHex`: ml-dsa.js, ml-dsa-87.js,
slh-dsa.js, jws.js, fips/index.js, which calls the second one `toHex`,
and kid.js, whose `hexToBytes` checks the length first. webhook.js has
`bytesToHex` only.

Js/Hex.lean has the two functions by what they compute; here they are
shown to compute it (`hexToBytes_eq`, `bytesToHex_eq`).
-/
import KxcoPostQuantum.Js.Hex
import KxcoPostQuantum.Js.TypedArray
import KxcoPostQuantum.Lib.Buffer
import KxcoPostQuantum.Lib.Ecma.Number

namespace KxcoPostQuantum.HexCodec

open Lib.Buffer Lib.Ecma

-- ============================================================== reading

/-- `/^[0-9a-fA-F]*$/.test(s)`. -/
def isHexText (s : JsString) : Bool :=
  s.all fun c =>
    48 ≤ c.toNat && c.toNat ≤ 57 || 97 ≤ c.toNat && c.toNat ≤ 102
      || 65 ≤ c.toNat && c.toNat ≤ 70

/-- `s.slice(start, stop)`, for indices up to the length. -/
def slice (s : JsString) (start stop : Nat) : JsString :=
  (s.drop start).take (stop - start)

/-- `b[i] = parseInt(hex.slice(i * 2, i * 2 + 2), 16)`, the value. -/
def byteAt (hex : JsString) (i : Nat) : UInt8 :=
  ((parseInt 16 (slice hex (i * 2) (i * 2 + 2))).elim JsNumber.nan
    fun n => .finite n).toUint8

/-- The array and the loop. -/
def readBytes (hex : JsString) : Bytes :=
  let b : Bytes := List.replicate (hex.length / 2) 0
  (List.range b.length).foldl (fun b i => b.set i (byteAt hex i)) b

/-- `hexToBytes(hex)` of every module but kid.js. -/
def hexToBytes (hex : JsVal) : Except JsError Bytes :=
  match hex with
  | .string s =>
      if s.length % 2 ≠ 0 ∨ !isHexText s then .error (error (js "invalid hex"))
      else .ok (readBytes s)
  | _ => .error (error (js "invalid hex"))

/-- kid.js `hexToBytes(hex)`. -/
def kidHexToBytes (hex : JsString) : Except JsError Bytes :=
  if hex.length % 2 ≠ 0 then .error (error (js "odd hex length"))
  else if !isHexText hex then .error (error (js "invalid hex"))
  else .ok (readBytes hex)

-- ============================================================== writing

/-- `bytesToHex(bytes)`. -/
def bytesToHex (bytes : Bytes) : JsString :=
  bytes.foldl (fun s b => s ++ padStart (toRadix 16 b.toNat) 2 48) []

-- =============================================================== copies

/-- The modules with both functions. -/
inductive Copy
  | mlDsa
  | mlDsa87
  | slhDsa
  | jws
  | fips
  | kid
  deriving DecidableEq

/-- Its `hexToBytes`, of a string. -/
def Copy.hexToBytes : Copy → JsString → Except JsError Bytes
  | mlDsa, s | mlDsa87, s | slhDsa, s | jws, s | fips, s =>
      HexCodec.hexToBytes (.string s)
  | kid, s => kidHexToBytes s

/-- Its `bytesToHex`. -/
def Copy.bytesToHex : Copy → Bytes → JsString
  | mlDsa | mlDsa87 | slhDsa | jws | fips | kid => HexCodec.bytesToHex

-- ======================================================== what they do

/-- The class of the regular expression is that of the digits: the ranges
that it names are the characters which have a value. -/
theorem isHexText_iff {s : JsString} :
    isHexText s = true ↔ ∀ c ∈ s, (Lib.Json.hexValue c).isSome = true := by
  unfold isHexText
  rw [List.all_eq_true]
  refine forall₂_congr fun c _ => ?_
  simp only [Bool.or_eq_true, Bool.and_eq_true, decide_eq_true_eq]
  unfold Lib.Json.hexValue
  simp only
  split
  next h => exact iff_of_true (Or.inl (Or.inl h)) rfl
  next h =>
    split
    next h' => exact iff_of_true (Or.inl (Or.inr h')) rfl
    next h' =>
      split
      next h'' => exact iff_of_true (Or.inr h'') rfl
      next h'' =>
        refine iff_of_false ?_ Bool.false_ne_true
        rintro ((hc | hc) | hc)
        · exact h hc
        · exact h' hc
        · exact h'' hc

/-- A hexadecimal digit is a digit of radix 16. -/
theorem radixDigit_of_hexValue {c : UInt16} {d : Nat}
    (h : Lib.Json.hexValue c = some d) : radixDigit 16 c = some d := by
  have hvalue : digitValue c = some d ∧ d < 16 := by
    unfold Lib.Json.hexValue at h
    unfold digitValue
    simp only at h ⊢
    by_cases h₀ : 48 ≤ c.toNat ∧ c.toNat ≤ 57
    · rw [if_pos h₀] at h ⊢
      cases h
      exact ⟨rfl, by omega⟩
    rw [if_neg h₀] at h ⊢
    by_cases h₁ : 97 ≤ c.toNat ∧ c.toNat ≤ 102
    · rw [if_pos h₁] at h
      cases h
      rw [if_pos (by omega)]
      exact ⟨rfl, by omega⟩
    rw [if_neg h₁] at h
    by_cases h₂ : 65 ≤ c.toNat ∧ c.toNat ≤ 70
    · rw [if_pos h₂] at h
      cases h
      rw [if_neg (by omega), if_pos (by omega)]
      exact ⟨rfl, by omega⟩
    · rw [if_neg h₂] at h
      cases h
  exact Option.filter_eq_some_iff.mpr ⟨hvalue.1, decide_eq_true hvalue.2⟩

/-- A turn of the loop, on two digits. -/
theorem byteAt_digits {hex : JsString} {i : Nat} {c d : UInt16} {h l : Nat}
    (hslice : slice hex (i * 2) (i * 2 + 2) = [c, d])
    (hc : Lib.Json.hexValue c = some h) (hd : Lib.Json.hexValue d = some l) :
    byteAt hex i = (h * 16 + l).toUInt8 := by
  have hdigit : ∀ {c : UInt16} {n : Nat}, Lib.Json.hexValue c = some n →
      n < 16 := by
    intro c n hn
    obtain ⟨-, hlt⟩ := Option.filter_eq_some_iff.mp (radixDigit_of_hexValue hn)
    exact of_decide_eq_true hlt
  have hh := hdigit hc
  have hl := hdigit hd
  unfold byteAt
  rw [hslice, parseInt_pair (radixDigit_of_hexValue hc)
    (radixDigit_of_hexValue hd)]
  show (JsNumber.finite ((h * 16 + l : Nat) : Int)).toUint8 = _
  rw [toUint8_intCast]
  congr 1
  omega

/-- The loop takes the text in pairs. It counts the bytes and cuts the text
anew for each, where `hexPairs` goes through the text once. -/
theorem range_byteAt {s : JsString} {b : Bytes} (h : hexPairs s = some b) :
    (List.range (s.length / 2)).map (byteAt s) = b := by
  refine hexPairs_induction (motive := fun s b =>
    (List.range (s.length / 2)).map (byteAt s) = b) rfl ?_ h
  intro c d x l rest bytes hc hd _ ih
  have hlength : (c :: d :: rest).length / 2 = rest.length / 2 + 1 := by
    rw [List.length_cons, List.length_cons]
    omega
  have hshift : ∀ i, byteAt (c :: d :: rest) (i + 1) = byteAt rest i := by
    intro i
    unfold byteAt slice
    rw [show (i + 1) * 2 = i * 2 + 1 + 1 by omega, List.drop_succ_cons,
      List.drop_succ_cons, show i * 2 + 1 + 1 + 2 - (i * 2 + 1 + 1) = 2
        by omega, Nat.add_sub_cancel_left]
  rw [hlength, List.range_succ_eq_map, List.map_cons, List.map_map,
    byteAt_digits rfl hc hd]
  refine congrArg _ ((List.map_congr_left fun i _ => ?_).trans ih)
  exact hshift i

theorem readBytes_eq {s : JsString} {b : Bytes} (h : hexPairs s = some b) :
    readBytes s = b := by
  unfold readBytes
  simp only [List.length_replicate]
  rw [foldl_set_range]
  exact range_byteAt h

/-- The two checks let through what is pairs of digits. -/
theorem checks_iff {s : JsString} :
    s.length % 2 = 0 ∧ isHexText s = true ↔ ∃ b, hexPairs s = some b := by
  rw [← Option.isSome_iff_exists, hexPairs_isSome, isHexText_iff]
  rfl

/-- **The copies agree**, on every string that can be hexadecimal. They
differ only in what they say of the others. -/
theorem Copy.hexToBytes_ok (m : Copy) {s : JsString} {b : Bytes} :
    m.hexToBytes s = .ok b ↔ hexPairs s = some b := by
  have hread : s.length % 2 = 0 ∧ isHexText s = true ∧ readBytes s = b
      ↔ hexPairs s = some b := by
    rw [← and_assoc, checks_iff]
    constructor
    · rintro ⟨⟨b', hb'⟩, rfl⟩
      rw [readBytes_eq hb', hb']
    · intro hb
      exact ⟨⟨b, hb⟩, readBytes_eq hb⟩
  rw [← hread]
  cases m with
  | kid =>
      show kidHexToBytes s = .ok b ↔ _
      unfold kidHexToBytes
      by_cases hlength : s.length % 2 = 0 <;> by_cases htext : isHexText s <;>
        simp [hlength, htext]
  | mlDsa | mlDsa87 | slhDsa | jws | fips =>
      show HexCodec.hexToBytes (.string s) = .ok b ↔ _
      unfold HexCodec.hexToBytes
      by_cases hlength : s.length % 2 = 0 <;> by_cases htext : isHexText s <;>
        simp [hlength, htext]

/-- The copy of the signature modules is `KxcoPostQuantum.hexToBytes`. -/
theorem hexToBytes_eq (v : JsVal) :
    hexToBytes v = KxcoPostQuantum.hexToBytes v := by
  cases v with
  | string s =>
      rw [KxcoPostQuantum.hexToBytes]
      cases hs : hexPairs s with
      | some b => exact (Copy.hexToBytes_ok .mlDsa).mpr hs
      | none =>
          have hchecks : ¬(s.length % 2 = 0 ∧ isHexText s = true) := by
            rw [checks_iff, hs]
            rintro ⟨b, hb⟩
            cases hb
          unfold hexToBytes
          by_cases hlength : s.length % 2 = 0 <;>
            by_cases htext : isHexText s <;> simp_all
  | _ => rfl

/-- Two digits of every byte. -/
theorem padStart_toRadix (b : UInt8) :
    padStart (toRadix 16 b.toNat) 2 48 = byteHex b := by
  have hall : ∀ n < 256, padStart (toRadix 16 n) 2 48
      = [Lib.Json.hexDigit (n / 16), Lib.Json.hexDigit (n % 16)] := by
    decide +kernel
  exact hall b.toNat b.toNat_lt

theorem bytesToHex_eq (bytes : Bytes) :
    bytesToHex bytes = KxcoPostQuantum.bytesToHex bytes := by
  have hfold : ∀ text : JsString,
      bytes.foldl (fun s b => s ++ padStart (toRadix 16 b.toNat) 2 48) text
        = text ++ KxcoPostQuantum.bytesToHex bytes := by
    induction bytes with
    | nil => exact fun text => (List.append_nil text).symm
    | cons b bytes ih =>
        intro text
        rw [List.foldl_cons, ih, padStart_toRadix, List.append_assoc]
        rfl
  exact hfold []

theorem Copy.bytesToHex_eq (m : Copy) (bytes : Bytes) :
    m.bytesToHex bytes = KxcoPostQuantum.bytesToHex bytes := by
  cases m <;> exact HexCodec.bytesToHex_eq bytes

end KxcoPostQuantum.HexCodec
