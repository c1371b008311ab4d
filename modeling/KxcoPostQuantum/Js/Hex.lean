/-
The hexadecimal helpers, `bytesToHex` and `hexToBytes`, of which jws.js
and every signature module carry the same copy.

`hexToBytes` first tests its argument with an expression: pairs of digits
of either case and nothing else, the empty string included. So `parseInt`
is only given pairs of digits, and what it would make of other texts never
shows. `IsHex` is that test, and `hexPairs` the reading.
-/
import KxcoPostQuantum.Js.Value

namespace KxcoPostQuantum

/-- The two lower-case digits of a byte. -/
def byteHex (b : UInt8) : JsString :=
  [Lib.Json.hexDigit (b.toNat / 16), Lib.Json.hexDigit (b.toNat % 16)]

/-- The hexadecimal text of some bytes. -/
def bytesToHex (bytes : Bytes) : JsString := bytes.flatMap byteHex

/-- The bytes of an even number of hexadecimal digits. -/
def hexPairs : JsString → Option Bytes
  | [] => some []
  | [_] => none
  | c :: d :: rest =>
      match Lib.Json.hexValue c, Lib.Json.hexValue d, hexPairs rest with
      | some h, some l, some bytes => some ((h * 16 + l).toUInt8 :: bytes)
      | _, _, _ => none

/-- Induction over the pairs of a text that is read: nothing, or two digits
in front of a text that is. A proof by it never sees a text of odd length,
or one with another character. -/
theorem hexPairs_induction {motive : JsString → Bytes → Prop}
    (nil : motive [] [])
    (pair : ∀ {c d : UInt16} {h l : Nat} {rest : JsString} {bytes : Bytes},
      Lib.Json.hexValue c = some h → Lib.Json.hexValue d = some l →
      hexPairs rest = some bytes → motive rest bytes →
        motive (c :: d :: rest) ((h * 16 + l).toUInt8 :: bytes))
    {s : JsString} {b : Bytes} (hs : hexPairs s = some b) : motive s b := by
  induction s using hexPairs.induct generalizing b with
  | case1 =>
      cases hs
      exact nil
  | case2 => cases hs
  | case3 c d rest h l bytes hrest hd hc ih =>
      rw [hexPairs, hc, hd, hrest] at hs
      cases hs
      exact pair hc hd hrest (ih hrest)
  | case4 c d rest hnone ih =>
      rw [hexPairs] at hs
      split at hs
      next hc hd hrest => exact absurd hrest (hnone _ _ _ hc hd)
      next => cases hs

/-- The bytes of a hexadecimal text of either case. -/
def hexToBytes (hex : JsVal) : Except JsError Bytes :=
  match hex with
  | .string s =>
      match hexPairs s with
      | some bytes => .ok bytes
      | none => .error (error (js "invalid hex"))
  | _ => .error (error (js "invalid hex"))

/-- The number of two digits of a byte is the byte. -/
theorem digits_toUInt8 (b : UInt8) :
    (b.toNat / 16 * 16 + b.toNat % 16).toUInt8 = b := by
  rw [Nat.div_add_mod', Nat.toUInt8_eq, UInt8.ofNat_toNat]

theorem hexPairs_bytesToHex (bytes : Bytes) :
    hexPairs (bytesToHex bytes) = some bytes := by
  induction bytes with
  | nil => rfl
  | cons b rest ih =>
      have hb := b.toNat_lt
      have htext : bytesToHex (b :: rest)
          = Lib.Json.hexDigit (b.toNat / 16)
            :: Lib.Json.hexDigit (b.toNat % 16) :: bytesToHex rest := rfl
      rw [htext, hexPairs, Lib.Json.hexValue_hexDigit _ (by omega),
        Lib.Json.hexValue_hexDigit _ (by omega), ih]
      simp only [digits_toUInt8]

/-- **Round trip** of the hexadecimal form of a signature. -/
theorem hexToBytes_bytesToHex (bytes : Bytes) :
    hexToBytes (.string (bytesToHex bytes)) = .ok bytes := by
  rw [hexToBytes, hexPairs_bytesToHex]

-- ================================================================ texts

/-- An even number of hexadecimal digits, of either case. -/
def IsHex (s : JsString) : Prop :=
  s.length % 2 = 0 ∧ ∀ c ∈ s, (Lib.Json.hexValue c).isSome = true

/-- What is read as bytes is hex: an even number of digits of either case.
By the recursion of `hexPairs`, which takes two characters at a time. -/
theorem hexPairs_isSome : ∀ s : JsString,
    (hexPairs s).isSome = true ↔ IsHex s
  | [] => by simp [hexPairs, IsHex]
  | [c] => by simp [hexPairs, IsHex]
  | c :: d :: rest => by
      have ih := hexPairs_isSome rest
      have hlength : (c :: d :: rest).length % 2 = 0 ↔ rest.length % 2 = 0 := by
        rw [List.length_cons, List.length_cons]
        omega
      rw [IsHex, hlength, List.forall_mem_cons, List.forall_mem_cons, hexPairs]
      rw [IsHex] at ih
      cases hc : Lib.Json.hexValue c with
      | none => simp
      | some h =>
          cases hd : Lib.Json.hexValue d with
          | none => simp
          | some l =>
              cases hrest : hexPairs rest with
              | none =>
                  rw [hrest] at ih
                  simpa using ih
              | some bytes =>
                  rw [hrest] at ih
                  simpa using ih

theorem isHex_of_hexPairs {s : JsString} {bytes : Bytes}
    (h : hexPairs s = some bytes) : IsHex s :=
  (hexPairs_isSome s).mp (by rw [h]; rfl)

end KxcoPostQuantum
