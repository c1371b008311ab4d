/-
The DER walker of conformance/protocol/run-protocol.mjs, and the two
functions that take a certificate and a key apart with it.

# Numbers

A position in a buffer is an integer: a length may lead the walk back, in
front of the buffer as well. Reading past either end gives `undefined`.
A long length is put together with `<<` and `|`, which work on 32-bit
integers and take `undefined` for zero. A short length is the octet as it
is, and where that is `undefined` the end of the element is NaN, which
compares as neither before nor behind anything; none stands for it.
-/
import KxcoPostQuantum.Js.Value
import KxcoPostQuantum.Lib.Walk

namespace KxcoPostQuantum.Conformance.Protocol

open Lib

/-- What `readTag` returns: `stop` is its `end`. -/
structure Element where
  tag : Option UInt8
  tagStart : Int
  start : Int
  stop : Option Int
  len : Option Int

/-- `buf[i]`. -/
def octet (buf : Bytes) (i : Int) : Option UInt8 :=
  if i < 0 then none else buf[i.toNat]?

/-- `len | v` of a 32-bit integer, where `v` is an octet or missing. -/
def orOctet (len : BitVec 32) (v : Option UInt8) : BitVec 32 :=
  len ||| (v.getD 0).toBitVec.setWidth 32

/-- The rest of the loop over the length octets: the length, and where the
contents start. -/
def readLength (buf : Bytes) : (n : Nat) → (len : BitVec 32) → (i : Int) →
    BitVec 32 × Int
  | 0, len, i => (len, i)
  | n + 1, len, i =>
      readLength buf n (orOctet (len <<< 8) (octet buf i)) (i + 1)

def readTag (buf : Bytes) (i : Int) : Element :=
  let tag := octet buf i
  match octet buf (i + 1) with
  | none =>
      { tag, tagStart := i, start := i + 2, stop := none, len := none }
  | some b =>
      if b &&& 0x80 = 0 then
        { tag
          tagStart := i
          start := i + 2
          stop := some (i + 2 + b.toNat)
          len := some b.toNat }
      else
        let (len, start) := readLength buf (b &&& 0x7f).toNat 0 (i + 2)
        { tag
          tagStart := i
          start
          stop := some (start + len.toInt)
          len := some len.toInt }

/-- `children(buf, seq)`, with fuel for its loop. -/
def children (fuel : Nat) (buf : Bytes) (seq : Element) :
    Option (List Element) :=
  match seq.stop with
  | none => some []
  | some stop => walk (readTag buf) Element.stop stop fuel (some seq.start)

/-- `buf.subarray(begin, end)`; NaN counts as zero. -/
def subarray (buf : Bytes) (start : Int) (stop : Option Int) : Bytes :=
  let place (i : Int) : Nat :=
    if i < 0 then (buf.length + i).toNat else min i.toNat buf.length
  (buf.take (place (stop.getD 0))).drop (place start)

/-- The error of reading a member of a child that is not there. -/
def missing (member : JsString) : JsError :=
  typeError (js "Cannot read properties of undefined (reading '" ++ member
    ++ js "')")

/-- The signed bytes of a certificate and its signature. -/
def splitCertificate (fuel : Nat) (der : Bytes) :
    Option (Except JsError (Bytes × Bytes)) := do
  match ← children fuel der (readTag der 0) with
  | [] => return .error (missing (js "tagStart"))
  | tbs :: _ :: sigBits :: _ =>
      return .ok (subarray der tbs.tagStart tbs.stop,
        subarray der (sigBits.start + 1) sigBits.stop)
  | _ => return .error (missing (js "start"))

/-- The raw public key out of a SubjectPublicKeyInfo. -/
def rawKeyFromSpki (fuel : Nat) (spki : Bytes) (expectedLen : Nat) :
    Option (Except JsError Bytes) := do
  match ← children fuel spki (readTag spki 0) with
  | _ :: bits :: _ =>
      let raw := subarray spki (bits.start + 1) bits.stop
      if raw.length ≠ expectedLen then
        return .error (error (js "expected a " ++ decimal expectedLen
          ++ js "-byte key, got " ++ decimal raw.length))
      else return .ok raw
  | _ => return .error (missing (js "start"))

end KxcoPostQuantum.Conformance.Protocol
