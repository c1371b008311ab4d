/-
kid.js: the fingerprint of a public key.

SHA-256 is a parameter. A key is bytes or their spelling in hexadecimal,
and the fingerprint is the first digits of the digest; which of the two
forms the key came in does not show in it.
-/
import KxcoPostQuantum.Js.HexCodec

namespace KxcoPostQuantum.Kid

variable (rt : Runtime) (sha256 : Bytes → Bytes)

/-- `fingerprint(publicKey)`. -/
def fingerprint (publicKey : JsVal) : Except JsError JsString := do
  let bytes ← match publicKey with
    | .string s => HexCodec.kidHexToBytes s
    | .uint8Array b => .ok b
    | _ => rt.newUint8Array publicKey
  return (HexCodec.bytesToHex (sha256 bytes)).take 16

variable {rt sha256}

/-- A key as hexadecimal text is the key. -/
theorem fingerprint_string {s : JsString} {k : Bytes}
    (h : hexPairs s = some k) :
    fingerprint rt sha256 (.string s)
      = fingerprint rt sha256 (.uint8Array k) := by
  have hread : HexCodec.kidHexToBytes s = .ok k :=
    (HexCodec.Copy.hexToBytes_ok .kid).mpr h
  unfold fingerprint
  simp only [hread]

end KxcoPostQuantum.Kid
