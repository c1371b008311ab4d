/-
_context.js and the signing half of _native.node.js.

# Contexts

An options bag may be missing; otherwise it has to be an object, neither
an array nor bytes, and its `context`, if there is one, bytes or a string,
which is encoded as UTF-8, and at most 255 bytes long. An empty context is
no context.

# OpenSSL

OpenSSL is a parameter, `OpenSsl`: what the probes at import found, and
`crypto.sign` and `crypto.verify` as functions of the DER the module hands
them. A key object that cannot be created and a call that throws are the
same to every caller here, so both are one error.

# DER

`toPkcs8` and `toSpki` put raw keys between an algorithm identifier, which
the module cuts out of a key that OpenSSL has exported, and the headers
around it. `derLength` knows lengths of two octets at most.
-/
import KxcoPostQuantum.Js.Value
import KxcoPostQuantum.Lib.Utf8

namespace KxcoPostQuantum.Signature

open Lib.Utf8

-- =========================================================== contexts

/-- `MAX_CONTEXT_BYTES`. -/
def maxContextBytes : Nat := 255

/-- A context byte string that is not too long; an empty one is none. -/
def checkedContext (bytes : Bytes) : Except JsError (Option Bytes) :=
  if bytes.length > maxContextBytes then
    .error (rangeError (js "context must be at most "
      ++ decimal maxContextBytes ++ js " bytes (FIPS 204 section 5.2), got "
      ++ decimal bytes.length))
  else .ok (if bytes.length = 0 then none else some bytes)

/-- The context of an options bag. -/
def normalizeContext (opts : JsVal) : Except JsError (Option Bytes) :=
  match opts with
  | .undefined | .null => .ok none
  | _ =>
      if ¬opts.isObjectType ∨ opts.isArray ∨ opts.uint8Array?.isSome then
        .error (typeError
          (js "expected an options object such as { context }, "
            ++ js "not a bare value"))
      else do
        match ← opts.get (js "context") with
        | .undefined | .null => return none
        | .uint8Array bytes => checkedContext bytes
        | .string s => checkedContext (textEncode s)
        | _ =>
            throw (typeError
              (js "context must be a Uint8Array or a string"))

theorem normalizeContext_undefined : normalizeContext .undefined = .ok none :=
  rfl

/-- noble's `getMessage`: what is signed and verified for a message under a
context. -/
def getMessage (msg ctx : Bytes) : Except JsError Bytes :=
  if ctx.length > 255 then
    .error (rangeError (js "context should be 255 bytes or less"))
  else .ok (0x00 :: ctx.length.toUInt8 :: (ctx ++ msg))

-- ================================================================ DER

/-- The length octets of a DER element; `Buffer.from` keeps the low byte
of a number. -/
def derLength (length : Nat) : Bytes :=
  if length < 0x80 then [length.toUInt8]
  else if length < 0x100 then [0x81, length.toUInt8]
  else [0x82, (length / 0x100).toUInt8, (length % 0x100).toUInt8]

/-- A DER element. -/
def der (tag : UInt8) (payload : Bytes) : Bytes :=
  tag :: (derLength payload.length ++ payload)

/-- `algorithmIdentifier` of a key, by its PKCS#8 export. Past the end an
octet is `undefined`, which sets no bit and makes the range empty. -/
def algorithmIdentifier (pkcs8 : Bytes) : Bytes :=
  let second := pkcs8[1]?.getD 0
  let headerLength :=
    if second &&& 0x80 ≠ 0 then 2 + (second &&& 0x7f).toNat else 2
  let start := headerLength + 3
  match pkcs8[start + 1]? with
  | some length => (pkcs8.drop start).take (2 + length.toNat)
  | none => []

/-- A private key in its expanded form. -/
def toPkcs8 (algid privateBytes : Bytes) : Bytes :=
  der 0x30 ([0x02, 0x01, 0x00] ++ algid ++ der 0x04 (der 0x04 privateBytes))

/-- A public key. -/
def toSpki (algid publicBytes : Bytes) : Bytes :=
  der 0x30 (algid ++ der 0x03 (0x00 :: publicBytes))

-- ============================================================ OpenSSL

/-- What the module has of OpenSSL. -/
structure OpenSsl where
  /-- `SUPPORTED`: the AlgorithmIdentifier of each set in this build. -/
  algid : JsString → Option Bytes
  /-- `probeContext()`. -/
  contextHonoured : Bool
  /-- `crypto.sign` under a PKCS#8 private key. -/
  sign : (pkcs8 message : Bytes) → (context : Option Bytes) →
    Except JsError Bytes
  /-- `crypto.verify` under an SPKI public key. -/
  verify : (spki message : Bytes) → (context : Option Bytes) →
    (signature : Bytes) → Except JsError Bool

/-- `Buffer.from(v)`. -/
def bufferFrom (rt : Runtime) : JsVal → Except JsError Bytes
  | .uint8Array b => .ok b
  | v => rt.bufferFrom v

namespace OpenSsl

variable (rt : Runtime) (native : OpenSsl)

/-- `native.supports(alg)`. -/
def supports (alg : JsString) : Bool :=
  rt.hasBuffer && (native.algid alg).isSome

/-- `native.sign(alg, secretKey, message, undefined, context)` of a set
whose private keys go in as PKCS#8; none is `null`. -/
def nativeSign (alg : JsString) (secretKey : JsVal) (message : Bytes)
    (context : Option Bytes) : Except JsError (Option Bytes) :=
  match native.algid alg with
  | none => .ok none
  | some algid => do
      let privateBytes ← bufferFrom rt secretKey
      let signature ←
        native.sign (toPkcs8 algid privateBytes) message context
      return some signature

/-- `native.verify(alg, publicKey, message, signature, context)`; none is
`null`. -/
def nativeVerify (alg : JsString) (publicKey : JsVal)
    (message signature : Bytes) (context : Option Bytes) : Option Bool :=
  match native.algid alg with
  | none => none
  | some algid =>
      let result : Except JsError Bool := do
        let publicBytes ← bufferFrom rt publicKey
        native.verify (toSpki algid publicBytes) message context signature
      match result with
      | .ok ok => some ok
      -- a malformed key or signature is a failed verification
      | .error _ => some false

end OpenSsl

end KxcoPostQuantum.Signature
