/-
ml-dsa.js, ml-dsa-87.js and slh-dsa.js: `sign` and `verify`.

The three modules are one text with the name of the set and the noble
object filled in. The texts are here once, by the set; `mlDsa`,
`mlDsa87` and `slhDsa` are the modules.

noble is a parameter. `sign` of a hedged scheme is not a function; the
one here stands for the answers of one run, and nothing is assumed of it
that a second answer could break.
-/
import KxcoPostQuantum.Signature.Native
import KxcoPostQuantum.Js.Hex

namespace KxcoPostQuantum.Signature

open Lib.Utf8

/-- The parameter sets of the signature modules. -/
inductive SignatureSet
  | mlDsa65
  | mlDsa87
  | slhDsa192s
  deriving DecidableEq

namespace SignatureSet

/-- `NATIVE_ALG`. -/
def nativeAlg : SignatureSet → JsString
  | mlDsa65 => js "ML-DSA-65"
  | mlDsa87 => js "ML-DSA-87"
  | slhDsa192s => js "SLH-DSA-SHA2-192s"

/-- The length of a public key, FIPS 204 and FIPS 205. -/
def publicKeyBytes : SignatureSet → Nat
  | mlDsa65 => 1952
  | mlDsa87 => 2592
  | slhDsa192s => 48

end SignatureSet

/-- The noble objects. -/
structure Noble where
  sign : SignatureSet → (message : Bytes) → (secretKey : JsVal) →
    (context : Option Bytes) → Except JsError Bytes
  verify : SignatureSet → (signature message : Bytes) →
    (publicKey : JsVal) → (context : Option Bytes) → Except JsError Bool

/-- What the modules import: `native`, which may be `null`, and noble. -/
structure Backends where
  native : Option OpenSsl
  noble : Noble

/-- A message. -/
def toBytes : JsVal → Except JsError Bytes
  | .uint8Array b => .ok b
  | .string s => .ok (textEncode s)
  | _ => .error (error (js "expected Uint8Array or string"))

/-- A signature, as raw bytes or as hex. -/
def signatureBytes (sig : JsVal) : Except JsError Bytes :=
  match sig with
  | .uint8Array b => .ok b
  | _ => hexToBytes sig

variable (rt : Runtime) (backends : Backends)

/-- `native`, if `usesNative(context)`. -/
def usesNative (set : SignatureSet) (context : Option Bytes) :
    Option OpenSsl :=
  backends.native.filter fun native =>
    native.supports rt set.nativeAlg
      && (context.isNone || native.contextHonoured)

/-- `sign(secretKey, message, opts)` of a module whose set has PKCS#8
private keys. -/
def sign (set : SignatureSet) (secretKey message opts : JsVal) :
    Except JsError JsString := do
  let context ← normalizeContext opts
  match usesNative rt backends set context with
  | some native =>
      let message ← toBytes message
      match ← native.nativeSign rt set.nativeAlg secretKey message context with
      | some signature => return bytesToHex signature
      | none =>
          throw (typeError
            (js "Cannot read properties of null (reading 'length')"))
  | none =>
      let message ← toBytes message
      let signature ← backends.noble.sign set message secretKey context
      return bytesToHex signature

/-- What `verify` runs inside its `try`. -/
def verifyWith (set : SignatureSet) (publicKey message signature : JsVal)
    (context : Option Bytes) : Except JsError (Option Bool) := do
  match usesNative rt backends set context with
  | some native =>
      let message ← toBytes message
      let signature ← signatureBytes signature
      return native.nativeVerify rt set.nativeAlg publicKey message signature
        context
  | none =>
      let signature ← signatureBytes signature
      let message ← toBytes message
      let ok ← backends.noble.verify set signature message publicKey context
      return some ok

/-- `verify(publicKey, message, signature, opts)`; none is `null`. -/
def verify (set : SignatureSet) (publicKey message signature opts : JsVal) :
    Except JsError (Option Bool) := do
  -- outside the try: misuse must surface
  let context ← normalizeContext opts
  match verifyWith rt backends set publicKey message signature context with
  | .ok ok => return ok
  | .error _ => return some false

/-- The answer for a context that is in order: `verify` returns. -/
theorem verify_ok {rt : Runtime} {backends : Backends} {set : SignatureSet}
    {publicKey message signature opts : JsVal} {context : Option Bytes}
    (hcontext : normalizeContext opts = .ok context) :
    verify rt backends set publicKey message signature opts
      = .ok ((verifyWith rt backends set publicKey message signature
          context).toOption.getD (some false)) := by
  rw [verify, hcontext]
  show (match verifyWith rt backends set publicKey message signature
    context with
    | .ok ok => Except.ok ok
    | .error _ => .ok (some false)) = _
  cases verifyWith rt backends set publicKey message signature context <;>
    rfl

-- ============================================================ modules

namespace mlDsa

/-- ml-dsa.js `sign`. -/
def sign := Signature.sign rt backends .mlDsa65

/-- ml-dsa.js `verify`. -/
def verify := Signature.verify rt backends .mlDsa65

end mlDsa

namespace mlDsa87

/-- ml-dsa-87.js `sign`. -/
def sign := Signature.sign rt backends .mlDsa87

/-- ml-dsa-87.js `verify`. -/
def verify := Signature.verify rt backends .mlDsa87

end mlDsa87

namespace slhDsa

/-- slh-dsa.js `verify`. -/
def verify := Signature.verify rt backends .slhDsa192s

end slhDsa

end KxcoPostQuantum.Signature
