/-
jws.js: signing, verifying and reading compact JWS tokens.

# Signing

`signJws` is cut after the header it makes (`signedHeader`): the algorithm
is the one asked for or the one that keys of this length are of, and the
caller's own members may be named neither `alg` nor `kid` nor `typ`. The
header and the payload are encoded and signed as one text.

# Verifying

A token is a JavaScript string. `verifyJws` is cut at its two seams: the
three segments are decoded inside a `try` (`decodeSegments`), and what is
checked of a decoded token follows it (`checkToken`). The checks stand in
the order of the source, each with the reason it gives, as the first that
fails is the one a caller is told. What is outside the `try` may throw:
the message that names an algorithm writes it as JSON.
-/
import KxcoPostQuantum.Js.Json
import KxcoPostQuantum.Jws.Codec
import KxcoPostQuantum.Signature.Modules

namespace KxcoPostQuantum.Jws

open Lib.Utf8
open Signature (SignatureSet Backends)

-- ======================================================== algorithms

/-- A row of `ALGORITHMS`: `mod` is named by its set. -/
structure Spec where
  mod : SignatureSet
  publicKeyBytes : Nat
  secretKeyBytes : Nat
  signatureBytes : Nat
  deriving DecidableEq

/-- `ALGORITHMS`, in key order. -/
def ALGORITHMS : List (JsString × Spec) :=
  [(js "ML-DSA-65", ⟨.mlDsa65, 1952, 4032, 3309⟩),
    (js "ML-DSA-87", ⟨.mlDsa87, 2592, 4896, 4627⟩)]

/-- `DEFAULT_ALG`. -/
def defaultAlg : JsString := js "ML-DSA-87"

/-- The row of an `alg` value; only a string that is a key of the table
has one. -/
def algorithmFor (alg : JsVal) : Option Spec :=
  match alg with
  | .string s => ALGORITHMS.lookup s
  | _ => none

/-- `secretKey?.byteLength ?? secretKey?.length`. -/
def keySize (secretKey : JsVal) : Except JsError JsVal :=
  let size (n : Nat) : JsVal := .number (.finite n)
  match secretKey with
  | .uint8Array b | .view _ b | .arrayBuffer b => .ok (size b.length)
  | .array elems => .ok (size elems.length)
  | .string s => .ok (size s.length)
  | .func _ => .ok (size 0)
  | .object _ _ => do
      let byteLength ← secretKey.get (js "byteLength")
      if byteLength.isNullish then secretKey.get (js "length")
      else return byteLength
  | _ => .ok .undefined

/-- The algorithm whose secret keys have the key's size. -/
def algorithmForSecretKey (secretKey : JsVal) :
    Except JsError (Option JsString) := do
  let size ← keySize secretKey
  return (ALGORITHMS.find? fun row => JsVal.strictEquals
    (.number (.finite row.2.secretKeyBytes)) size).map (·.1)

/-- `enc.encode` of a string or `undefined`. -/
def encodeText (text : Option JsString) : Bytes := textEncode (text.getD [])

/-- What is signed: the two segments as they stand in the token. -/
def signingInput (protectedB64 payloadB64 : JsString) : Bytes :=
  textEncode (protectedB64 ++ js "." ++ payloadB64)

variable (rt : Runtime) (backends : Backends)

-- ============================================================ signing

/-- The bytes of a payload. -/
def payloadBytes (payload : JsVal) : Except JsError Bytes :=
  match payload with
  | .uint8Array b => .ok b
  | .string s => .ok (textEncode s)
  | .null | .undefined => .error (typeError (js "payload is required"))
  | _ =>
      if payload.isObjectType then do
        return encodeText (← stringify rt payload)
      else .error (typeError
        (js "payload must be an object, a string or a Uint8Array"))

/-- `opts`, with its default. -/
def optionsOf (opts : JsVal) : JsVal :=
  match opts with
  | .undefined => .object [] []
  | _ => opts

/-- `opts === null || typeof opts !== 'object'`. -/
def notOptions (opts : JsVal) : Bool := opts.isNullish || !opts.isObjectType

/-- The `alg` a token is signed under. -/
def signingAlg (secretKey opts : JsVal) : Except JsError JsVal := do
  let alg ← opts.get (js "alg")
  if alg.isNullish then
    return .string ((← algorithmForSecretKey secretKey).getD defaultAlg)
  else return alg

/-- The members `opts.header` may not have. -/
def reservedMembers : List JsString := [js "alg", js "kid", js "typ"]

/-- `opts.header ?? {}`, with no reserved member. -/
def extraHeader (opts : JsVal) : Except JsError JsVal := do
  let header ← opts.get (js "header")
  let extra := if header.isNullish then .object [] [] else header
  match reservedMembers.find? extra.hasOwn with
  | some reserved =>
      throw (error (js "header." ++ reserved ++ js " is set through opts."
        ++ reserved ++ js ", not opts.header"))
  | none => return extra

/-- A member that is there unless it is `undefined`. -/
def optionalMember (k : JsString) (v : JsVal) : List (JsString × JsVal) :=
  match v with
  | .undefined => []
  | _ => [(k, v)]

/-- The row a token is signed under and its header. -/
def signedHeader (secretKey opts : JsVal) : Except JsError (Spec × JsVal) := do
  let alg ← signingAlg secretKey opts
  match algorithmFor alg with
  | none =>
      throw (error (js "unsupported JWS alg '" ++ (← template rt alg)
        ++ js "' — this module signs ML-DSA-65 and ML-DSA-87"))
  | some spec =>
      let extra ← extraHeader opts
      let typ ← opts.get (js "typ")
      let kid ← opts.get (js "kid")
      let members ← spread rt extra
      return (spec, objectOf ((js "alg", alg)
        :: (optionalMember (js "typ") typ ++ optionalMember (js "kid") kid
          ++ members)))

/-- Sign a payload into a compact JWS. -/
def signJws (payload secretKey opts : JsVal) : Except JsError JsString := do
  let opts := optionsOf opts
  if notOptions opts then
    throw (typeError (js "expected an options object such as { kid, alg }"))
  else
    let (spec, header) ← signedHeader rt secretKey opts
    let protectedB64 := b64url rt (encodeText (← stringify rt header))
    let payloadB64 := b64url rt (← payloadBytes rt payload)
    let sigHex ← Signature.sign rt backends spec.mod secretKey
      (.uint8Array (signingInput protectedB64 payloadB64)) .undefined
    let signature ← hexToBytes (.string sigHex)
    return protectedB64 ++ js "." ++ payloadB64 ++ js "."
      ++ b64url rt signature

-- ========================================================== verifying

/-- What `verifyJws` returns. -/
inductive VerifyResult
  | valid (header : JsVal) (payload : Bytes) (text : JsString)
  | invalid (error : JsString)

/-- A token whose segments have been decoded. -/
structure Decoded where
  header : JsVal
  payload : Bytes
  signature : Bytes

/-- The header a segment encodes. -/
def decodeHeader (protectedB64 : JsString) : Except JsError JsVal := do
  let bytes ← strictB64url rt (.string protectedB64) (js "header")
  jsonParse rt (textDecode bytes)

/-- The three segments, inside the `try`. -/
def decodeSegments (protectedB64 payloadB64 sigB64 : JsString) :
    Except JsError Decoded := do
  let header ← decodeHeader rt protectedB64
  let payload ← strictB64url rt (.string payloadB64) (js "payload")
  let signature ← strictB64url rt (.string sigB64) (js "signature")
  return { header, payload, signature }

/-- `header && typeof header === 'object' && !Array.isArray(header)`. -/
def isHeaderObject (header : JsVal) : Bool :=
  header.truthy && header.isObjectType && !header.isArray

/-- A value in a message: itself if it is a string, else its JSON. An engine
that runs out of stack on JSON nested some thousands deep throws here; the
stack is not modelled. -/
def named (v : JsVal) : Except JsError JsString :=
  match v with
  | .string s => .ok s
  | _ => do return (← stringify rt v).getD (js "undefined")

/-- A check that answers with the error it refuses the token with, and
what follows it. -/
def check (refusal : Except JsError (Option JsString))
    (next : Except JsError VerifyResult) : Except JsError VerifyResult := do
  match ← refusal with
  | some error => return .invalid error
  | none => next

/-- `opts.alg !== undefined && header.alg !== opts.alg`. -/
def checkAlg (opts : JsVal) (alg : JsString) :
    Except JsError (Option JsString) := do
  let pin ← opts.get (js "alg")
  if pin.strictEquals .undefined || (JsVal.string alg).strictEquals pin then
    return none
  else
    return some (js "alg mismatch: expected '" ++ (← template rt pin)
      ++ js "', token declares '" ++ alg ++ js "'")

/-- The `kid` a token declares, for a message. -/
def declaredKid (kid : JsVal) : Except JsError JsString :=
  match kid with
  | .undefined => .ok (js "(none)")
  | _ => named rt kid

/-- `opts.kid !== undefined && header.kid !== opts.kid`. -/
def checkKid (opts header : JsVal) : Except JsError (Option JsString) := do
  let pin ← opts.get (js "kid")
  let kid ← header.get (js "kid")
  if pin.strictEquals .undefined || kid.strictEquals pin then return none
  else
    let declared ← declaredKid rt kid
    return some (js "kid mismatch: expected '" ++ (← template rt pin)
      ++ js "', token declares '" ++ declared ++ js "'")

/-- A header member that must not be there. -/
def checkAbsent (header : JsVal) (k message : JsString) :
    Except JsError (Option JsString) := do
  let v ← header.get k
  return if v.strictEquals .undefined then none else some message

/-- The number of bytes of a key or a signature. -/
def checkLength (what whats alg : JsString) (length expected : Nat) :
    Option JsString :=
  if length = expected then none
  else some (what ++ js " is " ++ decimal length ++ js " bytes, but " ++ alg
    ++ js " " ++ whats ++ js " are " ++ decimal expected)

/-- `publicKey instanceof Uint8Array ? publicKey
: new Uint8Array(publicKey)`. -/
def keyBytesOf (publicKey : JsVal) : Except JsError Bytes :=
  match publicKey with
  | .uint8Array b => .ok b
  | _ => rt.newUint8Array publicKey

/-- The last check: the signature. -/
def checkSignature (spec : Spec) (token : Decoded) (keyBytes : Bytes)
    (protectedB64 payloadB64 : JsString) : Except JsError VerifyResult := do
  let ok ← Signature.verify rt backends spec.mod (.uint8Array keyBytes)
    (.uint8Array (signingInput protectedB64 payloadB64))
    (.string (bytesToHex token.signature)) .undefined
  if ok = some true then
    return .valid token.header token.payload (textDecode token.payload)
  else return .invalid (js "signature invalid")

/-- The checks of a token whose `alg` is listed. -/
def checkListed (spec : Spec) (alg : JsString) (token : Decoded)
    (publicKey opts : JsVal) (protectedB64 payloadB64 : JsString) :
    Except JsError VerifyResult :=
  check (checkAlg rt opts alg) <|
  check (checkKid rt opts token.header) <|
  check (checkAbsent token.header (js "crit")
    (js "JWS declares crit header parameters this verifier does not "
      ++ js "implement")) <|
  check (checkAbsent token.header (js "b64")
    (js "JWS declares b64, which this verifier does not implement")) <| do
  let keyBytes ← keyBytesOf rt publicKey
  check (.ok (checkLength (js "key") (js "public keys") alg keyBytes.length
    spec.publicKeyBytes)) <|
  check (.ok (checkLength (js "signature") (js "signatures") alg
    token.signature.length spec.signatureBytes)) <|
  checkSignature rt backends spec token keyBytes protectedB64 payloadB64

/-- The checks of a decoded token. -/
def checkToken (token : Decoded) (publicKey opts : JsVal)
    (protectedB64 payloadB64 : JsString) : Except JsError VerifyResult :=
  if isHeaderObject token.header then do
    let headerAlg ← token.header.get (js "alg")
    match headerAlg, algorithmFor headerAlg with
    | .string alg, some spec =>
        checkListed rt backends spec alg token publicKey opts protectedB64
          payloadB64
    | _, _ =>
        return .invalid (js "unsupported JWS alg '"
          ++ (← named rt headerAlg) ++ js "'")
  else .ok (.invalid (js "malformed JWS: header is not an object"))

/-- Verify a compact JWS. -/
def verifyJws (token publicKey opts : JsVal) :
    Except JsError VerifyResult :=
  let opts := optionsOf opts
  if notOptions opts then
    .error (typeError (js "expected an options object such as { alg, kid }"))
  else
    match token with
    | .string token =>
        match token.splitOn 46 with
        | [protectedB64, payloadB64, sigB64] =>
            match decodeSegments rt protectedB64 payloadB64 sigB64 with
            | .ok decoded =>
                checkToken rt backends decoded publicKey opts protectedB64
                  payloadB64
            | .error err => .ok (.invalid err.message)
        | _ =>
            .ok (.invalid
              (js "malformed JWS: expected three dot-separated segments"))
    | _ => .ok (.invalid (js "token must be a string"))

/-- Read a token's header without verifying anything. -/
def decodeJwsHeader (token : JsVal) : Option JsVal :=
  match token with
  | .string token =>
      match decodeHeader rt ((token.splitOn 46).headD []) with
      | .ok header => if isHeaderObject header then some header else none
      | .error _ => none
  | _ => none

end KxcoPostQuantum.Jws
