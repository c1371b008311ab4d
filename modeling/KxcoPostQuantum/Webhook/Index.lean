/-
webhook.js: the envelope, the sending and the receiving side.

HMAC-SHA-256 is a parameter, a function of the key and the message. So is
the clock, by what `Date.now()` answers.

# The envelope

What is signed, by either signature, is the timestamp, a dot and the body
as it was sent. The timestamp is digits on the receiving side, so that the
first dot is where the body begins.

# Receiving

`verifyDelivery` is cut where it has read the headers (`readDelivery`):
what it knows then decides which of the two signatures it checks
(`hmacReached`, `pqReached`). A header counts as text or as missing, the
time has to be in the window before either signature is looked at, and the
verdict has a field for each check beside the one that says all is well.
-/
import KxcoPostQuantum.Js.Json
import KxcoPostQuantum.Js.Number
import KxcoPostQuantum.Signature.Modules

namespace KxcoPostQuantum.Webhook

open Lib.Utf8
open Signature (SignatureSet Backends toBytes)

-- ========================================================== constants

/-- One of the two parameter sets: what its header begins with, and the
set whose `verify` is called. -/
structure PqSet where
  headerPrefix : JsString
  set : SignatureSet

/-- `ML_DSA_65`. -/
def mlDsa65 : PqSet := ⟨js "ml-dsa-65=", .mlDsa65⟩

/-- `ML_DSA_87`. -/
def mlDsa87 : PqSet := ⟨js "ml-dsa-87=", .mlDsa87⟩

/-- `ML_DSA_87_SECRET_KEY_BYTES`. -/
def mlDsa87SecretKeyBytes : Nat := 4896

/-- `ML_DSA_87_PUBLIC_KEY_BYTES`. -/
def mlDsa87PublicKeyBytes : Nat := 2592

/-- `ML_DSA_65_PUBLIC_KEY_BYTES`. -/
def mlDsa65PublicKeyBytes : Nat := 1952

-- =========================================================== envelope

variable (rt : Runtime) (hmacSha256 : (key message : Bytes) → Bytes)
  (backends : Backends)

/-- `timestamp + "." + raw body`. -/
def envelope (timestamp rawBody : JsVal) : Except JsError Bytes := do
  let bodyBytes ← toBytes rawBody
  let prefixBytes := textEncode ((← template rt timestamp) ++ js ".")
  return prefixBytes ++ bodyBytes

/-- The HMAC of the envelope, in hex. -/
def hmacHex (secret timestamp rawBody : JsVal) :
    Except JsError JsString := do
  let env ← envelope rt timestamp rawBody
  let key ← toBytes secret
  return bytesToHex (hmacSha256 key env)

/-- Compare two strings without stopping at the first difference. -/
def constTimeEqualStrings (a b : JsString) : Bool :=
  if a.length ≠ b.length then false
  else (a.zip b).foldl (fun diff c => diff ||| (c.1 ^^^ c.2)) 0 = 0

/-- `s.startsWith(p)`. -/
def startsWith (s p : JsString) : Bool := p.isPrefixOf s

/-- A method of a header that is not a string. -/
def notString : JsError :=
  typeError (js "sigHeader.startsWith is not a function")

/-- Verify the HMAC header, with or without its prefix. -/
def verifyHmac (secret timestamp rawBody sigHeader : JsVal) :
    Except JsError Bool := do
  let expected := js "sha256="
    ++ (← hmacHex rt hmacSha256 secret timestamp rawBody)
  match sigHeader with
  | .string s =>
      let given := if startsWith s (js "sha256=") then s else js "sha256=" ++ s
      return constTimeEqualStrings expected given
  | _ => throw notString

/-- `set.verify(publicKey, envelope(timestamp, rawBody), signature)`; none
is a `null`. -/
def verifyEnvelope (set : SignatureSet)
    (publicKey timestamp rawBody signature : JsVal) :
    Except JsError (Option Bool) := do
  let env ← envelope rt timestamp rawBody
  Signature.verify rt backends set publicKey (.uint8Array env) signature
    .undefined

/-- Verify a signature header under the set `publicKey` belongs to. -/
def verifyPq (publicKey timestamp rawBody sigHeader : JsVal) :
    Except JsError (Option Bool) := do
  let length ← publicKey.length
  let is87 := length.strictEquals (.number (.finite mlDsa87PublicKeyBytes))
  let is65 := length.strictEquals (.number (.finite mlDsa65PublicKeyBytes))
  -- a key of neither set's size is refused here
  if ¬is87 ∧ ¬is65 then return some false
  else
    let set := if is87 then mlDsa87 else mlDsa65
    match sigHeader with
    | .string s =>
        if startsWith s set.headerPrefix then
          verifyEnvelope rt backends set.set publicKey timestamp rawBody
            (.string (s.drop set.headerPrefix.length))
        else if is87 then return some false
        else
          verifyEnvelope rt backends set.set publicKey timestamp rawBody
            sigHeader
    | _ => throw notString

-- ============================================================ sending

/-- The signature header: the set's name and the signature in hex. -/
def pqSign (secretKey timestamp rawBody : JsVal) :
    Except JsError JsString := do
  let length ← secretKey.length
  let is87 := length.strictEquals (.number (.finite mlDsa87SecretKeyBytes))
  let set := if is87 then mlDsa87 else mlDsa65
  let env ← envelope rt timestamp rawBody
  let sig ← Signature.sign rt backends set.set secretKey (.uint8Array env)
    .undefined
  return set.headerPrefix ++ sig

/-- The argument of `signDelivery`. -/
structure Signing where
  rawBody : JsVal
  hmacSecret : JsVal
  pqSecretKey : JsVal
  pqKid : JsVal
  event : JsVal
  deliveryId : JsVal

/-- `if (value) headers[name] = value`. -/
def optionalHeader (headers : List (JsString × JsVal)) (name : JsString)
    (value : JsVal) : List (JsString × JsVal) :=
  if value.truthy then assign headers name value else headers

/-- Sign a webhook delivery: the members of the headers object. -/
def signDelivery (now : Nat) (s : Signing) :
    Except JsError (List (JsString × JsVal)) := do
  let ts := JsVal.string ((JsNumber.round (now / 1000)).floor.toText rt)
  let hmac ← hmacHex rt hmacSha256 s.hmacSecret ts s.rawBody
  let pq ← pqSign rt backends s.pqSecretKey ts s.rawBody
  let headers :=
    [(js "Content-Type", .string (js "application/json")),
      (js "X-KXCO-Timestamp", ts),
      (js "X-KXCO-Signature", .string (js "sha256=" ++ hmac)),
      (js "X-KXCO-PQ-Signature", .string pq),
      (js "X-KXCO-PQ-Kid", s.pqKid)]
  let headers := optionalHeader headers (js "X-KXCO-Event") s.event
  return optionalHeader headers (js "X-KXCO-Delivery") s.deliveryId

-- ========================================================== receiving

/-- The argument of `verifyDelivery`. -/
structure Delivery where
  headers : JsVal
  rawBody : JsVal
  hmacSecret : JsVal
  pqPublicKey : JsVal
  pinnedKid : JsVal
  windowSeconds : JsVal

/-- What `verifyDelivery` returns. -/
structure Verdict where
  hmacOk : Bool
  pqOk : Option Bool
  timestampOk : Bool
  kidOk : Bool

/-- A header that is a string, or `undefined`. -/
def headerString (value : JsVal) : JsVal :=
  match value with
  | .string s => .string s
  | _ => .undefined

/-- `/^[0-9]+$/.test(ts)`; `undefined` is tested as its own name. -/
def isDigits (ts : JsVal) : Bool :=
  match ts with
  | .string s => !s.isEmpty && s.all Lib.Json.isDigit
  | _ => false

/-- The number of a timestamp header. -/
def timestampNumber (ts : JsVal) : JsNumber :=
  match ts with
  | .string s => if isDigits ts then .parseDigits s else .nan
  | _ => .nan

/-- `Math.abs(Date.now() / 1000 - tsNum) <= windowSeconds`, for a number
that is finite. -/
def checkTimestamp (now : Nat) (ts windowSeconds : JsVal) :
    Except JsError Bool := do
  let tsNum := timestampNumber ts
  if tsNum.isFinite then
    let window ← match windowSeconds with
      -- the default
      | .undefined => .ok (.finite 300)
      | .number n => .ok n
      | v => rt.toNumber v
    return (JsNumber.absSub (.round (now / 1000)) tsNum).le window
  else return false

/-- What `verifyDelivery` has read before it checks a signature. -/
structure Reading where
  ts : JsVal
  sigHmac : JsVal
  sigPq : JsVal
  timestampOk : Bool
  kidOk : Bool

/-- The headers, the timestamp and the pin. -/
def readDelivery (now : Nat) (d : Delivery) : Except JsError Reading := do
  let ts := headerString (← d.headers.get (js "x-kxco-timestamp"))
  let sigHmac := headerString (← d.headers.get (js "x-kxco-signature"))
  let sigPq := headerString (← d.headers.get (js "x-kxco-pq-signature"))
  let kid := headerString (← d.headers.get (js "x-kxco-pq-kid"))
  let timestampOk ← checkTimestamp rt now ts d.windowSeconds
  return {
    ts, sigHmac, sigPq, timestampOk
    kidOk := !d.pinnedKid.truthy || kid.strictEquals d.pinnedKid }

/-- `hmacSecret && sigHmac && timestampOk`. -/
def hmacReached (d : Delivery) (r : Reading) : Bool :=
  d.hmacSecret.truthy && r.sigHmac.truthy && r.timestampOk

/-- `pqPublicKey && sigPq && timestampOk && kidOk`. -/
def pqReached (d : Delivery) (r : Reading) : Bool :=
  d.pqPublicKey.truthy && r.sigPq.truthy && r.timestampOk && r.kidOk

/-- `hmacOk`. -/
def hmacVerdict (d : Delivery) (r : Reading) : Except JsError Bool :=
  if hmacReached d r then
    verifyHmac rt hmacSha256 d.hmacSecret r.ts d.rawBody r.sigHmac
  else .ok false

/-- `pqOk`. -/
def pqVerdict (d : Delivery) (r : Reading) : Except JsError (Option Bool) :=
  if pqReached d r then
    verifyPq rt backends d.pqPublicKey r.ts d.rawBody r.sigPq
  else .ok (some false)

/-- Verify a webhook delivery on the receiving side. -/
def verifyDelivery (now : Nat) (d : Delivery) : Except JsError Verdict := do
  let r ← readDelivery rt now d
  let hmacOk ← hmacVerdict rt hmacSha256 d r
  let pqOk ← pqVerdict rt backends d r
  return {
    hmacOk, pqOk
    timestampOk := r.timestampOk, kidOk := r.kidOk }

end KxcoPostQuantum.Webhook
