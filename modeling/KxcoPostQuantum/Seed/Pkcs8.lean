/-
seed.js: PKCS#8 private keys in seed form.

# Writing

`exportSeedPkcs8` puts the seed, under a context tag, in the sequence that
names the algorithm. The lengths go through `derLength` of the signature
modules, whose sixteen bits are more than any seed takes.

# Reading

The reader `r` is the cursor `r.i`, passed and returned; `r.buf` never
changes. A cursor may stand past the end of the buffer, where an octet is
`undefined`: it is no tag, as the first length octet it is a count of
zero, and as a later one it is zero. `subarray` cuts off at the end of the
buffer. The reader looks for the headers it knows, in order, and never at
where one of them says that its content ends: what stands behind the seed
is not read.
-/
import KxcoPostQuantum.Seed.Params
import KxcoPostQuantum.Signature.Native

namespace KxcoPostQuantum.Seed

-- =============================================================== tags

/-- `DER_SEQUENCE`. -/
def DER_SEQUENCE : UInt8 := 0x30

/-- `DER_INTEGER`. -/
def DER_INTEGER : UInt8 := 0x02

/-- `DER_OCTET_STRING`. -/
def DER_OCTET_STRING : UInt8 := 0x04

/-- `DER_OID`. -/
def DER_OID : UInt8 := 0x06

/-- `DER_SEED_CHOICE`, `[0] IMPLICIT OCTET STRING`. -/
def DER_SEED_CHOICE : UInt8 := 0x80

-- ============================================================ writing

/-- seed.js `der`, the same text as in _native.node.js. -/
def der : UInt8 → Bytes → Bytes := Signature.der

/-- Export a seed as a PKCS#8 private key in LAMPS seed form. -/
def exportSeedPkcs8 (rt : Runtime) (alg seed : JsVal) :
    Except JsError Bytes := do
  let (name, p) ← paramsFor rt alg
  let bytes ← asBytes rt seed (js "seed")
  if bytes.length ≠ p.seedBytes then
    throw (seedLengthError name p bytes.length)
  else
    let body := der DER_INTEGER [0x00]
      ++ der DER_SEQUENCE (der DER_OID p.oid)
      ++ der DER_OCTET_STRING (der DER_SEED_CHOICE bytes)
    return der DER_SEQUENCE body

-- ============================================================ reading

/-- `n.toString(16)` of an octet. -/
def toHex (n : UInt8) : JsString :=
  if n < 16 then [Lib.Json.hexDigit n.toNat]
  else [Lib.Json.hexDigit (n.toNat / 16), Lib.Json.hexDigit (n.toNat % 16)]

/-- The cursor after a tag. -/
def expectTag (buf : Bytes) (i : Nat) (tag : UInt8) (what : JsString) :
    Except JsError Nat :=
  if buf[i]? = some tag then .ok (i + 1)
  else .error (error (js "malformed DER: expected " ++ what ++ js " tag 0x"
    ++ toHex tag ++ js " at offset " ++ decimal i))

/-- The loop of `readLength`; it never gets past 24 bits, so shifting
does not lose any. -/
def lengthLoop (buf : Bytes) : (count i length : Nat) → Nat
  | 0, _, length => length
  | n + 1, i, length =>
      lengthLoop buf n (i + 1) (length <<< 8 ||| buf[i]?.elim 0 UInt8.toNat)

/-- A length and the cursor after it. -/
def readLength (buf : Bytes) (i : Nat) : Except JsError (Nat × Nat) :=
  let long (count : Nat) : Except JsError (Nat × Nat) :=
    if count = 0 ∨ count > 3 then
      .error (error (js "malformed DER: unsupported length encoding"))
    else .ok (lengthLoop buf count (i + 1) 0, i + 1 + count)
  match buf[i]? with
  | some first =>
      if first < 0x80 then .ok (first.toNat, i + 1)
      else long (first &&& 0x7f).toNat
  | none => long 0

/-- `buf.subarray(start, end)`, for `start` up to `end`. -/
def subarray (buf : Bytes) (start stop : Nat) : Bytes :=
  (buf.drop start).take (stop - start)

/-- The rest of `importSeedPkcs8`, from the privateKey at `i` on, once the
algorithm is known. -/
def readPrivateKey (buf : Bytes) (alg : JsString) (p : Params) (i : Nat) :
    Except JsError (JsString × Bytes) := do
  let i ← expectTag buf i DER_OCTET_STRING (js "privateKey")
  let (_, i) ← readLength buf i
  match buf[i]? with
  | none =>
      throw (typeError
        (js "Cannot read properties of undefined (reading 'toString')"))
  | some inner =>
      if inner = DER_OCTET_STRING then
        throw (error (js "this PKCS#8 key is in expanded form, not seed form. "
          ++ js "A seed cannot be recovered from an expanded " ++ alg
          ++ js " key; re-export from the seed the key was derived from."))
      else if inner ≠ DER_SEED_CHOICE then
        throw (error (js "unexpected privateKey encoding: tag 0x"
          ++ toHex inner))
      else
        let (seedLen, i) ← readLength buf (i + 1)
        if seedLen ≠ p.seedBytes then
          throw (seedLengthError alg p seedLen)
        else return (alg, subarray buf i (i + seedLen))

/-- Read a seed-form PKCS#8 private key back. -/
def importSeedPkcs8 (rt : Runtime) (der8 : JsVal) :
    Except JsError (JsString × Bytes) := do
  let buf ← asBytes rt der8 (js "pkcs8")
  let i ← expectTag buf 0 DER_SEQUENCE (js "PKCS#8")
  let (_, i) ← readLength buf i
  let i ← expectTag buf i DER_INTEGER (js "version")
  let (versionLen, i) ← readLength buf i
  let i ← expectTag buf (i + versionLen) DER_SEQUENCE
    (js "AlgorithmIdentifier")
  let (algIdLen, i) ← readLength buf i
  let algIdEnd := i + algIdLen
  let i ← expectTag buf i DER_OID (js "algorithm OID")
  let (oidLen, i) ← readLength buf i
  let oid := subarray buf i (i + oidLen)
  match PARAMS.find? fun row => bytesEqual row.2.oid oid with
  | none =>
      throw (error (js "unrecognised algorithm OID in PKCS#8 — seed form is "
        ++ js "defined for " ++ seedAlgorithms))
  | some (alg, p) => readPrivateKey buf alg p algIdEnd

end KxcoPostQuantum.Seed
