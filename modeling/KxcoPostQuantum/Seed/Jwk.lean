/-
seed.js: AKP JSON Web Keys, RFC 9964.

# Parameters

`keygen` of a parameter set is a parameter, a function of the set and the
seed. What the module returns as a `Buffer` or a `Uint8Array` is its
bytes.

# The two directions

`exportJwk` writes `kty`, `alg`, `pub`, `priv` if there is a seed, and the
options that are given, in this order. It checks the lengths of both
parts, and refuses an expanded secret key by its length, but does not
expand the seed. `importJwk` reads the members in the order in which it
checks them, decodes `pub` and `priv` leniently, and does expand the seed:
a key whose halves do not belong together is refused.
-/
import KxcoPostQuantum.Jws.Codec
import KxcoPostQuantum.Seed.Params

namespace KxcoPostQuantum.Seed

-- ============================================================ base64url

variable (rt : Runtime)

/-- seed.js `b64url`, the same text as in jws.js. -/
def b64url (bytes : Bytes) : JsString := Jws.b64url rt bytes

/-- seed.js `fromB64url`, which checks the type first. -/
def fromB64url (str : JsVal) : Except JsError Bytes :=
  match str with
  | .string s => Jws.fromB64url rt s
  | _ => .error (typeError (js "expected a base64url string"))

-- ================================================================= keys

/-- What `keygen` returns. -/
structure KeyPair where
  publicKey : Bytes
  secretKey : Bytes

/-- `impl.keygen` of the set of that name. -/
abbrev Keygen : Type := (alg : JsString) → (seed : Bytes) → KeyPair

variable (keygen : Keygen)

/-- What `keypairFromSeed` returns. -/
structure SeedKeyPair extends KeyPair where
  seed : Bytes

/-- Expand a seed into a keypair. -/
def keypairFromSeed (alg seed : JsVal) : Except JsError SeedKeyPair := do
  let (name, p) ← paramsFor rt alg
  let bytes ← asBytes rt seed (js "seed")
  if bytes.length ≠ p.seedBytes then
    throw (seedLengthError name p bytes.length)
  else return { keygen name bytes with seed := bytes }

-- =============================================================== export

/-- The error for an expanded key in the place of a seed. -/
def expandedKeyError (alg : JsString) (p : Params) (got : Nat) : JsError :=
  rangeError (alg ++ js " seed must be " ++ decimal p.seedBytes
    ++ js " bytes; got " ++ decimal got
    ++ js ", which is the expanded secret key. "
    ++ js "RFC 9964 encodes the seed, and a seed cannot be recovered from "
    ++ js "an expanded key — "
    ++ js "hold the seed returned by keypairFromMaster or keypairFromSeed.")

/-- `jwk.priv`, of a key with a seed. -/
def exportSeed (alg : JsString) (p : Params) (seed : JsVal) :
    Except JsError (List (JsString × JsVal)) := do
  match seed with
  | .undefined | .null => return []
  | _ =>
      let seed ← asBytes rt seed (js "seed")
      if seed.length = p.secretKeyBytes then
        throw (expandedKeyError alg p seed.length)
      else if seed.length ≠ p.seedBytes then
        throw (seedLengthError alg p seed.length)
      else return [(js "priv", .string (b64url rt seed))]

/-- `if (opts.k) jwk.k = opts.k`. -/
def exportOption (opts : JsVal) (k : JsString) :
    Except JsError (List (JsString × JsVal)) := do
  let v ← opts.get k
  return if v.truthy then [(k, v)] else []

/-- `opts`, which is `{}` by default. -/
def optionsOf (opts : JsVal) : JsVal :=
  match opts with
  | .undefined => .object [] []
  | _ => opts

/-- Export an AKP JWK. -/
def exportJwk (alg key opts : JsVal) : Except JsError JsVal := do
  let opts := optionsOf opts
  let (name, p) ← paramsFor rt alg
  if ¬key.truthy ∨ ¬key.isObjectType then
    throw (typeError
      (js "expected a key object such as \x7b publicKey, seed \x7d"))
  else
    let publicKey ← asBytes rt (← key.get (js "publicKey")) (js "publicKey")
    if publicKey.length ≠ p.publicKeyBytes then
      throw (rangeError (name ++ js " public key must be "
        ++ decimal p.publicKeyBytes ++ js " bytes, got "
        ++ decimal publicKey.length))
    else
      let priv ← exportSeed rt name p (← key.get (js "seed"))
      let kid ← exportOption opts (js "kid")
      let use ← exportOption opts (js "use")
      return .object ([(js "kty", .string (js "AKP")),
        (js "alg", .string name),
        (js "pub", .string (b64url rt publicKey))] ++ priv ++ kid ++ use) []

-- =============================================================== import

/-- What `importJwk` returns. -/
structure ImportedJwk where
  alg : JsString
  publicKey : Bytes
  secretKey : Option Bytes
  seed : Option Bytes
  deriving DecidableEq

/-- The length check of a member of a JWK. -/
def decodedLengthError (alg member : JsString) (length : Nat)
    (what : JsString) (got : Nat) : JsError :=
  rangeError (alg ++ js " JWK '" ++ member ++ js "' must decode to "
    ++ decimal length ++ js " bytes" ++ what ++ js ", got " ++ decimal got)

/-- Import an AKP JWK. -/
def importJwk (jwk : JsVal) : Except JsError ImportedJwk := do
  if ¬jwk.truthy ∨ ¬jwk.isObjectType then
    throw (typeError (js "expected a JWK object"))
  else
    let kty ← jwk.get (js "kty")
    if ¬kty.strictEquals (.string (js "AKP")) then
      throw (error (js "unsupported JWK kty '" ++ (← template rt kty)
        ++ js "' — expected 'AKP' (RFC 9964)"))
    else
      let (alg, p) ← paramsFor rt (← jwk.get (js "alg"))
      let publicKey ← fromB64url rt (← jwk.get (js "pub"))
      if publicKey.length ≠ p.publicKeyBytes then
        throw (decodedLengthError alg (js "pub") p.publicKeyBytes []
          publicKey.length)
      else
        match ← jwk.get (js "priv") with
        | .undefined | .null => return ⟨alg, publicKey, none, none⟩
        | priv =>
            let seed ← fromB64url rt priv
            if seed.length ≠ p.seedBytes then
              throw (decodedLengthError alg (js "priv") p.seedBytes
                (js " (the seed)") seed.length)
            else
              let expanded := keygen alg seed
              if ¬bytesEqual expanded.publicKey publicKey then
                throw (error (alg ++ js " JWK is inconsistent: the public "
                  ++ js "key derived from 'priv' does not match 'pub'"))
              else
                return ⟨alg, expanded.publicKey, some expanded.secretKey,
                  some seed⟩

end KxcoPostQuantum.Seed
