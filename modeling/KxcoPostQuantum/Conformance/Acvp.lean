/-
What the two ACVP programs of conformance/ share: the shape of a prompt,
the tables of parameter sets and hash functions, and the hex helpers.
Each of acvts/responders.mjs and run-acvp.mjs carries its own copy of the
tables and the helpers, with the same text.

# Prompts

A prompt is parsed JSON. Its fields are as ACVP types them: a field that
is not there is `none`, and a flag is a boolean when it is there. The hex
fields of a test case are kept by name.

# Primitives

The primitives are parameters. A call returns or throws; `verify` returns
a boolean. An option that is not passed is `none`, so that a primitive
can tell it from any value.
-/
import KxcoPostQuantum.Js.Hex

namespace KxcoPostQuantum.Conformance

-- ========================================================= primitives

/-- The hash functions `HASHES` names. -/
inductive Hash
  | sha224 | sha256 | sha384 | sha512 | sha512_224 | sha512_256
  | sha3_224 | sha3_256 | sha3_384 | sha3_512
  | shake128_32 | shake256_64
  deriving DecidableEq

/-- The options of a call of `sign` or `verify`. -/
structure SignerOptions where
  externalMu : Option Bool := none
  context : Option Bytes := none
  /-- `false`, or some bytes. -/
  extraEntropy : Option (Option Bytes) := none
  deriving DecidableEq

/-- A signing surface. -/
structure Signer where
  sign : (message secretKey : Bytes) → SignerOptions → Except JsError Bytes
  verify : (signature message publicKey : Bytes) → SignerOptions →
    Except JsError Bool

/-- What `keygen` returns. -/
structure Keys where
  publicKey : Bytes
  secretKey : Bytes

/-- A parameter set of ML-DSA or SLH-DSA. -/
structure SignatureAlg extends Signer where
  internal : Option Signer
  prehash : Hash → Except JsError Signer
  keygen : Bytes → Except JsError Keys

/-- What `encapsulate` returns. -/
structure Encapsulated where
  cipherText : Option Bytes
  ciphertext : Option Bytes
  sharedSecret : Bytes

/-- A parameter set of ML-KEM. -/
structure Kem where
  keygen : Bytes → Except JsError Keys
  encapsulate : (publicKey : Bytes) → (message : Option Bytes) →
    Except JsError Encapsulated
  decapsulate : (cipherText secretKey : Bytes) → Except JsError Bytes
  /-- `lengths.cipherText`. -/
  cipherTextBytes : Nat

/-- The parameter sets by their names. -/
structure Primitives where
  kem : JsString → Kem
  dsa : JsString → SignatureAlg
  slh : JsString → SignatureAlg

-- ============================================================= tables

/-- The keys of `KEM`. -/
def KEM : List JsString :=
  [js "ML-KEM-512", js "ML-KEM-768", js "ML-KEM-1024"]

/-- The keys of `DSA`. -/
def DSA : List JsString :=
  [js "ML-DSA-44", js "ML-DSA-65", js "ML-DSA-87"]

/-- The keys of `SLH`. -/
def SLH : List JsString :=
  [js "SLH-DSA-SHA2-128s", js "SLH-DSA-SHA2-128f",
    js "SLH-DSA-SHA2-192s", js "SLH-DSA-SHA2-192f",
    js "SLH-DSA-SHA2-256s", js "SLH-DSA-SHA2-256f",
    js "SLH-DSA-SHAKE-128s", js "SLH-DSA-SHAKE-128f",
    js "SLH-DSA-SHAKE-192s", js "SLH-DSA-SHAKE-192f",
    js "SLH-DSA-SHAKE-256s", js "SLH-DSA-SHAKE-256f"]

/-- `HASHES`. -/
def HASHES : List (JsString × Hash) :=
  [(js "SHA2-224", .sha224), (js "SHA2-256", .sha256),
    (js "SHA2-384", .sha384), (js "SHA2-512", .sha512),
    (js "SHA2-512/224", .sha512_224), (js "SHA2-512/256", .sha512_256),
    (js "SHA3-224", .sha3_224), (js "SHA3-256", .sha3_256),
    (js "SHA3-384", .sha3_384), (js "SHA3-512", .sha3_512),
    (js "SHAKE-128", .shake128_32), (js "SHAKE-256", .shake256_64)]

/-- `table[name]`, for a name no object inherits. -/
def entry {α : Type} (table : List JsString) (prim : JsString → α)
    (name : JsString) : Option α :=
  (table.find? fun key => key = name).map prim

-- ============================================================ prompts

/-- A test case: its id and its hex fields. -/
structure TestCase where
  tcId : Nat
  members : List (JsString × JsString)

/-- `t[k]`. -/
def TestCase.get (t : TestCase) (k : JsString) : Option JsString :=
  t.members.lookup k

/-- A test group. -/
structure TestGroup where
  tgId : Nat
  parameterSet : JsString
  tests : List TestCase
  function : Option JsString := none
  signatureInterface : Option JsString := none
  preHash : Option JsString := none
  hashAlg : Option JsString := none
  deterministic : Option Bool := none
  externalMu : Option Bool := none

/-- A prompt. -/
structure Prompt where
  vsId : Nat
  algorithm : JsString
  mode : JsString
  revision : JsString
  isSample : Option Bool := none
  testGroups : List TestGroup

/-- The answer to a test case, in a response or among the expected
results: the fields that are there. -/
structure Answer where
  ek : Option JsString := none
  dk : Option JsString := none
  pk : Option JsString := none
  sk : Option JsString := none
  c : Option JsString := none
  k : Option JsString := none
  signature : Option JsString := none
  testPassed : Option Bool := none
  deriving DecidableEq

-- ============================================================ helpers

/-- `toUpperCase` of a digit. -/
def upperDigit (u : UInt16) : UInt16 := if 97 ≤ u.toNat then u - 32 else u

/-- `hex`. -/
def hex (u8 : Bytes) : JsString := (bytesToHex u8).map upperDigit

/-- `Buffer.from(h, 'hex')`, which stops at the first two characters that
are not a byte. -/
def bufferFromHex : JsString → Bytes
  | c :: d :: rest =>
      match Lib.Json.hexValue c, Lib.Json.hexValue d with
      | some h, some l => (h * 16 + l).toUInt8 :: bufferFromHex rest
      | _, _ => []
  | _ => []

/-- `bytes`, of a field that may not be there. -/
def bytes (h : Option JsString) : Bytes := bufferFromHex (h.getD [])

/-- `hex` of a value that may be `undefined`. -/
def hexOf (u8 : Option Bytes) : Except JsError JsString :=
  match u8 with
  | some b => .ok (hex b)
  | none =>
      .error (typeError (js "The first argument must be of type string or an "
        ++ js "instance of Buffer, ArrayBuffer, or Array or an Array-like "
        ++ js "Object. Received undefined"))

/-- A name in a message. -/
def nameText (name : Option JsString) : JsString :=
  name.getD (js "undefined")

/-- `g.hashAlg ?? t.hashAlg`. -/
def hashName (g : TestGroup) (t : TestCase) : Option JsString :=
  g.hashAlg.or (t.get (js "hashAlg"))

/-- `g.signatureInterface === 'internal'`. -/
def TestGroup.isInternal (g : TestGroup) : Bool :=
  g.signatureInterface = some (js "internal")

/-- The message of a test case, or its `mu`. -/
def messageOf (g : TestGroup) (t : TestCase) : Bytes :=
  if g.externalMu = some true then bytes (t.get (js "mu"))
  else bytes (t.get (js "message"))

/-- `opts.context`, set outside the internal interface when the test case
has one. -/
def withContext (g : TestGroup) (t : TestCase) (opts : SignerOptions) :
    SignerOptions :=
  if !g.isInternal && (t.get (js "context")).isSome then
    { opts with context := some (bytes (t.get (js "context"))) }
  else opts

/-- `opts.extraEntropy`: the case's randomness, or `false`. -/
def withEntropy (g : TestGroup) (t : TestCase) (rndField : JsString)
    (opts : SignerOptions) : SignerOptions :=
  { opts with
    extraEntropy := some (if g.deterministic = some false then
      some (bytes (t.get rndField)) else none) }

end KxcoPostQuantum.Conformance
