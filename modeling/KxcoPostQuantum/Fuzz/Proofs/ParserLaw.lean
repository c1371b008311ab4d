/-
The law fuzz/fuzz.mjs tests: a parser given arbitrary input returns, or
throws a typed error.

`decodeJwsHeader` and `verifyJws` keep it. The three parsers of seed.js
refuse some of their inputs with a plain `Error`, which `check` counts as
untyped; `parser_law` says which. A JWK is refused so for its `kty`, its
`alg`, a text `atob` does not take, or a seed that is not its public
key's (`JwkTyped`); a PKCS#8 text unless it can be read up to the length
of the seed (`Pkcs8Typed`); an algorithm name unless it is one of the
table.

# How the proof goes

`Abides` has an equation for each combinator (`Lib.OnlyThrows`), so a
parser that is a sequence of checks reduces to what its checks say. A
message that quotes a value first converts it, and a conversion that
throws does so with a `TypeError`: this is `Unwritable`.
-/
import KxcoPostQuantum.Fuzz.Check
import KxcoPostQuantum.Jws.Proofs.Verify
import KxcoPostQuantum.Lib.Throws
import KxcoPostQuantum.Seed.Jwk
import KxcoPostQuantum.Seed.Proofs.Nesting

namespace KxcoPostQuantum.Fuzz

open Lib Seed
open Signature (Backends)

variable {rt : Runtime} {keygen : Keygen}

-- ============================================================= the law

/-- A string, a byte string or a parsed JSON value. -/
inductive Input : JsVal → Prop
  | string (s : JsString) : Input (.string s)
  | bytes (b : Bytes) : Input (.uint8Array b)
  | json {v : JsVal} (h : Plain v) : Input v

/-- A call returns or throws a typed error. -/
abbrev Abides {α : Type} (x : Except JsError α) : Prop :=
  OnlyThrows (fun e => named e = true) x

/-- A value that cannot be quoted in a message: converting it to a string
throws a typed error. -/
def Unwritable (rt : Runtime) (v : JsVal) : Prop :=
  ∃ e, template rt v = .error e ∧ named e = true

/-- A plain error is not typed. -/
theorem named_error (message : JsString) : named (error message) = false :=
  rfl

theorem named_typeError (message : JsString) :
    named (typeError message) = true := rfl

theorem named_rangeError (message : JsString) :
    named (rangeError message) = true := rfl

/-- A plain error that quotes a value is thrown unless the value cannot
be quoted. -/
theorem abides_quoting {α : Type} {v : JsVal} {message : JsString → JsString} :
    Abides (do throw (error (message (← template rt v))) : Except JsError α)
      ↔ Unwritable rt v := by
  rw [Abides, onlyThrows_bind]
  simp only [onlyThrows_throw, named_error, Bool.false_eq_true]
  cases htext : template rt v with
  | error e => simp [Unwritable, htext]
  | ok s => simp [Unwritable, htext]

/-- The runtime's own base64url decoder takes a text. -/
def Decodes (rt : Runtime) (s : JsString) : Prop :=
  ∃ b, Jws.fromB64url rt s = .ok b

/-- What `atob` refuses it refuses with a `DOMException`, whose code is a
number, and which is therefore no named error. `Buffer` refuses nothing. -/
theorem abides_fromB64url {v : JsVal} :
    Abides (fromB64url rt v) ↔ ∀ s, v = .string s → Decodes rt s := by
  cases v with
  | string s =>
      simp only [fromB64url, JsVal.string.injEq, forall_eq', Decodes]
      rw [Jws.fromB64url]
      split
      next => simp
      next =>
        simp only [Jws.atob]
        split
        next => simp
        next => simp [named, constructorName, js]
  | _ => simp [fromB64url, named_typeError]

/-- One of the algorithms of the table. -/
def Listed (alg : JsVal) : Prop :=
  ∃ name p, alg = .string name ∧ (name, p) ∈ PARAMS

/-- The row of an algorithm, or a plain error that quotes it. -/
theorem abides_paramsFor {alg : JsVal} :
    Abides (paramsFor rt alg) ↔ Listed alg ∨ Unwritable rt alg := by
  by_cases hlisted : Listed alg
  · obtain ⟨name, p, hrow⟩ := hlisted
    rw [paramsFor_ok.mpr hrow]
    exact iff_of_true onlyThrows_ok (Or.inl ⟨name, p, hrow⟩)
  · rw [or_iff_right hlisted, ← abides_quoting]
    have hnone : ∀ row, paramsFor rt alg ≠ .ok row := by
      intro row hrow
      exact hlisted ⟨row.1, row.2, paramsFor_ok.mp hrow⟩
    unfold paramsFor at hnone ⊢
    split
    next row hrow =>
      rw [hrow] at hnone
      exact absurd rfl (hnone row)
    next => exact Iff.rfl

-- ================================================================ JWKs

/-- The members of a JWK that is read for a set. -/
structure JwkOf (jwk : JsVal) (name : JsString) (p : Params) : Prop where
  object : jwk.truthy = true ∧ jwk.isObjectType = true
  kty : jwk.get (js "kty") = .ok (.string (js "AKP"))
  alg : jwk.get (js "alg") = .ok (.string name)
  listed : (name, p) ∈ PARAMS

/-- The JWK has a public key of the length of its set. -/
structure PubOf (rt : Runtime) (jwk : JsVal) (name : JsString) (p : Params)
    (publicKey : Bytes) : Prop extends JwkOf jwk name p where
  decoded : ∃ v, jwk.get (js "pub") = .ok v
    ∧ fromB64url rt v = .ok publicKey
  length : publicKey.length = p.publicKeyBytes

/-- The JWKs that are read or refused with a typed error: none of the
refusals of `importJwk` with another error applies. -/
structure JwkTyped (rt : Runtime) (keygen : Keygen) (jwk : JsVal) :
    Prop where
  /-- The `kty` of an object is AKP, or cannot be quoted. -/
  kty : jwk.truthy = true → jwk.isObjectType = true → ∀ kty,
    jwk.get (js "kty") = .ok kty →
    kty = .string (js "AKP") ∨ Unwritable rt kty
  /-- Its `alg` is one of the table, or cannot be quoted. -/
  alg : jwk.truthy = true → jwk.isObjectType = true →
    jwk.get (js "kty") = .ok (.string (js "AKP")) → ∀ alg,
    jwk.get (js "alg") = .ok alg → Listed alg ∨ Unwritable rt alg
  /-- A `pub` that is a string is base64 to the runtime. -/
  pub : ∀ name p s, JwkOf jwk name p →
    jwk.get (js "pub") = .ok (.string s) → Decodes rt s
  /-- So is a `priv`. -/
  priv : ∀ name p publicKey s, PubOf rt jwk name p publicKey →
    jwk.get (js "priv") = .ok (.string s) → Decodes rt s
  /-- A seed of the right length is the seed of the public key. -/
  consistent : ∀ name p publicKey s seed, PubOf rt jwk name p publicKey →
    jwk.get (js "priv") = .ok (.string s) →
    Jws.fromB64url rt s = .ok seed → seed.length = p.seedBytes →
    (keygen name seed).publicKey = publicKey

/-- A member of an input can be read. -/
theorem get_input {v : JsVal} (hv : Input v) (htruthy : v.truthy = true)
    (hobject : v.isObjectType = true) (k : JsString) :
    ∃ w, v.get k = .ok w := by
  cases hv with
  | string s => cases hobject
  | bytes b => exact ⟨_, rfl⟩
  | json hplain =>
      cases hplain with
      | null => cases htruthy
      | object h =>
          obtain ⟨w, hw, -⟩ := (Plain.object h).get k
          exact ⟨w, hw⟩
      | _ => exact ⟨_, rfl⟩

/-- What `importJwk` does with the `priv` of a JWK. A seed of the wrong
length is a `RangeError`, and so within the law; a public key that does not
belong to the seed is a plain error. -/
theorem abides_priv {name : JsString} {p : Params} {publicKey : Bytes}
    {priv : JsVal} :
    Abides (do
        let seed ← fromB64url rt priv
        if seed.length ≠ p.seedBytes then
          throw (decodedLengthError name (js "priv") p.seedBytes
            (js " (the seed)") seed.length)
        else
          let expanded := keygen name seed
          if ¬bytesEqual expanded.publicKey publicKey then
            throw (error (name ++ js " JWK is inconsistent: the public "
              ++ js "key derived from 'priv' does not match 'pub'"))
          else
            return (⟨name, expanded.publicKey, some expanded.secretKey,
              some seed⟩ : ImportedJwk))
      ↔ ∀ s, priv = .string s → Decodes rt s
        ∧ ∀ seed, Jws.fromB64url rt s = .ok seed →
          seed.length = p.seedBytes →
          (keygen name seed).publicKey = publicKey := by
  rw [Abides, onlyThrows_bind, ← Abides, abides_fromB64url]
  simp only [onlyThrows_ite, onlyThrows_throw, onlyThrows_pure, named_error,
    decodedLengthError, named_rangeError, bytesEqual_iff, ne_eq, not_not,
    implies_true, true_and, and_true, Bool.false_eq_true, imp_false]
  cases priv with
  | string s => simp [fromB64url]
  | _ => simp [fromB64url]

/-- What `importJwk` asks of the members of an object, in the order it
reads them. -/
theorem abides_members {jwk kty alg pub priv : JsVal}
    (hobject : jwk.truthy = true ∧ jwk.isObjectType = true)
    (hkty : jwk.get (js "kty") = .ok kty)
    (halg : jwk.get (js "alg") = .ok alg)
    (hpub : jwk.get (js "pub") = .ok pub)
    (hpriv : jwk.get (js "priv") = .ok priv) :
    Abides (importJwk rt keygen jwk)
      ↔ (kty ≠ .string (js "AKP") → Unwritable rt kty)
        ∧ (kty = .string (js "AKP") → (Listed alg ∨ Unwritable rt alg)
          ∧ ∀ name p, alg = .string name ∧ (name, p) ∈ PARAMS →
            (∀ s, pub = .string s → Decodes rt s)
            ∧ ∀ publicKey, fromB64url rt pub = .ok publicKey →
              publicKey.length = p.publicKeyBytes →
              ∀ s, priv = .string s → Decodes rt s
                ∧ ∀ seed, Jws.fromB64url rt s = .ok seed →
                  seed.length = p.seedBytes →
                  (keygen name seed).publicKey = publicKey) := by
  unfold importJwk
  rw [if_neg (by simp [hobject]), hkty, halg, hpub, hpriv, Abides,
    onlyThrows_ok_bind, onlyThrows_ite, ← Abides, abides_quoting, not_not,
    onlyThrows_ok_bind, JsVal.strictEquals_string]
  refine and_congr_right fun _ => imp_congr_right fun _ => ?_
  rw [onlyThrows_bind, ← Abides, abides_paramsFor]
  refine and_congr_right fun _ => ?_
  rw [Prod.forall]
  refine forall_congr' fun name => forall_congr' fun p => ?_
  rw [paramsFor_ok]
  refine imp_congr_right fun _ => ?_
  rw [onlyThrows_ok_bind, onlyThrows_bind, ← Abides, abides_fromB64url]
  refine and_congr_right fun _ => forall_congr' fun publicKey =>
    imp_congr_right fun _ => ?_
  rw [onlyThrows_ite, onlyThrows_throw, decodedLengthError,
    and_iff_right fun _ => named_rangeError _, not_ne_iff,
    onlyThrows_ok_bind]
  refine imp_congr_right fun _ => ?_
  cases priv with
  | undefined | null => simp
  | _ => exact abides_priv

/-- **JWKs.** `importJwk` keeps the law on just these. It asks about the
members in the order of the source, and each check that throws a plain error
is a condition for those behind it. -/
theorem abides_importJwk {jwk : JsVal} (hjwk : Input jwk) :
    Abides (importJwk rt keygen jwk) ↔ JwkTyped rt keygen jwk := by
  by_cases hobject : jwk.truthy = true ∧ jwk.isObjectType = true
  · obtain ⟨kty, hkty⟩ := get_input hjwk hobject.1 hobject.2 (js "kty")
    obtain ⟨alg, halg⟩ := get_input hjwk hobject.1 hobject.2 (js "alg")
    obtain ⟨pub, hpub⟩ := get_input hjwk hobject.1 hobject.2 (js "pub")
    obtain ⟨priv, hpriv⟩ := get_input hjwk hobject.1 hobject.2 (js "priv")
    rw [abides_members hobject hkty halg hpub hpriv]
    constructor
    · intro hx
      obtain ⟨hkind, hset⟩ := hx
      refine ⟨?_, ?_, ?_, ?_, ?_⟩
      · intro _ _ kty' hkty'
        cases hkty.symm.trans hkty'
        exact or_iff_not_imp_left.mpr hkind
      · intro _ _ hakp alg' halg'
        cases halg.symm.trans halg'
        cases hkty.symm.trans hakp
        exact (hset rfl).1
      · intro name p s h hs
        cases hkty.symm.trans h.kty
        cases halg.symm.trans h.alg
        cases hpub.symm.trans hs
        exact ((hset rfl).2 name p ⟨rfl, h.listed⟩).1 s rfl
      · intro name p publicKey s h hs
        cases hkty.symm.trans h.kty
        cases halg.symm.trans h.alg
        cases hpriv.symm.trans hs
        obtain ⟨v, hv, hdecoded⟩ := h.decoded
        cases hpub.symm.trans hv
        exact (((hset rfl).2 name p ⟨rfl, h.listed⟩).2 publicKey hdecoded
          h.length s rfl).1
      · intro name p publicKey s seed h hs
        cases hkty.symm.trans h.kty
        cases halg.symm.trans h.alg
        cases hpriv.symm.trans hs
        obtain ⟨v, hv, hdecoded⟩ := h.decoded
        cases hpub.symm.trans hv
        exact (((hset rfl).2 name p ⟨rfl, h.listed⟩).2 publicKey hdecoded
          h.length s rfl).2 seed
    · intro h
      refine ⟨or_iff_not_imp_left.mp (h.kty hobject.1 hobject.2 kty hkty),
        ?_⟩
      intro hakp
      subst hakp
      refine ⟨h.alg hobject.1 hobject.2 hkty alg halg, ?_⟩
      intro name p hx
      obtain ⟨rfl, hlisted⟩ := hx
      have hjwkOf : JwkOf jwk name p := ⟨hobject, hkty, halg, hlisted⟩
      refine ⟨?_, ?_⟩
      · intro s hs
        subst hs
        exact h.pub name p s hjwkOf hpub
      · intro publicKey hdecoded hlength s hs
        subst hs
        have hpubOf : PubOf rt jwk name p publicKey :=
          ⟨hjwkOf, ⟨pub, hpub, hdecoded⟩, hlength⟩
        exact ⟨h.priv name p publicKey s hpubOf hpriv,
          fun seed => h.consistent name p publicKey s seed hpubOf hpriv⟩
  · unfold importJwk
    rw [if_pos (by tauto), Abides, onlyThrows_throw]
    refine iff_of_true rfl ⟨?_, ?_, ?_, ?_, ?_⟩
    · intro htruthy hobj
      exact absurd ⟨htruthy, hobj⟩ hobject
    · intro htruthy hobj
      exact absurd ⟨htruthy, hobj⟩ hobject
    · intro name p s h
      exact absurd h.object hobject
    · intro name p publicKey s h
      exact absurd h.object hobject
    · intro name p publicKey s seed h
      exact absurd h.object hobject

-- ============================================================== PKCS#8

/-- A PKCS#8 text that can be read up to the length of its seed: the
headers before it are there, the OID is one of the table, and the private
key is a seed or is cut off before its tag. -/
def Pkcs8Typed (buf : Bytes) : Prop :=
  ∃ (outer version algId oid key : Span) (name : JsString) (p : Params),
    Header buf 0 DER_SEQUENCE outer
    ∧ Header buf outer.start DER_INTEGER version
    ∧ Header buf version.stop DER_SEQUENCE algId
    ∧ Header buf algId.start DER_OID oid
    ∧ (name, p) ∈ PARAMS ∧ p.oid = subarray buf oid.start oid.stop
    ∧ Header buf algId.stop DER_OCTET_STRING key
    ∧ (buf[key.start]? = none
      ∨ ∃ seed, Header buf key.start DER_SEED_CHOICE seed)

section

variable {buf : Bytes} {i : Nat} {tag : UInt8} {what : JsString}

/-- A tag that is not there is a plain error. -/
theorem expectTag_never :
    ∀ e, expectTag buf i tag what = .error e → ¬named e = true := by
  intro e h
  unfold expectTag at h
  split at h
  next => cases h
  next =>
    cases h
    exact Bool.false_ne_true

/-- So is a length that cannot be read. A byte that is not there counts as
the long form of no bytes, and so there is one error for both. -/
theorem readLength_never :
    ∀ e, readLength buf i = .error e → ¬named e = true := by
  intro e h
  have hlong : ∀ {count : Nat} {r : Nat × Nat},
      (if count = 0 ∨ count > 3 then
        .error (error (js "malformed DER: unsupported length encoding"))
      else .ok r : Except JsError (Nat × Nat)) = .error e →
      ¬named e = true := by
    intro count r h
    split at h
    next =>
      cases h
      exact Bool.false_ne_true
    next => cases h
  unfold readLength at h
  split at h
  next first _ =>
    split at h
    next => cases h
    next => exact hlong h
  next => exact hlong h

/-- Past a header is where it points: a missing tag and an unreadable length
are plain errors, so what is behind them counts only where there is a
header. -/
theorem abides_header {α : Type} {f : Nat × Nat → Except JsError α} :
    Abides (do
        let j ← expectTag buf i tag what
        let l ← readLength buf j
        f l)
      ↔ ∃ s : Span, Header buf i tag s ∧ Abides (f (s.length, s.start)) := by
  rw [Abides, onlyThrows_bind_of_never expectTag_never]
  simp only [onlyThrows_bind_of_never readLength_never, expectTag_ok]
  constructor
  · intro hx
    obtain ⟨_, ⟨htag, rfl⟩, ⟨length, start⟩, hlength, h⟩ := hx
    exact ⟨⟨start, length⟩, ⟨htag, hlength⟩, h⟩
  · intro hx
    obtain ⟨s, ⟨htag, hlength⟩, h⟩ := hx
    exact ⟨_, ⟨htag, rfl⟩, _, hlength, h⟩

/-- The private key of a text that can be read. Where the text ends behind
the header the code reads a member of `undefined`, which is a `TypeError`;
any other tag than that of a seed is a plain error. -/
theorem abides_readPrivateKey {alg : JsString} {p : Params} :
    Abides (readPrivateKey buf alg p i)
      ↔ ∃ key : Span, Header buf i DER_OCTET_STRING key
        ∧ (buf[key.start]? = none
          ∨ ∃ seed, Header buf key.start DER_SEED_CHOICE seed) := by
  unfold readPrivateKey
  rw [abides_header]
  refine exists_congr fun key => and_congr_right fun _ => ?_
  dsimp only
  split
  next hinner => exact iff_of_true (onlyThrows_throw.mpr rfl) (Or.inl hinner)
  next inner hinner =>
    rw [hinner, or_iff_right (Option.some_ne_none inner)]
    split
    next hexpanded =>
      rw [Abides, onlyThrows_throw]
      refine iff_of_false Bool.false_ne_true ?_
      intro hx
      obtain ⟨s, hs, -⟩ := hx
      cases hexpanded ▸ hinner.symm.trans hs
    split
    next hother =>
      rw [Abides, onlyThrows_throw]
      refine iff_of_false Bool.false_ne_true ?_
      intro hx
      obtain ⟨s, hs, -⟩ := hx
      exact hother (Option.some.inj (hinner.symm.trans hs))
    next hchoice =>
      rw [not_not.mp hchoice] at hinner
      rw [Abides, onlyThrows_bind_of_never readLength_never]
      simp only [onlyThrows_ite, onlyThrows_throw, onlyThrows_pure,
        seedLengthError, named_rangeError, implies_true, and_true]
      constructor
      · intro hx
        obtain ⟨⟨length, start⟩, hread⟩ := hx
        exact ⟨⟨start, length⟩, hinner, hread⟩
      · intro hx
        obtain ⟨s, -, hread⟩ := hx
        exact ⟨_, hread⟩

end

/-- **PKCS#8 texts.** `importSeedPkcs8` keeps the law on just these:
everything it refuses in front of the length of the seed it refuses with a
plain error, and with a `RangeError` only that length. -/
theorem abides_importSeedPkcs8 {buf : Bytes} :
    Abides (importSeedPkcs8 rt (.uint8Array buf)) ↔ Pkcs8Typed buf := by
  have has : asBytes rt (.uint8Array buf) (js "pkcs8") = .ok buf := rfl
  unfold importSeedPkcs8
  rw [has, Abides, onlyThrows_bind, and_iff_right onlyThrows_ok]
  simp only [Except.ok.injEq, forall_eq', abides_header]
  constructor
  · intro hx
    obtain ⟨outer, houter, version, hversion, algId, halgId, oid, hoid, h⟩
      := hx
    split at h
    next => exact absurd (onlyThrows_throw.mp h) Bool.false_ne_true
    next name p hfind =>
      obtain ⟨hlisted, hoidEq⟩ := find_oid.mp hfind
      obtain ⟨key, hkey, hseed⟩ := abides_readPrivateKey.mp h
      exact ⟨outer, version, algId, oid, key, name, p, houter, hversion,
        halgId, hoid, hlisted, hoidEq, hkey, hseed⟩
  · intro hx
    obtain ⟨outer, version, algId, oid, key, name, p, houter, hversion,
      halgId, hoid, hlisted, hoidEq, hkey, hseed⟩ := hx
    refine ⟨outer, houter, version, hversion, algId, halgId, oid, hoid, ?_⟩
    have hfind : PARAMS.find? (fun row => bytesEqual row.2.oid
        (subarray buf oid.start (oid.start + oid.length)))
        = some (name, p) := find_oid.mpr ⟨hlisted, hoidEq⟩
    rw [hfind]
    exact abides_readPrivateKey.mpr ⟨key, hkey, hseed⟩

-- ============================================================= the law

/-- The bytes of an input, or a typed error. -/
theorem asBytes_input {v : JsVal} (hv : Input v) (what : JsString) :
    (∃ b, v = .uint8Array b)
      ∨ asBytes rt v what
        = .error (typeError (what ++ js " must be a Uint8Array")) := by
  cases hv with
  | string s => exact Or.inr rfl
  | bytes b => exact Or.inl ⟨b, rfl⟩
  | json h => cases h <;> exact Or.inr rfl

/-- **Seeds.** `keypairFromSeed` keeps the law on the names it knows, and on
names that cannot be quoted, for then the quoting is what throws. -/
theorem abides_keypairFromSeed {alg seed : JsVal} (hseed : Input seed) :
    Abides (keypairFromSeed rt keygen alg seed)
      ↔ Listed alg ∨ Unwritable rt alg := by
  have hbytes : Abides (asBytes rt seed (js "seed")) := by
    rcases @asBytes_input rt _ hseed (js "seed") with ⟨b, rfl⟩ | h
    · exact onlyThrows_ok
    · rw [h]
      exact onlyThrows_error.mpr rfl
  unfold keypairFromSeed
  rw [Abides, onlyThrows_bind, ← Abides, abides_paramsFor]
  refine and_iff_left ?_
  intro row _
  rw [onlyThrows_bind]
  refine ⟨hbytes, ?_⟩
  intro bytes _
  rw [onlyThrows_ite]
  exact ⟨fun _ => onlyThrows_throw.mpr rfl, fun _ => onlyThrows_pure⟩

/-- **The parser law.** On every string, byte string and parsed JSON
value, `decodeJwsHeader` returns an object or `null` and `verifyJws`
returns; `importJwk`, `importSeedPkcs8` and `keypairFromSeed` return or
throw a typed error exactly on the inputs described. -/
theorem parser_law {v w : JsVal} (hv : Input v) (hw : Input w)
    (backends : Backends) (publicKey : Bytes) :
    (∀ header, Jws.decodeJwsHeader rt v = some header →
      Jws.isHeaderObject header = true)
    ∧ (∃ result, Jws.verifyJws rt backends v (.uint8Array publicKey)
      .undefined = .ok result)
    ∧ (Abides (importJwk rt keygen v) ↔ JwkTyped rt keygen v)
    ∧ (Abides (importSeedPkcs8 rt v)
      ↔ ∀ buf, v = .uint8Array buf → Pkcs8Typed buf)
    ∧ (Abides (keypairFromSeed rt keygen v w)
      ↔ Listed v ∨ Unwritable rt v) := by
  refine ⟨?_, ?_, abides_importJwk hv, ?_, abides_keypairFromSeed hw⟩
  · intro header h
    unfold Jws.decodeJwsHeader at h
    split at h
    next =>
      split at h
      next =>
        split at h
        next hobject =>
          cases h
          exact hobject
        next => cases h
      next => cases h
    next => cases h
  · have hopts : Jws.VerifyOptions .undefined none none := ⟨rfl, rfl, rfl⟩
    exact Jws.verifyJws_returns hopts v publicKey
  · rcases @asBytes_input rt _ hv (js "pkcs8") with ⟨b, rfl⟩ | h
    · rw [abides_importSeedPkcs8]
      simp
    · have hthrow : importSeedPkcs8 rt v
          = .error (typeError (js "pkcs8" ++ js " must be a Uint8Array")) := by
        rw [importSeedPkcs8, h]
        rfl
      rw [hthrow]
      refine iff_of_true (onlyThrows_error.mpr rfl) ?_
      intro buf hbuf
      subst hbuf
      cases h

/-- The name of a set, and no seed: the length is refused with a
`RangeError`, which is within the law. -/
theorem parser_law_listed :
    Abides (keypairFromSeed plainRuntime (fun _ _ => ⟨[], []⟩)
      (.string (js "ML-DSA-65")) (.uint8Array [])) :=
  (parser_law (Input.string (js "ML-DSA-65")) (Input.bytes [])
    ⟨none, Jws.acceptingNoble⟩ []).2.2.2.2.mpr
      (Or.inl ⟨_, _, rfl, List.mem_cons_self⟩)

/-- Each of the three parsers refuses an input with an untyped error, so the
law does not hold of any of them without a condition. -/
theorem refusals_untyped :
    importSeedPkcs8 plainRuntime (.uint8Array [])
        = .error (error (js "malformed DER: expected PKCS#8 tag 0x30 at "
          ++ js "offset 0"))
      ∧ importJwk plainRuntime (fun _ _ => ⟨[], []⟩)
          (.object [(js "kty", .string (js "RSA"))] [])
        = .error (error (js "unsupported JWK kty 'RSA' — expected 'AKP' "
          ++ js "(RFC 9964)"))
      ∧ keypairFromSeed plainRuntime (fun _ _ => ⟨[], []⟩)
          (.string (js "RSA")) (.uint8Array [])
        = .error (error (js "unsupported algorithm 'RSA' — seed form is "
          ++ js "defined for " ++ seedAlgorithms))
      ∧ ¬Abides (importSeedPkcs8 plainRuntime (.uint8Array []))
      ∧ ¬Abides (importJwk plainRuntime (fun _ _ => ⟨[], []⟩)
          (.object [(js "kty", .string (js "RSA"))] []))
      ∧ ¬Abides (keypairFromSeed plainRuntime (fun _ _ => ⟨[], []⟩)
          (.string (js "RSA")) (.uint8Array [])) := by
  have huntyped : ∀ {α : Type} {x : Except JsError α} {m : JsString},
      x = .error (error m) → ¬Abides x := by
    intro α x m hx h
    exact Bool.false_ne_true (h _ hx)
  have hpkcs8 : importSeedPkcs8 plainRuntime (.uint8Array [])
      = .error (error (js "malformed DER: expected PKCS#8 tag 0x30 at "
        ++ js "offset 0")) := by rfl
  have hjwk : importJwk plainRuntime (fun _ _ => ⟨[], []⟩)
      (.object [(js "kty", .string (js "RSA"))] [])
      = .error (error (js "unsupported JWK kty 'RSA' — expected 'AKP' "
        ++ js "(RFC 9964)")) := by rfl
  have hseed : keypairFromSeed plainRuntime (fun _ _ => ⟨[], []⟩)
      (.string (js "RSA")) (.uint8Array [])
      = .error (error (js "unsupported algorithm 'RSA' — seed form is "
        ++ js "defined for " ++ seedAlgorithms)) := by rfl
  exact ⟨hpkcs8, hjwk, hseed, huntyped hpkcs8, huntyped hjwk,
    huntyped hseed⟩

end KxcoPostQuantum.Fuzz
