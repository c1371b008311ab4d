/-
`signJws` then `verifyJws`.

The signer issues tokens its verifier refuses: an empty payload is an
empty segment, and a header member `crit` or `b64`, or a `toJSON` that
changes the header, is signed as it is. `Kept` says which headers come
back as they were meant, and `verifyJws_signJws_iff` that a token
round-trips exactly when its payload is not empty and its header is kept.

# How the proof goes

A token `signJws` returns is the token of three byte strings: the UTF-8
of the header's JSON text, the payload and the signature
(`signJws_token`). The text reads back as the data it was printed from
(`Lib.Json.parse_textDecode_print`), so the conditions `verifyJws` puts
on such a token (`verifyJws_token`) are conditions on that data; the
others hold of every key pair.
-/
import KxcoPostQuantum.Jws.Proofs.Verify

namespace KxcoPostQuantum.Jws

open Lib.Base64 Lib.Utf8
open Signature (Backends)

variable {rt : Runtime} {backends : Backends}

-- ========================================================= assumptions

/-- A matching key pair of a set, and what is assumed of the primitive:
what `sign` makes with the secret key `verify` accepts with the public
key, in the set's length; and the other set does not sign with it. -/
structure KeyPair (rt : Runtime) (backends : Backends) (spec : Spec)
    (publicKey secretKey : Bytes) : Prop where
  listed : ∃ alg, (alg, spec) ∈ ALGORITHMS
  publicKey_length : publicKey.length = spec.publicKeyBytes
  secretKey_length : secretKey.length = spec.secretKeyBytes
  genuine : ∀ message hex,
    Signature.sign rt backends spec.mod (.uint8Array secretKey)
      (.uint8Array message) .undefined = .ok hex →
    Signature.verify rt backends spec.mod (.uint8Array publicKey)
      (.uint8Array message) (.string hex) .undefined = .ok (some true)
  signature_length : ∀ message hex,
    Signature.sign rt backends spec.mod (.uint8Array secretKey)
      (.uint8Array message) .undefined = .ok hex →
    hex.length = 2 * spec.signatureBytes
  foreign : ∀ alg other, (alg, other) ∈ ALGORITHMS → other ≠ spec →
    ∀ message, ∃ e, Signature.sign rt backends other.mod
      (.uint8Array secretKey) (.uint8Array message) .undefined = .error e

-- =========================================================== statement

/-- `JSON.parse(JSON.stringify(v))`. -/
def jsonRoundTrip (rt : Runtime) (v : JsVal) : Except JsError JsVal := do
  let text ← stringify rt v
  jsonParse rt (text.getD (js "undefined"))

/-- Options that pin an `alg` and a `kid`. -/
def pinning (alg kid : JsVal) : JsVal :=
  .object [(js "alg", alg), (js "kid", kid)] []

/-- The token round-trips: it verifies under the public key, with its
payload and the JSON round trip of its header, with and without the pins
of its `alg` and its `kid`; and under a key of the other set it does
not. -/
def RoundTrips (rt : Runtime) (backends : Backends) (spec : Spec)
    (publicKey bytes : Bytes) (header alg kid : JsVal) (token : JsString) :
    Prop :=
  ∃ h, jsonRoundTrip rt header = .ok h
    ∧ verifyJws rt backends (.string token) (.uint8Array publicKey)
      .undefined = .ok (.valid h bytes (textDecode bytes))
    ∧ verifyJws rt backends (.string token) (.uint8Array publicKey)
      (pinning alg kid) = .ok (.valid h bytes (textDecode bytes))
    ∧ ∀ alg' other otherKey, (alg', other) ∈ ALGORITHMS → other ≠ spec →
      otherKey.length = other.publicKeyBytes →
      ∃ error, verifyJws rt backends (.string token) (.uint8Array otherKey)
        .undefined = .ok (.invalid error)

/-- The JSON data of a header is an object with the `alg`, with the `kid`
if there is one, and without `crit` and `b64`. -/
def Kept (rt : Runtime) (header alg kid : JsVal) : Prop :=
  ∃ members, serialize rt header false = .ok (some (.object members))
    ∧ (toValue rt (.object members)).get (js "alg") = .ok alg
    ∧ (toValue rt (.object members)).get (js "crit") = .ok .undefined
    ∧ (toValue rt (.object members)).get (js "b64") = .ok .undefined
    ∧ (kid = .undefined ∨ ∃ v,
      (toValue rt (.object members)).get (js "kid") = .ok v
        ∧ v.strictEquals kid = true)

-- ============================================================= signing

/-- `sign` answers in hex. -/
theorem sign_hex {set : Signature.SignatureSet} {secretKey message : JsVal}
    {hex : JsString}
    (h : Signature.sign rt backends set secretKey message .undefined
      = .ok hex) : ∃ signature, hex = bytesToHex signature := by
  rw [Signature.sign] at h
  simp only [bind_eq_ok] at h
  obtain ⟨context, -, h⟩ := h
  split at h
  next native =>
    simp only [bind_eq_ok] at h
    obtain ⟨m, -, signature, -, h⟩ := h
    cases signature with
    | none => cases h
    | some signature => exact ⟨signature, (pure_eq_ok.mp h).symm⟩
  next =>
    simp only [bind_eq_ok, pure_eq_ok] at h
    obtain ⟨m, -, signature, -, h⟩ := h
    exact ⟨signature, h.symm⟩

/-- Each byte has two digits. -/
theorem bytesToHex_length (bytes : Bytes) :
    (bytesToHex bytes).length = 2 * bytes.length := by
  induction bytes with
  | nil => rfl
  | cons b rest ih =>
      rw [bytesToHex, List.flatMap_cons, List.length_append,
        List.length_cons, show (byteHex b).length = 2 from rfl]
      rw [bytesToHex] at ih
      omega

/-- What a token is made of: a header with its row of the table, its text,
the bytes of the payload, and a signature of the two segments. Each step of
`signJws` that could throw has returned. -/
theorem signJws_token {payload secretKey opts : JsVal} {token : JsString} :
    signJws rt backends payload secretKey opts = .ok token
      ↔ notOptions (optionsOf opts) = false
        ∧ ∃ spec header text bytes signature,
          signedHeader rt secretKey (optionsOf opts) = .ok (spec, header)
          ∧ stringify rt header = .ok text
          ∧ payloadBytes rt payload = .ok bytes
          ∧ Signature.sign rt backends spec.mod secretKey
            (.uint8Array (signingInput (encodeUrl (encodeText text))
              (encodeUrl bytes))) .undefined = .ok (bytesToHex signature)
          ∧ token = tokenOf (encodeText text) bytes signature := by
  unfold signJws
  simp only
  split
  next h => exact iff_of_false nofun fun h' => by simp [h] at h'
  next hopts =>
    simp only [bind_eq_ok, pure_eq_ok, b64url_eq]
    constructor
    · intro hx
      obtain ⟨⟨spec, header⟩, hheader, text, htext, bytes, hbytes, hex,
        hsign, signature, hsignature, rfl⟩ := hx
      obtain ⟨s, rfl⟩ := sign_hex hsign
      rw [hexToBytes_bytesToHex] at hsignature
      cases hsignature
      exact ⟨Bool.eq_false_of_not_eq_true hopts, spec, header, text, bytes,
        signature, hheader, htext, hbytes, hsign, rfl⟩
    · intro hx
      obtain ⟨-, spec, header, text, bytes, signature, hheader, htext,
        hbytes, hsign, rfl⟩ := hx
      exact ⟨(spec, header), hheader, text, htext, bytes, hbytes, _, hsign,
        signature, hexToBytes_bytesToHex signature, rfl⟩

/-- The `alg` and the `kid` a header is made of. -/
theorem signedHeader_ok {secretKey opts header : JsVal} {spec : Spec}
    (h : signedHeader rt secretKey opts = .ok (spec, header)) :
    ∃ alg kid, signingAlg secretKey opts = .ok (.string alg)
      ∧ (alg, spec) ∈ ALGORITHMS ∧ opts.get (js "kid") = .ok kid := by
  rw [signedHeader, bind_eq_ok] at h
  obtain ⟨alg, halg, h⟩ := h
  split at h
  next =>
    obtain ⟨_, -, h⟩ := bind_eq_ok.mp h
    cases h
  next spec' hspec =>
    simp only [bind_eq_ok, pure_eq_ok, Prod.mk.injEq] at h
    obtain ⟨extra, -, typ, -, kid, hkid, members, -, rfl, -⟩ := h
    cases alg with
    | string s => exact ⟨s, kid, halg, algorithmFor_string.mp hspec, hkid⟩
    | _ => cases hspec

-- ============================================================= algebra

/-- A token determines its three parts. -/
theorem tokenOf_inj {a b c a' b' c' : Bytes}
    (h : tokenOf a b c = tokenOf a' b' c') : a = a' ∧ b = b' ∧ c = c' := by
  have hsplit := splitOn_token a b c
  rw [h, splitOn_token] at hsplit
  simp only [List.cons.injEq, and_true] at hsplit
  exact ⟨(encodeUrl_injective hsplit.1).symm,
    (encodeUrl_injective hsplit.2.1).symm,
    (encodeUrl_injective hsplit.2.2).symm⟩

/-- A name has one row. -/
theorem listed_unique {alg : JsString} {spec other : Spec}
    (h : (alg, spec) ∈ ALGORITHMS) (h' : (alg, other) ∈ ALGORITHMS) :
    spec = other := by
  rw [← algorithmFor_string] at h h'
  exact Option.some.inj (h.symm.trans h')

/-- The keys of two sets have different lengths, so the length of a key
tells its set. -/
theorem listed_lengths {alg alg' : JsString} {spec other : Spec}
    (h : (alg, spec) ∈ ALGORITHMS) (h' : (alg', other) ∈ ALGORITHMS)
    (hne : other ≠ spec) : other.publicKeyBytes ≠ spec.publicKeyBytes
      ∧ other.secretKeyBytes ≠ spec.secretKeyBytes := by
  simp only [ALGORITHMS, List.mem_cons, Prod.mk.injEq, List.not_mem_nil,
    or_false] at h h'
  rcases h with ⟨-, rfl⟩ | ⟨-, rfl⟩ <;> rcases h' with ⟨-, rfl⟩ | ⟨-, rfl⟩
  · exact absurd rfl hne
  · decide
  · decide
  · exact absurd rfl hne

/-- No algorithm of the table has empty signatures. -/
theorem listed_signatureBytes {alg : JsString} {spec : Spec}
    (h : (alg, spec) ∈ ALGORITHMS) : 0 < spec.signatureBytes := by
  simp only [ALGORITHMS, List.mem_cons, Prod.mk.injEq, List.not_mem_nil,
    or_false] at h
  rcases h with ⟨-, rfl⟩ | ⟨-, rfl⟩ <;> decide

/-- What a read returns is a value. -/
theorem get_ne_raises {v w : JsVal} {k : JsString} (h : v.get k = .ok w)
    (e : JsError) : w ≠ .raises e := by
  unfold JsVal.get at h
  split at h
  next => cases h
  next => cases h
  next own inherited =>
    split at h
    next => cases h
    next w' hne _ =>
      cases h
      exact hne e
    next =>
      cases h
      nofun
  next =>
    cases h
    nofun

section

variable {alg kid : JsVal}

/-- The pinned algorithm is read. -/
theorem pinning_alg {a : JsString} :
    (pinning (.string a) kid).get (js "alg") = .ok (.string a) := rfl

/-- The pinned name is read. -/
theorem pinning_kid (h : ∀ e, kid ≠ .raises e) :
    (pinning alg kid).get (js "kid") = .ok kid := by
  have hlookup : JsVal.lookup (js "kid")
      [(js "alg", alg), (js "kid", kid)] = some kid := rfl
  rw [pinning, JsVal.get, hlookup, Option.some_or]
  cases kid with
  | raises e => exact absurd rfl (h e)
  | _ => rfl

end

-- ========================================================== round trip

section

variable {spec : Spec} {publicKey secretKey bytes signature : Bytes}
  {j : Lib.Json} {a : JsString} {kid : JsVal}

/-- The token of a header that serializes to `j`. -/
def tokenFor (j : Lib.Json) (bytes signature : Bytes) : JsString :=
  tokenOf (textEncode j.print) bytes signature

/-- The conditions on such a token are conditions on `j`: the segments
decode to what they were made of, and the signature is taken as it is, so
what is left are the checks of the header. -/
theorem tokenFor_valid (hj : j.Valid) {opts : JsVal} {key : Bytes}
    {h : JsVal} {text : JsString}
    (hopts : notOptions (optionsOf opts) = false) :
    verifyJws rt backends (.string (tokenFor j bytes signature))
        (.uint8Array key) opts = .ok (.valid h bytes text)
      ↔ text = textDecode bytes ∧ ∃ members alg spec kid,
        j = .object members
          ∧ TokenValid rt backends (optionsOf opts) key (textEncode j.print)
            bytes signature members alg spec h kid := by
  have hparse := Lib.Json.parse_textDecode_print hj
  rw [verifyJws_token hopts]
  refine and_congr_right fun _ => ?_
  constructor
  · intro hx
    obtain ⟨hb, sig, members, alg, spec, kid, htoken, hvalid⟩ := hx
    obtain ⟨rfl, -, rfl⟩ := tokenOf_inj (JsVal.string.inj htoken)
    have hobject := hvalid.object
    rw [hparse, Option.some_inj] at hobject
    exact ⟨members, alg, spec, kid, hobject, hvalid⟩
  · intro hx
    obtain ⟨members, alg, spec, kid, -, hvalid⟩ := hx
    exact ⟨_, _, members, alg, spec, kid, rfl, hvalid⟩

/-- A token without a payload is not valid. -/
theorem payload_ne_of_valid {header : Bytes} {key payload : Bytes}
    {opts h : JsVal} {text : JsString}
    (hopts : notOptions (optionsOf opts) = false)
    (hv : verifyJws rt backends (.string (tokenOf header bytes signature))
      (.uint8Array key) opts = .ok (.valid h payload text)) : bytes ≠ [] := by
  obtain ⟨-, _, _, _, _, _, _, htoken, hvalid⟩ :=
    (verifyJws_token hopts).mp hv
  obtain ⟨-, rfl, -⟩ := tokenOf_inj (JsVal.string.inj htoken)
  exact hvalid.payload_ne

/-- A header that is kept makes a valid token, under options that pin
what the header has. -/
theorem tokenValid_of_kept (hkeys : KeyPair rt backends spec publicKey
      secretKey) (hlisted : (a, spec) ∈ ALGORITHMS) (hbytes : bytes ≠ [])
    (hj : j.Valid) {members : List (JsString × Lib.Json)}
    (hobject : j = .object members) {v opts : JsVal}
    (halg : (toValue rt j).get (js "alg") = .ok (.string a))
    (hcrit : (toValue rt j).get (js "crit") = .ok .undefined)
    (hb64 : (toValue rt j).get (js "b64") = .ok .undefined)
    (hkid : (toValue rt j).get (js "kid") = .ok v)
    (halgPin : Pinned opts (js "alg") (.string a))
    (hkidPin : Pinned opts (js "kid") v)
    (hsign : Signature.sign rt backends spec.mod (.uint8Array secretKey)
      (.uint8Array (signingInput (encodeUrl (textEncode j.print))
        (encodeUrl bytes))) .undefined = .ok (bytesToHex signature)) :
    TokenValid rt backends opts publicKey (textEncode j.print) bytes
      signature members a spec (toValue rt j) v := by
  have hparse := Lib.Json.parse_textDecode_print hj
  have hlength : signature.length = spec.signatureBytes := by
    have := hkeys.signature_length _ _ hsign
    rw [bytesToHex_length] at this
    omega
  refine ⟨?_, hbytes, ?_, by rw [hparse, hobject], by rw [hobject], halg,
    hlisted, halgPin, hkid, hkidPin, hcrit, hb64, hkeys.publicKey_length,
    hlength, hkeys.genuine _ _ hsign⟩
  · intro hempty
    rw [hempty] at hparse
    cases hparse
  · rintro rfl
    have := listed_signatureBytes hlisted
    rw [← hlength] at this
    exact absurd this (by decide)

/-- The key of a token that is valid is a key of the token's set, as far as
its length says. -/
theorem key_length_of_valid (hj : j.Valid) (hlisted : (a, spec) ∈ ALGORITHMS)
    (halg : (toValue rt j).get (js "alg") = .ok (.string a)) {opts h : JsVal}
    {key payload : Bytes} {text : JsString}
    (hopts : notOptions (optionsOf opts) = false)
    (hv : verifyJws rt backends (.string (tokenFor j bytes signature))
      (.uint8Array key) opts = .ok (.valid h payload text)) :
    key.length = spec.publicKeyBytes := by
  obtain ⟨-, hb, sig, members, a', spec', _, htoken, hvalid⟩ :=
    (verifyJws_token hopts).mp hv
  obtain ⟨rfl, -, -⟩ := tokenOf_inj (JsVal.string.inj htoken)
  have hobject := hvalid.object
  rw [Lib.Json.parse_textDecode_print hj, Option.some_inj] at hobject
  have ha := hvalid.alg_eq
  rw [hvalid.header_eq, ← hobject, halg, Except.ok.injEq,
    JsVal.string.injEq] at ha
  subst ha
  rw [hvalid.key_length, listed_unique hvalid.listed hlisted]

/-- What a verifier that pins the `alg` and the `kid` accepts is kept: both
members have come through the text as they were signed. -/
theorem kept_of_valid (hj : j.Valid) {header h : JsVal} {text : JsString}
    (hd : serialize rt header false = .ok (some j))
    (hpinKid : (pinning (.string a) kid).get (js "kid") = .ok kid)
    (hv : verifyJws rt backends (.string (tokenFor j bytes signature))
      (.uint8Array publicKey) (pinning (.string a) kid)
        = .ok (.valid h bytes text)) :
    bytes ≠ [] ∧ Kept rt header (.string a) kid := by
  obtain ⟨-, members, a', spec', v, rfl, hvalid⟩ :=
    (tokenFor_valid hj rfl).mp hv
  have hheader := hvalid.header_eq
  subst hheader
  obtain ⟨pin, hpin, halgPin⟩ := hvalid.algPin
  obtain ⟨pin', hpin', hkidPin⟩ := hvalid.kidPin
  cases hpin
  cases hpinKid.symm.trans hpin'
  have halg : a' = a := by
    rcases halgPin with halgPin | halgPin
    · cases halgPin
    · exact JsVal.string.inj (JsVal.strictEquals_string.mp halgPin)
  refine ⟨hvalid.payload_ne, members, hd, ?_, hvalid.crit, hvalid.b64, ?_⟩
  · rw [hvalid.alg_eq, halg]
  · exact hkidPin.imp_right fun h => ⟨v, hvalid.kid_eq, h⟩

/-- A header that is kept round-trips. With the key pair and a payload that
is not empty nothing is left that the verifier could refuse, and what it
returns is what the text of the header says. -/
theorem roundTrips_of_kept (hkeys : KeyPair rt backends spec publicKey
      secretKey) (hlisted : (a, spec) ∈ ALGORITHMS) (hbytes : bytes ≠ [])
    (hj : j.Valid) {header : JsVal}
    (hd : serialize rt header false = .ok (some j))
    (hround : jsonRoundTrip rt header = .ok (toValue rt j))
    (hpinKid : (pinning (.string a) kid).get (js "kid") = .ok kid)
    (hkept : Kept rt header (.string a) kid)
    (hsign : Signature.sign rt backends spec.mod (.uint8Array secretKey)
      (.uint8Array (signingInput (encodeUrl (textEncode j.print))
        (encodeUrl bytes))) .undefined = .ok (bytesToHex signature)) :
    RoundTrips rt backends spec publicKey bytes header (.string a) kid
      (tokenFor j bytes signature) := by
  obtain ⟨members, hser, halg, hcrit, hb64, hkid⟩ := hkept
  obtain rfl : j = .object members := by
    rw [hd] at hser
    exact Option.some.inj (Except.ok.inj hser)
  obtain ⟨v, hv, -⟩ : ∃ v, (toValue rt (.object members)).get (js "kid")
      = .ok v ∧ (v = .undefined ∨ Plain v) := by
    have hplain := plain_toValue rt (.object members)
    rw [toValue, objectOf] at hplain ⊢
    exact hplain.get (js "kid")
  have hvalid : ∀ {opts : JsVal}, Pinned opts (js "alg") (.string a) →
      Pinned opts (js "kid") v → TokenValid rt backends opts publicKey
        (textEncode (Lib.Json.object members).print) bytes signature members
        a spec (toValue rt (.object members)) v := fun halgPin hkidPin =>
    tokenValid_of_kept hkeys hlisted hbytes hj rfl halg hcrit hb64 hv
      halgPin hkidPin hsign
  have hkidPin : Pinned (pinning (.string a) kid) (js "kid") v := by
    refine ⟨kid, hpinKid, hkid.imp_right ?_⟩
    intro h
    obtain ⟨w, hw, hequal⟩ := h
    cases hv.symm.trans hw
    exact hequal
  refine ⟨_, hround, ?_, ?_, ?_⟩
  · exact (tokenFor_valid hj rfl).mpr ⟨rfl, members, a, spec, v, rfl,
      hvalid ⟨_, rfl, Or.inl rfl⟩ ⟨_, rfl, Or.inl rfl⟩⟩
  · exact (tokenFor_valid hj rfl).mpr ⟨rfl, members, a, spec, v, rfl,
      hvalid ⟨_, pinning_alg, Or.inr (by simp [JsVal.strictEquals])⟩ hkidPin⟩
  · intro a' other otherKey hother hne hlength
    have hopts : VerifyOptions .undefined none none := ⟨rfl, rfl, rfl⟩
    obtain ⟨r, hr⟩ := @verifyJws_returns rt backends _ _ _ hopts
      (.string (tokenFor (.object members) bytes signature)) otherKey
    cases r with
    | invalid error => exact ⟨error, hr⟩
    | valid h' payload' text' =>
        refine absurd ?_ (listed_lengths hlisted hother hne).1
        rw [← hlength]
        exact key_length_of_valid hj hlisted halg rfl hr

end

/-- **Round trip.** In every run in which `signJws` returns a token, the
token round-trips exactly when its payload is not empty and its header is
kept. -/
theorem verifyJws_signJws_iff (hrt : rt.Lawful) {spec : Spec}
    {publicKey secretKey : Bytes}
    (hkeys : KeyPair rt backends spec publicKey secretKey)
    {payload opts : JsVal} {token : JsString}
    (h : signJws rt backends payload (.uint8Array secretKey) opts
      = .ok token) :
    ∃ bytes header alg kid, payloadBytes rt payload = .ok bytes
      ∧ signedHeader rt (.uint8Array secretKey) (optionsOf opts)
        = .ok (spec, header)
      ∧ signingAlg (.uint8Array secretKey) (optionsOf opts) = .ok alg
      ∧ (optionsOf opts).get (js "kid") = .ok kid
      ∧ (RoundTrips rt backends spec publicKey bytes header alg kid token
        ↔ bytes ≠ [] ∧ Kept rt header alg kid) := by
  obtain ⟨-, spec', header, text, bytes, signature, hheader, htext, hbytes,
    hsign, rfl⟩ := signJws_token.mp h
  obtain ⟨a, kid, halg, hlisted, hkid⟩ := signedHeader_ok hheader
  -- the other set does not sign with this key
  obtain rfl : spec' = spec := by
    by_contra hne
    obtain ⟨e, he⟩ := hkeys.foreign a spec' hlisted hne
      (signingInput (encodeUrl (encodeText text)) (encodeUrl bytes))
    rw [he] at hsign
    cases hsign
  refine ⟨bytes, header, .string a, kid, hbytes, hheader, halg, hkid, ?_⟩
  obtain ⟨d, hd, rfl⟩ := stringify_ok.mp htext
  have hpinKid : (pinning (.string a) kid).get (js "kid") = .ok kid :=
    pinning_kid (get_ne_raises hkid)
  cases d with
  | none =>
      -- the header has no text, so its segment is empty
      refine iff_of_false ?_ ?_
      · intro hx
        obtain ⟨h', -, hvalid, -⟩ := hx
        obtain ⟨-, hb, sig, _, _, _, _, htoken, hv⟩ :=
          (verifyJws_token rfl).mp hvalid
        obtain ⟨rfl, -⟩ := tokenOf_inj (JsVal.string.inj htoken)
        exact hv.header_ne rfl
      · intro hx
        obtain ⟨-, members, hser, -⟩ := hx
        rw [hd] at hser
        cases hser
  | some j =>
      have hj := serialize_valid hrt header false j hd
      have hround : jsonRoundTrip rt header = .ok (toValue rt j) := by
        rw [jsonRoundTrip, htext]
        change jsonParse rt j.print = _
        rw [jsonParse, Lib.Json.parse_print hj]
      constructor
      · intro hx
        obtain ⟨h', -, -, hpinned, -⟩ := hx
        exact kept_of_valid hj hd hpinKid hpinned
      · intro hx
        obtain ⟨hne, hkept⟩ := hx
        exact roundTrips_of_kept hkeys hlisted hne hj hd hround hpinKid
          hkept hsign

-- =========================================================== instances

/-- Without OpenSSL, `sign` is noble's. -/
theorem sign_noble {noble : Signature.Noble} {set : Signature.SignatureSet}
    (secretKey : JsVal) (message : Bytes) :
    Signature.sign rt ⟨none, noble⟩ set secretKey (.uint8Array message)
        .undefined
      = (noble.sign set message secretKey none).map bytesToHex := by
  change (do
    let signature ← noble.sign set message secretKey none
    return bytesToHex signature) = _
  cases noble.sign set message secretKey none <;> rfl

/-- A noble that signs with any key of the set's length, by a signature of
the set's length, and accepts every signature. -/
def sizedNoble : Signature.Noble where
  sign set _ secretKey _ :=
    match secretKey, ALGORITHMS.find? fun row => row.2.mod = set with
    | .uint8Array sk, some (_, spec) =>
        if sk.length = spec.secretKeyBytes then
          .ok (List.replicate spec.signatureBytes 7)
        else .error (error (js "secret key length"))
    | _, _ => .error (error (js "secret key type"))
  verify _ _ _ _ _ := .ok true

/-- The backend signs with a key of the right length. -/
theorem sizedNoble_sign {alg : JsString} {spec : Spec}
    (h : (alg, spec) ∈ ALGORITHMS) (message secretKey : Bytes)
    (context : Option Bytes) :
    sizedNoble.sign spec.mod message (.uint8Array secretKey) context
      = if secretKey.length = spec.secretKeyBytes then
          .ok (List.replicate spec.signatureBytes 7)
        else .error (error (js "secret key length")) := by
  simp only [ALGORITHMS, List.mem_cons, Prod.mk.injEq, List.not_mem_nil,
    or_false] at h
  rcases h with ⟨-, rfl⟩ | ⟨-, rfl⟩ <;> rfl

/-- Any two keys of the lengths of a set are a key pair of it, under a
library that looks at nothing but the length of a key. So what the theorems
above assume can be met for every row. -/
theorem sizedNoble_keyPair {alg : JsString} {spec : Spec}
    (h : (alg, spec) ∈ ALGORITHMS) {publicKey secretKey : Bytes}
    (hp : publicKey.length = spec.publicKeyBytes)
    (hs : secretKey.length = spec.secretKeyBytes) :
    KeyPair plainRuntime ⟨none, sizedNoble⟩ spec publicKey secretKey where
  listed := ⟨alg, h⟩
  publicKey_length := hp
  secretKey_length := hs
  genuine message hex hsign := by
    obtain ⟨signature, rfl⟩ := sign_hex hsign
    exact verify_noble rfl
  signature_length message hex hsign := by
    rw [sign_noble, sizedNoble_sign h, if_pos hs] at hsign
    rw [← Except.ok.inj hsign, bytesToHex_length, List.length_replicate]
  foreign alg' other hother hne message := by
    refine ⟨error (js "secret key length"), ?_⟩
    have hlength : ¬secretKey.length = other.secretKeyBytes := by
      rw [hs]
      exact (listed_lengths h hother hne).2.symm
    rw [sign_noble, sizedNoble_sign hother, if_neg hlength]
    rfl

/-- What `signJws` makes with `sizedNoble`. -/
theorem signJws_sized {alg : JsString} {spec : Spec}
    (h : (alg, spec) ∈ ALGORITHMS) {payload header opts : JsVal}
    {secretKey bytes : Bytes} {text : Option JsString}
    (hs : secretKey.length = spec.secretKeyBytes)
    (hopts : notOptions (optionsOf opts) = false)
    (hheader : signedHeader plainRuntime (.uint8Array secretKey)
      (optionsOf opts) = .ok (spec, header))
    (htext : stringify plainRuntime header = .ok text)
    (hbytes : payloadBytes plainRuntime payload = .ok bytes) :
    signJws plainRuntime ⟨none, sizedNoble⟩ payload (.uint8Array secretKey)
        opts
      = .ok (tokenOf (encodeText text) bytes
        (List.replicate spec.signatureBytes 7)) := by
  refine signJws_token.mpr ⟨hopts, spec, header, text, bytes, _, hheader,
    htext, hbytes, ?_, rfl⟩
  rw [sign_noble, sizedNoble_sign h, if_pos hs]
  rfl

/-- The options and the header of the tokens below. -/
def named65 : JsVal := pinning (.string (js "ML-DSA-65")) (.string (js "k"))

/-- The algorithm is in the table. -/
theorem named65_listed : (js "ML-DSA-65",
    (⟨.mlDsa65, 1952, 4032, 3309⟩ : Spec)) ∈ ALGORITHMS := by decide

/-- The backend's key pair for it. -/
theorem named65_keyPair :
    KeyPair plainRuntime ⟨none, sizedNoble⟩ ⟨.mlDsa65, 1952, 4032, 3309⟩
      (List.replicate 1952 7) (List.replicate 4032 7) :=
  sizedNoble_keyPair named65_listed List.length_replicate
    List.length_replicate

/-- The header that is signed under is the one given. -/
theorem named65_header (secretKey : JsVal) :
    signedHeader plainRuntime secretKey named65
      = .ok (⟨.mlDsa65, 1952, 4032, 3309⟩, named65) := rfl

/-- The text of `named65`. -/
def named65Text : JsString :=
  js "\x7b\"alg\":\"ML-DSA-65\",\"kid\":\"k\"\x7d"

/-- Its text. -/
theorem named65_text :
    stringify plainRuntime named65 = .ok (some named65Text) := rfl

/-- What is signed under it. -/
theorem named65_signed {payload : JsVal} {bytes : Bytes}
    (hbytes : payloadBytes plainRuntime payload = .ok bytes) :
    signJws plainRuntime ⟨none, sizedNoble⟩ payload
        (.uint8Array (List.replicate 4032 7)) named65
      = .ok (tokenOf (encodeText (some named65Text)) bytes
        (List.replicate 3309 7)) :=
  signJws_sized named65_listed List.length_replicate rfl (named65_header _)
    named65_text hbytes

/-- A text payload, signed and verified with the options of `named65`, under
a library that signs by the length of a key. -/
theorem verifyJws_signJws_named :
    ∃ token, signJws plainRuntime ⟨none, sizedNoble⟩ (.string (js "hi"))
        (.uint8Array (List.replicate 4032 7)) named65 = .ok token
      ∧ RoundTrips plainRuntime ⟨none, sizedNoble⟩
        ⟨.mlDsa65, 1952, 4032, 3309⟩ (List.replicate 1952 7) [104, 105]
        named65 (.string (js "ML-DSA-65")) (.string (js "k")) token := by
  have hsigned := @named65_signed (.string (js "hi")) [104, 105] rfl
  obtain ⟨bytes, header, alg, kid, hbytes, hheader, halg, hkid, hiff⟩ :=
    verifyJws_signJws_iff plainRuntime_lawful named65_keyPair hsigned
  cases hbytes
  cases hheader
  cases halg
  cases hkid
  exact ⟨_, hsigned, hiff.mpr ⟨by decide, _, rfl, rfl, rfl, rfl,
    Or.inr ⟨_, rfl, rfl⟩⟩⟩

/-- The empty text, signed and refused. Its segment is empty, which the
signer writes and the verifier does not decode. -/
theorem empty_payload_refused :
    KeyPair plainRuntime ⟨none, sizedNoble⟩ ⟨.mlDsa65, 1952, 4032, 3309⟩
        (List.replicate 1952 7) (List.replicate 4032 7)
      ∧ ∃ token error, signJws plainRuntime ⟨none, sizedNoble⟩ (.string [])
          (.uint8Array (List.replicate 4032 7)) named65 = .ok token
        ∧ verifyJws plainRuntime ⟨none, sizedNoble⟩ (.string token)
          (.uint8Array (List.replicate 1952 7)) .undefined
            = .ok (.invalid error) := by
  refine ⟨named65_keyPair, ?_⟩
  have hopts : VerifyOptions .undefined none none := ⟨rfl, rfl, rfl⟩
  obtain ⟨r, hr⟩ := @verifyJws_returns plainRuntime ⟨none, sizedNoble⟩ _ _ _
    hopts (.string (tokenOf (encodeText (some named65Text)) []
      (List.replicate 3309 7))) (List.replicate 1952 7)
  cases r with
  | invalid error => exact ⟨_, error, named65_signed rfl, hr⟩
  | valid h payload text => exact absurd rfl (payload_ne_of_valid rfl hr)

end KxcoPostQuantum.Jws
