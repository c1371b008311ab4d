/-
Webhook deliveries against JWS tokens under one key.

Both formats are text, a dot and text, signed by the same `sign` with no
context. What a delivery signs has its first dot after the timestamp,
which is decimal digits; what a token signs has its first dot after the
header segment. So the two could only be the same bytes if the header
segment were digits, and such a segment is no JSON
(`digits_notJson`): its first byte is at least 0xD0, which is outside
ASCII, and it does not begin with a byte order mark, whose third sextet
no digit stands for.
-/
import KxcoPostQuantum.Jws.Proofs.Verify
import KxcoPostQuantum.Webhook.Proofs.Timestamp

namespace KxcoPostQuantum

open Lib.Base64 Lib.Utf8

-- ======================================================= what is signed

section

variable {rt : Runtime} {timestamp rawBody : JsVal}

/-- Without an envelope no HMAC is computed. -/
theorem Webhook.verifyHmac_of_no_envelope
    (h : ∀ env, Webhook.envelope rt timestamp rawBody ≠ .ok env)
    (hmac hmac' : Bytes → Bytes → Bytes) (secret sigHeader : JsVal) :
    Webhook.verifyHmac rt hmac secret timestamp rawBody sigHeader
      = Webhook.verifyHmac rt hmac' secret timestamp rawBody sigHeader := by
  have hhex : Webhook.hmacHex rt hmac secret timestamp rawBody
      = Webhook.hmacHex rt hmac' secret timestamp rawBody :=
    bind_congr_ok fun env henv => absurd henv (h env)
  rw [Webhook.verifyHmac, Webhook.verifyHmac, hhex]

/-- Without an envelope no signature is verified. -/
theorem Webhook.verifyPq_of_no_envelope
    (h : ∀ env, Webhook.envelope rt timestamp rawBody ≠ .ok env)
    (backends backends' : Signature.Backends)
    (publicKey sigHeader : JsVal) :
    Webhook.verifyPq rt backends publicKey timestamp rawBody sigHeader
      = Webhook.verifyPq rt backends' publicKey timestamp rawBody
          sigHeader := by
  have hverify : ∀ set signature,
      Webhook.verifyEnvelope rt backends set publicKey timestamp rawBody
          signature
        = Webhook.verifyEnvelope rt backends' set publicKey timestamp
          rawBody signature :=
    fun _ _ => bind_congr_ok fun env henv => absurd henv (h env)
  simp only [Webhook.verifyPq, hverify]

end

/-- A delivery that gets to no signature check is not decided by the
primitives. -/
theorem Webhook.verifyDelivery_of_not_reaches {rt : Runtime} {now : Nat}
    {d : Webhook.Delivery} (h : ∀ message, ¬Webhook.Reaches rt now d message)
    (hmac hmac' : Bytes → Bytes → Bytes)
    (backends backends' : Signature.Backends) :
    Webhook.verifyDelivery rt hmac backends now d
      = Webhook.verifyDelivery rt hmac' backends' now d := by
  refine bind_congr_ok fun r hr => ?_
  have hno : Webhook.hmacReached d r = true ∨ Webhook.pqReached d r = true →
      ∀ env, Webhook.envelope rt r.ts d.rawBody ≠ .ok env :=
    fun hreached env henv => h env ⟨r, hr, hreached, henv⟩
  have hhmac : Webhook.hmacVerdict rt hmac d r
      = Webhook.hmacVerdict rt hmac' d r := by
    unfold Webhook.hmacVerdict
    split
    next hreached =>
      exact Webhook.verifyHmac_of_no_envelope (hno (Or.inl hreached)) _ _ _ _
    next => rfl
  have hpq : Webhook.pqVerdict rt backends d r
      = Webhook.pqVerdict rt backends' d r := by
    unfold Webhook.pqVerdict
    split
    next hreached =>
      exact Webhook.verifyPq_of_no_envelope (hno (Or.inr hreached)) _ _ _ _
    next => rfl
  simp only [hhmac, hpq]

-- ========================================================= separation

/-- The digits stand for ten sextets from 52. -/
theorem urlChar_digit : ∀ v < 64, Lib.Json.isDigit (urlChar v) = true →
    52 ≤ v := by
  decide +kernel

/-- A header segment of digits is no JSON. The sextets of the digits are the
high ones, so the first byte is outside ASCII, and no text of a value begins
with such a unit. -/
theorem digits_notJson {header : Bytes} (hne : header ≠ [])
    (hdigits : ∀ c ∈ encodeUrl header, Lib.Json.isDigit c = true) :
    Lib.Json.parse (textDecode header) = none := by
  have hsextets : ∀ v ∈ sextets header, 52 ≤ v := fun v hv =>
    urlChar_digit v (sextets_lt header v hv)
      (hdigits _ (List.mem_map_of_mem hv))
  cases header with
  | nil => exact absurd rfl hne
  | cons b rest =>
      have hb : 0x80 ≤ b.toNat := by
        have hfirst : b.toNat / 4 ∈ sextets (b :: rest) := by
          rcases rest with _ | ⟨c, _ | ⟨d, rest⟩⟩ <;> simp [sextets]
        have := hsextets _ hfirst
        omega
      have hbom : dropBom (b :: rest) = b :: rest := by
        unfold dropBom
        split
        next rest' heq =>
          -- the third sextet of the mark is 46
          rw [heq] at hsextets
          have := hsextets 46 (by simp [sextets])
          omega
        next => rfl
      obtain ⟨u, us, htext, hu⟩ := textDecode_nonAscii hb hbom
      rw [htext]
      exact Lib.Json.parse_nonAscii hu us

/-- What a token signs begins with its header segment and a dot. -/
theorem Jws.Reaches.message {rt : Runtime} {token publicKey opts : JsVal}
    {message : Bytes} (h : Jws.Reaches rt token publicKey opts message) :
    ∃ header payload members, header ≠ []
      ∧ Lib.Json.parse (textDecode header) = some members
      ∧ message = textEncode
        (encodeUrl header ++ js "." ++ encodeUrl payload) := by
  obtain ⟨t, p, q, r, d, alg, spec, keyBytes, -, -, -, hd, -, -, -, -, -, -,
    -, -, -, -, rfl⟩ := h
  obtain ⟨header, hp, hjson, hq, -⟩ := (Jws.decodeSegments_ok rt).mp hd
  obtain ⟨hne, rfl⟩ := (Jws.strictB64url_iff rt).mp hp
  obtain ⟨-, rfl⟩ := (Jws.strictB64url_iff rt).mp hq
  refine ⟨header, d.payload, ?_⟩
  rw [jsonParse] at hjson
  split at hjson
  next j hj =>
    exact ⟨j, fun h => hne (Jws.encodeUrl_eq_nil.mpr h), hj, rfl⟩
  next => cases hjson

/-- **Separation.** The bytes a webhook delivery is checked over and the
bytes a token is checked over are never the same, whatever the timestamp,
the body, the token and the runtimes. -/
theorem webhook_jws_separate {rt rt' : Runtime} {now : Nat}
    {d : Webhook.Delivery} {token publicKey opts : JsVal}
    {message message' : Bytes}
    (hwebhook : Webhook.Reaches rt now d message)
    (hjws : Jws.Reaches rt' token publicKey opts message') :
    message ≠ message' := by
  obtain ⟨ts, body, htimely, -, rfl⟩ := hwebhook.message
  obtain ⟨header, payload, members, hne, hjson, rfl⟩ := hjws.message
  intro heq
  have hts : ∀ c ∈ ts, c.toNat < 0x80 ∧ c ≠ 46 :=
    fun c hc => Webhook.digit_spec (htimely.digits c hc)
  have hheader : ∀ c ∈ encodeUrl header, c.toNat < 0x80 ∧ c ≠ 46 :=
    fun c hc => ⟨(Jws.encodeUrl_spec header c hc).2.1,
      (Jws.encodeUrl_spec header c hc).2.2.1⟩
  have hright : textEncode (encodeUrl header ++ js "." ++ encodeUrl payload)
      = Jws.asciiBytes (encodeUrl header)
        ++ 46 :: Jws.asciiBytes (encodeUrl payload) := by
    rw [textEncode_ascii (Jws.segments_ascii header payload),
      List.map_append, List.map_append, List.append_assoc]
    rfl
  rw [Webhook.textEncode_timestamp htimely.digits, hright,
    List.append_assoc] at heq
  obtain ⟨hsegment, -⟩ := Jws.append_dot_inj
    (Webhook.dot_notMem_asciiBytes hts)
    (Webhook.dot_notMem_asciiBytes hheader) heq
  have hsame : ts = encodeUrl header := by
    refine Jws.textEncode_inj (fun c hc => (hts c hc).1)
      (fun c hc => (hheader c hc).1) ?_
    rw [textEncode_ascii fun c hc => (hts c hc).1,
      textEncode_ascii fun c hc => (hheader c hc).1]
    exact hsegment
  rw [digits_notJson hne (hsame ▸ htimely.digits)] at hjson
  cases hjson

/-- A delivery of an empty body, one second into the epoch. -/
def emptyDelivery : Webhook.Delivery where
  headers := .object [(js "x-kxco-timestamp", .string (js "1")),
    (js "x-kxco-signature", .string (js "00"))] []
  rawBody := .string []
  hmacSecret := .string (js "secret")
  pqPublicKey := .undefined
  pinnedKid := .undefined
  windowSeconds := .undefined

theorem emptyDelivery_reaches :
    Webhook.Reaches plainRuntime 1000 emptyDelivery (textEncode (js "1.")) := by
  have hcheck : Webhook.checkTimestamp plainRuntime 1000 (.string (js "1"))
      .undefined = .ok true := by decide +kernel
  refine ⟨⟨.string (js "1"), .string (js "00"), .undefined, true, true⟩, ?_,
    Or.inl (by decide), rfl⟩
  have hread : Webhook.readDelivery plainRuntime 1000 emptyDelivery
      = (Webhook.checkTimestamp plainRuntime 1000 (.string (js "1"))
        .undefined >>= fun ok => pure
          ⟨.string (js "1"), .string (js "00"), .undefined, ok, true⟩) := by
    simp only [Webhook.readDelivery, emptyDelivery]
    rfl
  rw [hread, hcheck]
  rfl

/-- A header that names ML-DSA-65. -/
def plainHeader : Bytes := textEncode (js "\x7b\"alg\":\"ML-DSA-65\"\x7d")

theorem parse_plainHeader : Lib.Json.parse (textDecode plainHeader)
    = some (.object [(js "alg", .string (js "ML-DSA-65"))]) := by rfl

theorem plainToken_reaches :
    Jws.Reaches plainRuntime
      (.string (Jws.tokenOf plainHeader [1] (List.replicate 3309 7)))
      (.uint8Array (List.replicate 1952 7)) .undefined
      (Jws.signingInput (encodeUrl plainHeader) (encodeUrl [1])) := by
  have hsig : List.replicate 3309 (7 : UInt8) ≠ [] := by
    rw [ne_eq, List.replicate_eq_nil_iff]
    decide
  generalize hn : List.replicate 3309 (7 : UInt8) = signature at hsig
  have hlength : signature.length = 3309 := by
    rw [← hn, List.length_replicate]
  obtain ⟨hd, hobject⟩ := (@Jws.decodeSegments_string plainRuntime
    (encodeUrl plainHeader) (encodeUrl [1]) (encodeUrl signature)
    ⟨toValue plainRuntime (.object
      [(js "alg", .string (js "ML-DSA-65"))]), [1], signature⟩).mpr
      ⟨plainHeader, _, by decide, List.cons_ne_nil _ _, hsig, rfl, rfl, rfl,
        parse_plainHeader, rfl⟩
  exact ⟨_, _, _, _, _, js "ML-DSA-65", ⟨.mlDsa65, 1952, 4032, 3309⟩, _, rfl,
    rfl, Jws.splitOn_token _ _ _, hd, hobject, rfl, rfl, rfl, rfl, rfl, rfl,
    rfl, List.length_replicate, hlength, rfl⟩

/-- The two formats at their closest: a delivery with an empty body, whose
signed bytes are a number and a dot, and a token with a payload of one
byte. -/
theorem webhook_jws_separate_plain :
    textEncode (js "1.")
      ≠ Jws.signingInput (encodeUrl plainHeader) (encodeUrl [1]) :=
  webhook_jws_separate emptyDelivery_reaches plainToken_reaches

end KxcoPostQuantum
