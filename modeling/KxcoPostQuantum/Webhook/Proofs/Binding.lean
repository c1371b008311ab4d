/-
What an accepted delivery commits its sender to.

The signed bytes have one timestamp and one body (`message_inj`), so a
second delivery accepted under the same secret and signature header says
the same, or its bytes are a second message for the primitive itself.

# Acceptance

`hmac_accepted` and `pq_accepted` say what a true verdict has compared.
`pqCheck` is the part of `verifyPq` that does not depend on the envelope:
the set and the signature a header stands for under a key.
-/
import KxcoPostQuantum.Lib.ConstantTime
import KxcoPostQuantum.Webhook.Proofs.Timestamp

namespace KxcoPostQuantum

/-- The hexadecimal text determines the bytes. -/
theorem bytesToHex_inj {x y : Bytes} (h : bytesToHex x = bytesToHex y) :
    x = y := by
  have hpairs := congrArg hexPairs h
  rw [hexPairs_bytesToHex, hexPairs_bytesToHex] at hpairs
  exact Option.some.inj hpairs

namespace Webhook

open Lib.Utf8
open Signature (SignatureSet Backends)

variable {rt : Runtime} {hmacSha256 : Bytes → Bytes → Bytes}
  {backends : Backends} {now : Nat} {d : Delivery} {v : Verdict}

-- ========================================================= acceptance

theorem constTimeEqualStrings_iff {a b : JsString} :
    constTimeEqualStrings a b = true ↔ a = b := by
  rw [constTimeEqualStrings]
  exact Lib.ConstantTime.compared_iff decide_eq_true_iff

/-- What an HMAC header is compared as. -/
def givenHmac (sigHeader : JsString) : JsString :=
  if startsWith sigHeader (js "sha256=") then sigHeader
  else js "sha256=" ++ sigHeader

/-- What a true `hmacOk` has compared: the header with the code, under the
secret, of the envelope that the delivery reaches. Every step in front of
the comparison has returned. -/
theorem hmac_accepted
    (h : verifyDelivery rt hmacSha256 backends now d = .ok v)
    (hok : v.hmacOk = true) :
    ∃ r key message s, readDelivery rt now d = .ok r
      ∧ hmacReached d r = true ∧ envelope rt r.ts d.rawBody = .ok message
      ∧ Signature.toBytes d.hmacSecret = .ok key ∧ r.sigHmac = .string s
      ∧ js "sha256=" ++ bytesToHex (hmacSha256 key message)
        = givenHmac s := by
  simp only [verifyDelivery, bind_eq_ok, pure_eq_ok] at h
  obtain ⟨r, hr, hmacOk, hhmac, pqOk, -, rfl⟩ := h
  obtain rfl : hmacOk = true := hok
  rw [hmacVerdict] at hhmac
  split at hhmac
  next hreached =>
    simp only [verifyHmac, hmacHex, bind_eq_ok, pure_eq_ok] at hhmac
    obtain ⟨_, ⟨message, hmessage, key, hkey, rfl⟩, hcompare⟩ := hhmac
    cases hs : r.sigHmac with
    | string s =>
        rw [hs] at hcompare
        exact ⟨r, key, message, s, hr, hreached, hmessage, hkey, hs,
          constTimeEqualStrings_iff.mp (pure_eq_ok.mp hcompare)⟩
    | _ =>
        rw [hs] at hcompare
        cases hcompare
  next => cases hhmac

/-- The set and the signature a header stands for under a key; none where
the key or the header is of no set. -/
def pqCheck (publicKey sigHeader : JsVal) :
    Except JsError (Option (SignatureSet × JsVal)) := do
  let length ← publicKey.length
  let is87 := length.strictEquals (.number (.finite mlDsa87PublicKeyBytes))
  let is65 := length.strictEquals (.number (.finite mlDsa65PublicKeyBytes))
  if ¬is87 ∧ ¬is65 then return none
  else
    let set := if is87 then mlDsa87 else mlDsa65
    match sigHeader with
    | .string s =>
        if startsWith s set.headerPrefix then
          return some (set.set, .string (s.drop set.headerPrefix.length))
        else if is87 then return none
        else return some (set.set, sigHeader)
    | _ => throw notString

/-- A header is read first, and the envelope is verified then. What the
header has to be follows from the length of the key, and if it is not that,
nothing is verified. -/
theorem verifyPq_eq (publicKey timestamp rawBody sigHeader : JsVal) :
    verifyPq rt backends publicKey timestamp rawBody sigHeader
      = pqCheck publicKey sigHeader >>= fun check =>
        check.elim (pure (some false)) fun check =>
          verifyEnvelope rt backends check.1 publicKey timestamp rawBody
            check.2 := by
  rw [verifyPq, pqCheck]
  cases publicKey.length with
  | error e => rfl
  | ok length =>
      simp only [bind, Except.bind, pure, Except.pure]
      generalize length.strictEquals
        (.number (.finite mlDsa87PublicKeyBytes)) = is87
      generalize length.strictEquals
        (.number (.finite mlDsa65PublicKeyBytes)) = is65
      cases sigHeader with
      | string s =>
          cases is87 with
          | true =>
              simp only [not_true_eq_false, false_and, if_true, if_false]
              split <;> rfl
          | false =>
              cases is65 with
              | true =>
                  simp only [not_true_eq_false, and_false, if_false,
                    Bool.false_eq_true]
                  split <;> rfl
              | false => rfl
      | _ => split <;> rfl

/-- What a true `pqOk` has verified: a signature that the header carries, by
the key's own set, over the envelope that the delivery reaches. -/
theorem pq_accepted
    (h : verifyDelivery rt hmacSha256 backends now d = .ok v)
    (hok : v.pqOk = some true) :
    ∃ r message set signature, readDelivery rt now d = .ok r
      ∧ pqReached d r = true ∧ envelope rt r.ts d.rawBody = .ok message
      ∧ pqCheck d.pqPublicKey r.sigPq = .ok (some (set, signature))
      ∧ Signature.verify rt backends set d.pqPublicKey (.uint8Array message)
        signature .undefined = .ok (some true) := by
  simp only [verifyDelivery, bind_eq_ok, pure_eq_ok] at h
  obtain ⟨r, hr, hmacOk, -, pqOk, hpq, rfl⟩ := h
  obtain rfl : pqOk = some true := hok
  rw [pqVerdict] at hpq
  split at hpq
  next hreached =>
    rw [verifyPq_eq] at hpq
    obtain ⟨check, hcheck, hverify⟩ := bind_eq_ok.mp hpq
    cases check with
    | none => cases hverify
    | some check =>
        obtain ⟨message, hmessage, hverify⟩ := bind_eq_ok.mp hverify
        exact ⟨r, message, check.1, check.2, hr, hreached, hmessage, hcheck,
          hverify⟩
  next => cases hpq

-- ============================================================ binding

/-- A delivery carries a timestamp and a body. -/
def Says (d : Delivery) (ts : JsString) (body : Bytes) : Prop :=
  d.headers.get (js "x-kxco-timestamp") = .ok (.string ts)
    ∧ Signature.toBytes d.rawBody = .ok body

/-- Two checks over the same bytes are of one timestamp and one body. -/
theorem Reaches.says {rt rt' : Runtime} {now now' : Nat} {d d' : Delivery}
    {ts : JsString} {body message : Bytes} (hts : Timely rt now d ts)
    (hmessage : message = textEncode (ts ++ js ".") ++ body)
    (h : Reaches rt' now' d' message) : Says d' ts body := by
  obtain ⟨ts', body', hts', hbody', hsame⟩ := h.message
  obtain ⟨rfl, rfl⟩ := message_inj hts.digits hts'.digits
    (hmessage.symm.trans hsame)
  exact ⟨hts'.header, hbody'⟩

/-- Two deliveries with the same signature headers, accepted under the same
secret or key, say the same, unless the message the second is checked over
is another one with the same MAC, or one for which the same signature
verifies too. -/
structure Binds (rt : Runtime) (hmacSha256 : Bytes → Bytes → Bytes)
    (backends : Backends) (d : Delivery) (v : Verdict) (ts : JsString)
    (body message : Bytes) (now' : Nat) (d' : Delivery) (v' : Verdict) :
    Prop where
  hmac : v.hmacOk = true → v'.hmacOk = true →
    d'.hmacSecret = d.hmacSecret →
    d'.headers.get (js "x-kxco-signature")
      = d.headers.get (js "x-kxco-signature") →
    Says d' ts body ∨ ∃ key message', Signature.toBytes d.hmacSecret = .ok key
      ∧ Reaches rt now' d' message' ∧ message' ≠ message
      ∧ hmacSha256 key message' = hmacSha256 key message
  pq : v.pqOk = some true → v'.pqOk = some true →
    d'.pqPublicKey = d.pqPublicKey →
    d'.headers.get (js "x-kxco-pq-signature")
      = d.headers.get (js "x-kxco-pq-signature") →
    Says d' ts body ∨ ∃ set signature message', Reaches rt now' d' message'
      ∧ message' ≠ message
      ∧ Signature.verify rt backends set d.pqPublicKey (.uint8Array message)
        signature .undefined = .ok (some true)
      ∧ Signature.verify rt backends set d.pqPublicKey (.uint8Array message')
        signature .undefined = .ok (some true)

/-- A header of one text is read as one text. -/
theorem reading_congr {name : JsString} {d d' : Delivery} {a a' : JsVal}
    (hname : d'.headers.get name = d.headers.get name)
    (h : ∃ v, d.headers.get name = .ok v ∧ a = headerString v)
    (h' : ∃ v, d'.headers.get name = .ok v ∧ a' = headerString v) :
    a' = a := by
  obtain ⟨v, hv, rfl⟩ := h
  obtain ⟨v', hv', rfl⟩ := h'
  cases hv.symm.trans (hname.symm.trans hv')
  rfl

/-- A second accepted delivery says the same or breaks a primitive. Field by
field: where the header is the same so is what it is a code or a signature
of, and then either the messages are one, or two messages have one code. -/
theorem binds_of_accepted {ts : JsString} {body message : Bytes}
    {now' : Nat} {d' : Delivery} {v' : Verdict}
    (h : verifyDelivery rt hmacSha256 backends now d = .ok v)
    (hunique : ∀ message', Reaches rt now d message' → message' = message)
    (hsaid : ∀ {d'}, Reaches rt now' d' message → Says d' ts body)
    (h' : verifyDelivery rt hmacSha256 backends now' d' = .ok v') :
    Binds rt hmacSha256 backends d v ts body message now' d' v' where
  hmac hok hok' hsecret hheader := by
    obtain ⟨r, key, m, s, hr, hreached, hm, hkey, hs, hcompare⟩ :=
      hmac_accepted h hok
    obtain ⟨r', key', m', s', hr', hreached', hm', hkey', hs', hcompare'⟩ :=
      hmac_accepted h' hok'
    obtain rfl := hunique m ⟨r, hr, Or.inl hreached, hm⟩
    have hreaches' : Reaches rt now' d' m' :=
      ⟨r', hr', Or.inl hreached', hm'⟩
    have hsame := reading_congr hheader (readDelivery_ok hr).2.1
      (readDelivery_ok hr').2.1
    rw [hs, hs'] at hsame
    cases hsame
    rw [hsecret, hkey] at hkey'
    cases hkey'
    by_cases heq : m' = m
    · exact Or.inl (hsaid (heq ▸ hreaches'))
    · have hhex := List.append_cancel_left (hcompare'.trans hcompare.symm)
      exact Or.inr ⟨key, m', hkey, hreaches', heq, bytesToHex_inj hhex⟩
  pq hok hok' hkey hheader := by
    obtain ⟨r, m, set, signature, hr, hreached, hm, hcheck, hverify⟩ :=
      pq_accepted h hok
    obtain ⟨r', m', set', signature', hr', hreached', hm', hcheck',
      hverify'⟩ := pq_accepted h' hok'
    obtain rfl := hunique m ⟨r, hr, Or.inr hreached, hm⟩
    have hreaches' : Reaches rt now' d' m' :=
      ⟨r', hr', Or.inr hreached', hm'⟩
    have hsame := reading_congr hheader (readDelivery_ok hr).2.2.1
      (readDelivery_ok hr').2.2.1
    rw [hsame, hkey, hcheck] at hcheck'
    cases hcheck'
    by_cases heq : m' = m
    · exact Or.inl (hsaid (heq ▸ hreaches'))
    · exact Or.inr ⟨set, signature, m', hreaches', heq, hverify,
        hkey ▸ hverify'⟩

/-- A delivery with a true verdict has got to a signature check. -/
theorem reaches_of_accepted
    (h : verifyDelivery rt hmacSha256 backends now d = .ok v)
    (hok : v.hmacOk = true ∨ v.pqOk = some true) :
    ∃ message, Reaches rt now d message := by
  rcases hok with hok | hok
  · obtain ⟨r, -, message, -, hr, hreached, hmessage, -⟩ :=
      hmac_accepted h hok
    exact ⟨message, r, hr, Or.inl hreached, hmessage⟩
  · obtain ⟨r, message, -, -, hr, hreached, hmessage, -⟩ := pq_accepted h hok
    exact ⟨message, r, hr, Or.inr hreached, hmessage⟩

/-- **Binding.** An accepted delivery has a timestamp of decimal digits
within the window, and the bytes its signatures are checked over have no
other timestamp and no other body, in whichever delivery they are
checked. -/
theorem verifyDelivery_binds
    (h : verifyDelivery rt hmacSha256 backends now d = .ok v)
    (hok : v.hmacOk = true ∨ v.pqOk = some true) :
    ∃ ts body message, Timely rt now d ts ∧ Says d ts body
      ∧ envelope rt (.string ts) d.rawBody = .ok message
      ∧ (∀ rt' now' d', Reaches rt' now' d' message → Says d' ts body)
      ∧ ∀ now' d' v', verifyDelivery rt hmacSha256 backends now' d' = .ok v' →
        Binds rt hmacSha256 backends d v ts body message now' d' v' := by
  obtain ⟨message, hreaches⟩ := reaches_of_accepted h hok
  obtain ⟨ts, body, hts, hbody, hmessage⟩ := hreaches.message
  have hsaid : ∀ rt' now' d', Reaches rt' now' d' message →
      Says d' ts body := fun _ _ _ h' => h'.says hts hmessage
  have hunique : ∀ message', Reaches rt now d message' →
      message' = message := by
    intro message' h'
    obtain ⟨ts', body', hts', hbody', rfl⟩ := h'.message
    cases hts.header.symm.trans hts'.header
    cases hbody.symm.trans hbody'
    exact hmessage.symm
  refine ⟨ts, body, message, hts, ⟨hts.header, hbody⟩, ?_, hsaid, ?_⟩
  · rw [envelope, hbody, hmessage]
    rfl
  · intro now' d' v' h'
    exact binds_of_accepted h hunique (hsaid rt now' _) h'

/-- A noble that accepts every signature. -/
def lenientNoble : Signature.Noble where
  sign _ _ _ _ := .ok []
  verify _ _ _ _ _ := .ok true

/-- A delivery with a timestamp of 2^53 - 1, and a window one second
shorter. -/
def wideDelivery : Delivery where
  headers := .object [(js "x-kxco-timestamp", .string (js "9007199254740991")),
    (js "x-kxco-signature", .string (js "sha256="))] []
  rawBody := .string []
  hmacSecret := .string (js "secret")
  pqPublicKey := .undefined
  pinnedKid := .undefined
  windowSeconds := .number (.finite 9007199254740990)

theorem wideDelivery_accepted :
    verifyDelivery plainRuntime (fun _ _ => []) ⟨none, lenientNoble⟩ 750
      wideDelivery = .ok ⟨true, some false, true, true⟩ := by
  have hcheck : checkTimestamp plainRuntime 750
      (.string (js "9007199254740991"))
      (.number (.finite 9007199254740990)) = .ok true := by decide +kernel
  have hread : readDelivery plainRuntime 750 wideDelivery
      = (checkTimestamp plainRuntime 750 (.string (js "9007199254740991"))
        (.number (.finite 9007199254740990)) >>= fun ok => pure
          ⟨.string (js "9007199254740991"), .string (js "sha256="), .undefined,
            ok, true⟩) := by
    simp only [readDelivery, wideDelivery]
    rfl
  rw [verifyDelivery, hread, hcheck]
  rfl

/-- The delivery at its own signature, which the check of the HMAC accepts.
It binds whatever is delivered besides. -/
theorem verifyDelivery_binds_wide :
    ∃ ts body message, Timely plainRuntime 750 wideDelivery ts
      ∧ Says wideDelivery ts body
      ∧ envelope plainRuntime (.string ts) wideDelivery.rawBody = .ok message
      ∧ (∀ rt' now' d', Reaches rt' now' d' message → Says d' ts body)
      ∧ ∀ now' d' v',
        verifyDelivery plainRuntime (fun _ _ => []) ⟨none, lenientNoble⟩ now'
          d' = .ok v' →
        Binds plainRuntime (fun _ _ => []) ⟨none, lenientNoble⟩ wideDelivery
          ⟨true, some false, true, true⟩ ts body message now' d' v' :=
  verifyDelivery_binds wideDelivery_accepted (Or.inl rfl)

/-- The integer is a quarter of a second outside the window: the
difference has no room for the quarter and is rounded. -/
theorem window_not_exact :
    ∃ v, verifyDelivery plainRuntime (fun _ _ => []) ⟨none, lenientNoble⟩ 750
        wideDelivery = .ok v
      ∧ v.hmacOk = true
      ∧ wideDelivery.headers.get (js "x-kxco-timestamp")
        = .ok (.string (js "9007199254740991"))
      ∧ wideDelivery.windowSeconds = .number (.finite 9007199254740990)
      ∧ ¬|(750 / 1000 : ℚ) - decimalValue (js "9007199254740991")|
        ≤ 9007199254740990 := by
  refine ⟨_, wideDelivery_accepted, rfl, rfl, rfl, ?_⟩
  decide +kernel

end Webhook

end KxcoPostQuantum
