/-
A bad header fails its own checks and nothing else.

Each header is read as a string or as `undefined`, so a value of any other
type is a header that is not there (`readDelivery_blank`), and past the
reading nothing throws: a check is reached only with strings in its hands.

# Two runs

What a verdict depends on is said of two deliveries: those that agree on
the headers a check reads, and on the rest of its inputs, agree on its
verdict, whatever the other headers are.
-/
import KxcoPostQuantum.Webhook.Proofs.RoundTrip

namespace KxcoPostQuantum.Webhook

open Signature (Backends)

variable {rt : Runtime} {hmacSha256 : Bytes → Bytes → Bytes}
  {backends : Backends} {now : ℕ} {d d' : Delivery} {r r' : Reading}
  {v v' : Verdict}

-- ============================================================= records

/-- A record of headers, of any values: only reading a member does not
throw. -/
def IsRecord (headers : JsVal) : Prop :=
  ∃ own inherited, headers = .object own inherited
    ∧ ∀ m ∈ own ++ inherited, ∀ e, m.2 ≠ .raises e

/-- A header value that is not a string, replaced by `undefined` if its
name is chosen. -/
def blankValue (chosen : JsString → Bool) (name : JsString) (v : JsVal) :
    JsVal :=
  if chosen name && v.string?.isNone then .undefined else v

/-- The chosen headers that are not strings replaced by `undefined`. -/
def blank (chosen : JsString → Bool) (headers : JsVal) : JsVal :=
  let blankAll (members : List (JsString × JsVal)) :=
    members.map fun m => (m.1, blankValue chosen m.1 m.2)
  match headers with
  | .object own inherited => .object (blankAll own) (blankAll inherited)
  | v => v

/-- A body, a message or a secret: text or bytes. -/
def IsText (v : JsVal) : Prop := ∃ bytes, Signature.toBytes v = .ok bytes

/-- A delivery as a receiver passes it on: any record of headers, the rest
of the types it is declared with. -/
structure Received (rt : Runtime) (d : Delivery) : Prop where
  headers : IsRecord d.headers
  rawBody : IsText d.rawBody
  hmacSecret : IsText d.hmacSecret
  pqPublicKey : ∃ key, d.pqPublicKey = .uint8Array key
  pinnedKid : ∃ kid, d.pinnedKid = .string kid
  windowSeconds : ∃ w, windowNumber rt d.windowSeconds = .ok w

/-- A member that is found is read. -/
theorem get_of_lookup {own inherited : List (JsString × JsVal)}
    {name : JsString} {v : JsVal}
    (h : (JsVal.lookup name own).or (JsVal.lookup name inherited) = some v)
    (hv : ∀ e, v ≠ .raises e) :
    (JsVal.object own inherited).get name = .ok v := by
  rw [JsVal.get, h]
  cases v with
  | raises e => exact absurd rfl (hv e)
  | _ => rfl

/-- One that is not is undefined. -/
theorem get_of_no_lookup {own inherited : List (JsString × JsVal)}
    {name : JsString}
    (h : (JsVal.lookup name own).or (JsVal.lookup name inherited) = none) :
    (JsVal.object own inherited).get name = .ok .undefined := by
  rw [JsVal.get, h]

/-- What stands in a member's place is a value. -/
theorem ne_raises_of_lookup {own inherited : List (JsString × JsVal)}
    (hvalues : ∀ m ∈ own ++ inherited, ∀ e, m.2 ≠ .raises e)
    {name : JsString} {v : JsVal}
    (h : (JsVal.lookup name own).or (JsVal.lookup name inherited) = some v)
    (e : JsError) : v ≠ .raises e := by
  rcases Option.or_eq_some_iff.mp h with hv | ⟨-, hv⟩
  · exact hvalues _ (List.mem_append_left _ (lookup_mem hv)) e
  · exact hvalues _ (List.mem_append_right _ (lookup_mem hv)) e

-- ======================================================= other values

/-- A member in a blanked record. -/
theorem lookup_blank (chosen : JsString → Bool) (name : JsString)
    (own : List (JsString × JsVal)) :
    JsVal.lookup name (own.map fun m => (m.1, blankValue chosen m.1 m.2))
      = (JsVal.lookup name own).map (blankValue chosen name) := by
  induction own with
  | nil => rfl
  | cons m own ih =>
      obtain ⟨name', v⟩ := m
      rw [List.map_cons, JsVal.lookup, JsVal.lookup, ih]
      split
      next h => rw [Option.map_some, h]
      next => rfl

/-- A value that is not a string is not a header. -/
theorem headerString_blankValue (chosen : JsString → Bool) (name : JsString)
    (v : JsVal) : headerString (blankValue chosen name v) = headerString v := by
  rw [blankValue]
  split
  next h =>
    have hnone := (Bool.and_eq_true_iff.mp h).2
    cases v with
    | string s => cases hnone
    | _ => rfl
  next => rfl

/-- Blanking a member does not make it throw. -/
theorem blankValue_ne_raises (chosen : JsString → Bool) (name : JsString)
    {v : JsVal} (hv : ∀ e, v ≠ .raises e) (e : JsError) :
    blankValue chosen name v ≠ .raises e := by
  rw [blankValue]
  split
  next =>
    intro h
    cases h
  next => exact hv e

/-- A header is read alike of a blanked record. Blanking replaces a value by
one that `headerString` makes the same of, and it leaves the names. -/
theorem get_blank (chosen : JsString → Bool) {headers : JsVal}
    (h : IsRecord headers) (name : JsString) :
    ∃ v v', headers.get name = .ok v
      ∧ (blank chosen headers).get name = .ok v'
      ∧ headerString v' = headerString v := by
  obtain ⟨own, inherited, rfl, hvalues⟩ := h
  have hblank : (JsVal.lookup name (own.map fun m =>
        (m.1, blankValue chosen m.1 m.2))).or
      (JsVal.lookup name (inherited.map fun m =>
        (m.1, blankValue chosen m.1 m.2)))
      = ((JsVal.lookup name own).or (JsVal.lookup name inherited)).map
        (blankValue chosen name) := by
    rw [lookup_blank, lookup_blank, ← Option.map_or]
  cases hmember : (JsVal.lookup name own).or (JsVal.lookup name inherited)
    with
  | none =>
      rw [hmember] at hblank
      exact ⟨_, _, get_of_no_lookup hmember, get_of_no_lookup hblank, rfl⟩
  | some v =>
      rw [hmember] at hblank
      have hv := ne_raises_of_lookup hvalues hmember
      exact ⟨v, _, get_of_lookup hmember hv,
        get_of_lookup hblank (blankValue_ne_raises chosen name hv),
        headerString_blankValue chosen name v⟩

/-- **The reading is the same** when a header that is not a string is not
there. -/
theorem readDelivery_blank (chosen : JsString → Bool)
    (h : IsRecord d.headers) :
    readDelivery rt now { d with headers := blank chosen d.headers }
      = readDelivery rt now d := by
  obtain ⟨ts, ts', hts, hts', htsEq⟩ :=
    get_blank chosen h (js "x-kxco-timestamp")
  obtain ⟨mac, mac', hmac, hmac', hmacEq⟩ :=
    get_blank chosen h (js "x-kxco-signature")
  obtain ⟨sig, sig', hsig, hsig', hsigEq⟩ :=
    get_blank chosen h (js "x-kxco-pq-signature")
  obtain ⟨kid, kid', hkid, hkid', hkidEq⟩ :=
    get_blank chosen h (js "x-kxco-pq-kid")
  rw [readDelivery, readDelivery]
  simp only [bind, Except.bind, hts, hts', hmac, hmac', hsig, hsig', hkid,
    hkid', htsEq, hmacEq, hsigEq, hkidEq]

/-- The result is the same whichever headers that are no strings are
blanked. -/
theorem verifyDelivery_blank (chosen : JsString → Bool)
    (h : IsRecord d.headers) :
    verifyDelivery rt hmacSha256 backends now
        { d with headers := blank chosen d.headers }
      = verifyDelivery rt hmacSha256 backends now d := by
  rw [verifyDelivery, verifyDelivery, readDelivery_blank chosen h]
  rfl

-- ============================================================ no throw

/-- A reading returns: headers that are a record can be read, and the window
of a delivery that was received is a number or can be made one. -/
theorem readDelivery_returns (h : Received rt d) :
    ∃ r, readDelivery rt now d = .ok r := by
  obtain ⟨ts, -, hts, -⟩ := get_blank (fun _ => false) h.headers
    (js "x-kxco-timestamp")
  obtain ⟨mac, -, hmac, -⟩ := get_blank (fun _ => false) h.headers
    (js "x-kxco-signature")
  obtain ⟨sig, -, hsig, -⟩ := get_blank (fun _ => false) h.headers
    (js "x-kxco-pq-signature")
  obtain ⟨kid, -, hkid, -⟩ := get_blank (fun _ => false) h.headers
    (js "x-kxco-pq-kid")
  obtain ⟨w, hw⟩ := h.windowSeconds
  have hcheck : ∃ ok, checkTimestamp rt now (headerString ts) d.windowSeconds
      = .ok ok := by
    rw [checkTimestamp_eq, hw]
    split
    next => exact ⟨_, rfl⟩
    next => exact ⟨_, rfl⟩
  obtain ⟨ok, hok⟩ := hcheck
  rw [readDelivery]
  simp only [bind, Except.bind, hts, hmac, hsig, hkid, hok]
  exact ⟨_, rfl⟩

/-- A header that was read and is not empty is a string. -/
theorem string_of_truthy {v : JsVal} (h : (headerString v).truthy = true) :
    ∃ s, headerString v = .string s := by
  cases v with
  | string s => exact ⟨s, rfl⟩
  | _ => cases h

/-- Where a signature is checked there is an envelope. -/
theorem envelope_returns (h : IsText d.rawBody)
    (hr : readDelivery rt now d = .ok r) (hok : r.timestampOk = true) :
    ∃ message, envelope rt r.ts d.rawBody = .ok message := by
  obtain ⟨ts, hts, -⟩ := timely_of_reading hr hok
  obtain ⟨body, hbody⟩ := h
  rw [envelope, hts, hbody]
  exact ⟨_, rfl⟩

/-- The check of the HMAC returns. -/
theorem hmacVerdict_returns (h : Received rt d)
    (hr : readDelivery rt now d = .ok r) :
    ∃ ok, hmacVerdict rt hmacSha256 d r = .ok ok := by
  obtain ⟨-, ⟨mac, -, hmac⟩, -⟩ := readDelivery_ok hr
  obtain ⟨key, hkey⟩ := h.hmacSecret
  rw [hmacVerdict]
  split
  next hreached =>
    obtain ⟨message, hmessage⟩ := envelope_returns h.rawBody hr
      (timestampOk_of_reached (Or.inl hreached))
    have htruthy := (Bool.and_eq_true_iff.mp
      (Bool.and_eq_true_iff.mp hreached).1).2
    rw [hmac] at htruthy
    obtain ⟨s, hs⟩ := string_of_truthy htruthy
    rw [verifyHmac, hmacHex, hmac, hs]
    simp only [bind, Except.bind, hmessage, hkey]
    exact ⟨_, rfl⟩
  next => exact ⟨_, rfl⟩

/-- The check of the signature returns. Where it is reached the timestamp is
one and the body can be read, so there is an envelope; and `verify` throws
on no signature. -/
theorem pqVerdict_returns (h : Received rt d)
    (hr : readDelivery rt now d = .ok r) :
    ∃ ok, pqVerdict rt backends d r = .ok ok := by
  obtain ⟨-, -, ⟨sig, -, hsig⟩, -⟩ := readDelivery_ok hr
  obtain ⟨key, hkey⟩ := h.pqPublicKey
  rw [pqVerdict]
  split
  next hreached =>
    obtain ⟨message, hmessage⟩ := envelope_returns h.rawBody hr
      (timestampOk_of_reached (Or.inr hreached))
    have htruthy := (Bool.and_eq_true_iff.mp
      (Bool.and_eq_true_iff.mp (Bool.and_eq_true_iff.mp hreached).1).1).2
    rw [hsig] at htruthy
    obtain ⟨s, hs⟩ := string_of_truthy htruthy
    rw [verifyPq_eq, hkey, hsig, hs, pqCheck_bytes]
    generalize (setOfLength key.length).bind _ = check
    cases check with
    | none => exact ⟨_, rfl⟩
    | some check =>
        have hverify : verifyEnvelope rt backends check.1 (.uint8Array key)
            r.ts d.rawBody check.2
            = Signature.verify rt backends check.1 (.uint8Array key)
              (.uint8Array message) check.2 .undefined := by
          rw [verifyEnvelope, hmessage]
          rfl
        exact ⟨_, hverify.trans
          (Signature.verify_ok Signature.normalizeContext_undefined)⟩
  next => exact ⟨_, rfl⟩

/-- **No throw**, whatever the headers hold. -/
theorem verifyDelivery_returns (h : Received rt d) :
    ∃ v, verifyDelivery rt hmacSha256 backends now d = .ok v := by
  obtain ⟨r, hr⟩ := @readDelivery_returns rt now d h
  obtain ⟨hmacOk, hhmac⟩ := @hmacVerdict_returns rt hmacSha256 now d r h hr
  obtain ⟨pqOk, hpq⟩ := @pqVerdict_returns rt backends now d r h hr
  rw [verifyDelivery]
  simp only [bind, Except.bind, hr, hhmac, hpq]
  exact ⟨_, rfl⟩

-- ======================================================= dependencies

/-- What a verdict is made of. -/
theorem verifyDelivery_parts
    (h : verifyDelivery rt hmacSha256 backends now d = .ok v) :
    ∃ r, readDelivery rt now d = .ok r
      ∧ hmacVerdict rt hmacSha256 d r = .ok v.hmacOk
      ∧ pqVerdict rt backends d r = .ok v.pqOk
      ∧ v.timestampOk = r.timestampOk ∧ v.kidOk = r.kidOk := by
  simp only [verifyDelivery, bind_eq_ok, pure_eq_ok] at h
  obtain ⟨r, hr, hmacOk, hhmac, pqOk, hpq, rfl⟩ := h
  exact ⟨r, hr, hhmac, hpq, rfl, rfl⟩

/-- Two deliveries carry one value under a header name. -/
def SameHeader (name : JsString) (d d' : Delivery) : Prop :=
  d'.headers.get name = d.headers.get name

section

variable (hr : readDelivery rt now d = .ok r)
  (hr' : readDelivery rt now d' = .ok r')

include hr hr'

/-- The check of the time depends on its header and the window alone. -/
theorem timestampOk_congr (hwindow : d'.windowSeconds = d.windowSeconds)
    (hts : SameHeader (js "x-kxco-timestamp") d d') :
    r'.ts = r.ts ∧ r'.timestampOk = r.timestampOk := by
  obtain ⟨htsRead, -, -, -, hcheck⟩ := readDelivery_ok hr
  obtain ⟨htsRead', -, -, -, hcheck'⟩ := readDelivery_ok hr'
  have heq := reading_congr hts htsRead htsRead'
  rw [heq, hwindow, hcheck] at hcheck'
  exact ⟨heq, (Except.ok.inj hcheck').symm⟩

/-- The check of the key's name depends on its header and the pin alone. -/
theorem kidOk_congr (hpin : d'.pinnedKid = d.pinnedKid)
    (hkid : SameHeader (js "x-kxco-pq-kid") d d') : r'.kidOk = r.kidOk := by
  obtain ⟨-, -, -, ⟨kid, hget, hok⟩, -⟩ := readDelivery_ok hr
  obtain ⟨-, -, -, ⟨kid', hget', hok'⟩, -⟩ := readDelivery_ok hr'
  cases hget.symm.trans (hkid.symm.trans hget')
  rw [hok, hok', hpin]

/-- The check of the HMAC depends on two headers, the body and the
secret. -/
theorem hmacVerdict_congr (hwindow : d'.windowSeconds = d.windowSeconds)
    (hts : SameHeader (js "x-kxco-timestamp") d d')
    (hmac : SameHeader (js "x-kxco-signature") d d')
    (hbody : d'.rawBody = d.rawBody) (hsecret : d'.hmacSecret = d.hmacSecret) :
    hmacVerdict rt hmacSha256 d' r' = hmacVerdict rt hmacSha256 d r := by
  obtain ⟨hts, hok⟩ := timestampOk_congr hr hr' hwindow hts
  have hsig := reading_congr hmac (readDelivery_ok hr).2.1
    (readDelivery_ok hr').2.1
  rw [hmacVerdict, hmacVerdict, hmacReached, hmacReached, hts, hok, hsig,
    hbody, hsecret]

/-- The check of the signature depends on three headers, the body, the key
and the pin. -/
theorem pqVerdict_congr (hwindow : d'.windowSeconds = d.windowSeconds)
    (hts : SameHeader (js "x-kxco-timestamp") d d')
    (hsig : SameHeader (js "x-kxco-pq-signature") d d')
    (hkid : SameHeader (js "x-kxco-pq-kid") d d')
    (hbody : d'.rawBody = d.rawBody)
    (hkey : d'.pqPublicKey = d.pqPublicKey)
    (hpin : d'.pinnedKid = d.pinnedKid) :
    pqVerdict rt backends d' r' = pqVerdict rt backends d r := by
  obtain ⟨hts, hok⟩ := timestampOk_congr hr hr' hwindow hts
  have hkidOk := kidOk_congr hr hr' hpin hkid
  have hsig := reading_congr hsig (readDelivery_ok hr).2.2.1
    (readDelivery_ok hr').2.2.1
  rw [pqVerdict, pqVerdict, pqReached, pqReached, hts, hok, hkidOk, hsig,
    hbody, hkey]

end

/-- **What each verdict depends on**, of two deliveries at one clock and
window. -/
structure Isolated (d d' : Delivery) (v v' : Verdict) : Prop where
  timestampOk : SameHeader (js "x-kxco-timestamp") d d' →
    v'.timestampOk = v.timestampOk
  kidOk : SameHeader (js "x-kxco-pq-kid") d d' →
    d'.pinnedKid = d.pinnedKid → v'.kidOk = v.kidOk
  hmacOk : SameHeader (js "x-kxco-timestamp") d d' →
    SameHeader (js "x-kxco-signature") d d' → d'.rawBody = d.rawBody →
    d'.hmacSecret = d.hmacSecret → v'.hmacOk = v.hmacOk
  pqOk : SameHeader (js "x-kxco-timestamp") d d' →
    SameHeader (js "x-kxco-pq-signature") d d' →
    SameHeader (js "x-kxco-pq-kid") d d' → d'.rawBody = d.rawBody →
    d'.pqPublicKey = d.pqPublicKey → d'.pinnedKid = d.pinnedKid →
    v'.pqOk = v.pqOk

/-- So two deliveries that differ elsewhere agree in each check: each
verdict is a function of the readings that belong to it, and those are the
same. -/
theorem isolated (hwindow : d'.windowSeconds = d.windowSeconds)
    (h : verifyDelivery rt hmacSha256 backends now d = .ok v)
    (h' : verifyDelivery rt hmacSha256 backends now d' = .ok v') :
    Isolated d d' v v' := by
  obtain ⟨r, hr, hhmac, hpq, hok, hkidOk⟩ := verifyDelivery_parts h
  obtain ⟨r', hr', hhmac', hpq', hok', hkidOk'⟩ := verifyDelivery_parts h'
  constructor
  · intro hts
    rw [hok, hok', (timestampOk_congr hr hr' hwindow hts).2]
  · intro hkid hpin
    rw [hkidOk, hkidOk', kidOk_congr hr hr' hpin hkid]
  · intro hts hmac hbody hsecret
    rw [hmacVerdict_congr hr hr' hwindow hts hmac hbody hsecret, hhmac]
      at hhmac'
    exact (Except.ok.inj hhmac').symm
  · intro hts hsig hkid hbody hkey hpin
    rw [pqVerdict_congr hr hr' hwindow hts hsig hkid hbody hkey hpin, hpq]
      at hpq'
    exact (Except.ok.inj hpq').symm

/-- A signature verdict is true of a timely delivery only, and of a pinned
kid. -/
theorem verdict_implies
    (h : verifyDelivery rt hmacSha256 backends now d = .ok v) :
    (v.hmacOk = true → v.timestampOk = true)
      ∧ (v.pqOk = some true → v.timestampOk = true ∧ v.kidOk = true) := by
  obtain ⟨r, hr, hhmac, hpq, hok, hkidOk⟩ := verifyDelivery_parts h
  constructor
  · intro hv
    rw [hmacVerdict] at hhmac
    split at hhmac
    next hreached => exact hok.trans (timestampOk_of_reached (Or.inl hreached))
    next =>
      rw [hv] at hhmac
      cases hhmac
  · intro hv
    rw [pqVerdict] at hpq
    split at hpq
    next hreached =>
      exact ⟨hok.trans (timestampOk_of_reached (Or.inr hreached)),
        hkidOk.trans (Bool.and_eq_true_iff.mp hreached).2⟩
    next =>
      rw [hv] at hpq
      cases hpq

/-- **Bad headers are isolated.** A delivery whose headers are any values
is answered without a throw; a header that is not a string counts as
missing; each verdict depends on its own headers; and no signature is
accepted past its time or against the pin. -/
theorem verifyDelivery_isolates (hd : Received rt d) :
    (∃ v, verifyDelivery rt hmacSha256 backends now d = .ok v)
      ∧ (∀ chosen, verifyDelivery rt hmacSha256 backends now
          { d with headers := blank chosen d.headers }
        = verifyDelivery rt hmacSha256 backends now d)
      ∧ ∀ v, verifyDelivery rt hmacSha256 backends now d = .ok v →
        (∀ d' v', d'.windowSeconds = d.windowSeconds →
          verifyDelivery rt hmacSha256 backends now d' = .ok v' →
          Isolated d d' v v')
        ∧ (v.hmacOk = true ∨ v.pqOk = some true → v.timestampOk = true)
        ∧ (v.pqOk = some true → v.kidOk = true) := by
  refine ⟨verifyDelivery_returns hd,
    fun chosen => verifyDelivery_blank chosen hd.headers, ?_⟩
  intro v h
  obtain ⟨hhmac, hpq⟩ := verdict_implies h
  refine ⟨fun d' v' hwindow h' => isolated hwindow h h', ?_,
    fun hok => (hpq hok).2⟩
  intro hok
  rcases hok with hok | hok
  · exact hhmac hok
  · exact (hpq hok).1

/-- A delivery whose timestamp arrived twice and whose HMAC is a number. -/
def strayDelivery : Delivery where
  headers := .object [
    (js "x-kxco-timestamp", .array [.string (js "1"), .string (js "2")]),
    (js "x-kxco-signature", .number (.finite 5)),
    (js "x-kxco-pq-kid", .string (js "kid"))] []
  rawBody := .string (js "body")
  hmacSecret := .string (js "secret")
  pqPublicKey := .uint8Array []
  pinnedKid := .string (js "kid")
  windowSeconds := .undefined

/-- The delivery is one that can be received. -/
theorem strayDelivery_received : Received plainRuntime strayDelivery where
  headers := by
    refine ⟨_, _, rfl, fun m hm e => ?_⟩
    simp only [List.append_nil, List.mem_cons, List.not_mem_nil, or_false]
      at hm
    rcases hm with rfl | rfl | rfl
    all_goals
      intro h
      cases h
  rawBody := ⟨_, rfl⟩
  hmacSecret := ⟨_, rfl⟩
  pqPublicKey := ⟨_, rfl⟩
  pinnedKid := ⟨_, rfl⟩
  windowSeconds := ⟨_, rfl⟩

/-- Its verdicts do not affect one another: the delivery gets one, and
whatever headers are blanked the checks that do not read them say the
same. -/
theorem verifyDelivery_isolates_stray :
    (∃ v, verifyDelivery plainRuntime (fun _ _ => []) ⟨none, lenientNoble⟩ 750
        strayDelivery = .ok v)
      ∧ ∀ chosen, verifyDelivery plainRuntime (fun _ _ => [])
          ⟨none, lenientNoble⟩ 750
          { strayDelivery with headers := blank chosen strayDelivery.headers }
        = verifyDelivery plainRuntime (fun _ _ => []) ⟨none, lenientNoble⟩ 750
          strayDelivery := by
  obtain ⟨hreturns, hblank, -⟩ := @verifyDelivery_isolates plainRuntime
    (fun _ _ => []) ⟨none, lenientNoble⟩ 750 _ strayDelivery_received
  exact ⟨hreturns, hblank⟩

end KxcoPostQuantum.Webhook
