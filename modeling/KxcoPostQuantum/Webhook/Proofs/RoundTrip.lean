/-
`signDelivery` then `verifyDelivery`.

What the sender computes the receiver computes again, from the header
and the body it was sent: the HMAC and the envelope are the same, and the
signature is the header's text behind the set's name. The sender reads
the set off its secret key and the receiver off its public key; the two
names differ in a unit, so under a key of the other set the header is
refused or is taken for bare hex, which it is not.

# The window

The sender's clock is cut to whole seconds and the receiver's is not. A
whole number of seconds is exact in binary64, the receiver's clock and
the difference are rounded. A difference that is within the window stays
there, since the window is a number of the language (`JsNumber.round_le`);
but the clock itself can be rounded across the end of a window that is
not a whole number, and `Near` is about the clock that is computed.
-/
import KxcoPostQuantum.Js.Members
import KxcoPostQuantum.Webhook.Proofs.Binding

namespace KxcoPostQuantum

open Lib.Utf8

-- ========================================================= assumptions

namespace Signature

/-- A matching key pair: what noble, or OpenSSL, signs with the secret key
it verifies with the public key. -/
structure Matching (rt : Runtime) (backends : Backends) (set : SignatureSet)
    (publicKey secretKey : Bytes) : Prop where
  noble : ∀ message signature,
    backends.noble.sign set message (.uint8Array secretKey) none
      = .ok signature →
    backends.noble.verify set signature message (.uint8Array publicKey) none
      = .ok true
  native : ∀ native algid, backends.native = some native →
    native.algid set.nativeAlg = some algid → ∀ message signature,
    native.sign (toPkcs8 algid secretKey) message none = .ok signature →
    native.verify (toSpki algid publicKey) message none signature = .ok true

/-- Under either backend the module verifies what it has signed. Without a
context, signing and verifying choose their backend by the same test, so it
is the one that signed. -/
theorem Matching.verify {rt : Runtime} {backends : Backends}
    {set : SignatureSet} {publicKey secretKey message : Bytes}
    (h : Matching rt backends set publicKey secretKey) {hex : JsString}
    (hsign : sign rt backends set (.uint8Array secretKey)
      (.uint8Array message) .undefined = .ok hex) :
    Signature.verify rt backends set (.uint8Array publicKey)
      (.uint8Array message) (.string hex) .undefined = .ok (some true) := by
  rw [sign, normalizeContext_undefined] at hsign
  simp only [bind_eq_ok, Except.ok.injEq] at hsign
  obtain ⟨_, rfl, hsign⟩ := hsign
  have hverify : verifyWith rt backends set (.uint8Array publicKey)
      (.uint8Array message) (.string hex) none = .ok (some true) := by
    rw [verifyWith]
    split at hsign
    next native husable =>
      have hnative := (Option.filter_eq_some_iff.mp husable).1
      simp only [bind_eq_ok, toBytes, Except.ok.injEq] at hsign
      obtain ⟨_, rfl, signature, hsignature, hhex⟩ := hsign
      rw [OpenSsl.nativeSign] at hsignature
      split at hsignature
      next =>
        cases hsignature
        cases hhex
      next algid halgid =>
        simp only [bind_eq_ok, bufferFrom, Except.ok.injEq,
          pure_eq_ok] at hsignature
        obtain ⟨_, rfl, bytes, hbytes, rfl⟩ := hsignature
        cases hhex
        have hv := h.native native algid hnative halgid message bytes hbytes
        simp only [toBytes, signatureBytes, hexToBytes_bytesToHex,
          OpenSsl.nativeVerify, halgid, bufferFrom]
        simp only [bind, Except.bind, hv]
        rfl
    next =>
      simp only [bind_eq_ok, toBytes, Except.ok.injEq, pure_eq_ok] at hsign
      obtain ⟨_, rfl, signature, hsignature, rfl⟩ := hsign
      have hv := h.noble message signature hsignature
      simp only [toBytes, signatureBytes, hexToBytes_bytesToHex]
      simp only [bind, Except.bind, hv]
      rfl
  rw [verify_ok normalizeContext_undefined, hverify]
  rfl

/-- What is not hex is no signature, whatever the backends answer: it cannot
be read as bytes, so neither of them is asked. -/
theorem verify_notHex {rt : Runtime} {backends : Backends}
    {set : SignatureSet} {publicKey message : JsVal} {s : JsString}
    (hs : hexPairs s = none) :
    Signature.verify rt backends set publicKey message (.string s) .undefined
      = .ok (some false) := by
  have herror : ∃ e, verifyWith rt backends set publicKey message (.string s)
      none = .error e := by
    have hhex : signatureBytes (.string s)
        = .error (error (js "invalid hex")) := by
      have hstring : signatureBytes (.string s) = hexToBytes (.string s) := rfl
      rw [hstring, hexToBytes, hs]
    rw [verifyWith, hhex]
    cases usesNative rt backends set none with
    | none => exact ⟨_, rfl⟩
    | some native =>
        cases toBytes message with
        | error e => exact ⟨_, rfl⟩
        | ok m => exact ⟨_, rfl⟩
  obtain ⟨e, he⟩ := herror
  rw [verify_ok normalizeContext_undefined, he]
  rfl

end Signature

namespace Webhook

open Signature (Backends)

/-- The length of an ML-DSA-65 secret key, FIPS 204. -/
def mlDsa65SecretKeyBytes : Nat := 4032

/-- The lengths of the keys of a set. -/
def KeyLengths (set : PqSet) (publicKey secretKey : Bytes) : Prop :=
  set = mlDsa65 ∧ publicKey.length = mlDsa65PublicKeyBytes
      ∧ secretKey.length = mlDsa65SecretKeyBytes
    ∨ set = mlDsa87 ∧ publicKey.length = mlDsa87PublicKeyBytes
      ∧ secretKey.length = mlDsa87SecretKeyBytes

/-- A matching key pair of a set. -/
structure KeyPair (rt : Runtime) (backends : Backends) (set : PqSet)
    (publicKey secretKey : Bytes) : Prop where
  lengths : KeyLengths set publicKey secretKey
  genuine : Signature.Matching rt backends set.set publicKey secretKey

/-- The receiver's clock is within a window of a whole number of seconds:
the clock as it is computed, or, if the window is a whole number, the
clock as it is. -/
def Near (now seconds : ℕ) : JsNumber → Prop
  | .posInf => True
  | .finite w =>
      (∃ a, JsNumber.round (now / 1000) = .finite a ∧ |a - seconds| ≤ w)
        ∨ (∃ n : ℕ, w = n) ∧ |(now / 1000 : ℚ) - seconds| ≤ w
  | _ => False

/-- A header name in lower case; all of them are ASCII. -/
def lowerCase (u : UInt16) : UInt16 :=
  if 65 ≤ u.toNat ∧ u.toNat ≤ 90 then u + 32 else u

/-- The headers as they arrive, their names in lower case. -/
def delivered (headers : List (JsString × JsVal)) : JsVal :=
  .object (headers.map fun m => (m.1.map lowerCase, m.2)) []

/-- The delivery of some headers with the body they were made for, to a
receiver with the secret and the kid of the sender. -/
def deliveryOf (s : Signing) (headers : List (JsString × JsVal))
    (publicKey : Bytes) (windowSeconds : JsVal) : Delivery where
  headers := delivered headers
  rawBody := s.rawBody
  hmacSecret := s.hmacSecret
  pqPublicKey := .uint8Array publicKey
  pinnedKid := s.pqKid
  windowSeconds

-- ========================================================== the window

variable {rt : Runtime} {hmacSha256 : Bytes → Bytes → Bytes}
  {backends : Backends} {now now' : ℕ}

theorem clock_lt (h : now ≤ maxTimeValue) :
    (0 : ℚ) ≤ now / 1000 ∧ (now / 1000 : ℚ) < 2 ^ 53 := by
  have hnow : (now : ℚ) ≤ 8640000000000000 := by exact_mod_cast h
  exact ⟨by positivity, by linarith⟩

/-- Both readings of nearness are of the computed clock. -/
theorem near_computed {seconds : ℕ} {w : ℚ} (hnow : now ≤ maxTimeValue)
    (h : Near now seconds (.finite w)) :
    ∃ a, JsNumber.round (now / 1000) = .finite a ∧ |a - seconds| ≤ w := by
  rcases h with h | ⟨⟨n, rfl⟩, h⟩
  · exact h
  obtain ⟨hclock, hlt⟩ := clock_lt hnow
  obtain ⟨a, ha, hbelow, habove⟩ := JsNumber.round_between hclock hlt
  refine ⟨a, ha, ?_⟩
  rw [abs_le] at h ⊢
  have hlow := hbelow (seconds - n) (by push_cast; linarith)
  have hhigh := habove (seconds + n) (by push_cast; linarith)
  push_cast at hlow hhigh
  constructor <;> linarith

/-- **The comparison holds** of a clock that is near. The window is a number
of the language, and rounding does not take the difference past one. -/
theorem le_of_near {seconds : ℕ} {w : JsNumber} (hnow : now ≤ maxTimeValue)
    (hw : w.Representable) (h : Near now seconds w) :
    ((JsNumber.round (now / 1000)).absSub (.finite seconds)).le w
      = true := by
  cases w with
  | nan => exact h.elim
  | negInf => exact h.elim
  | posInf =>
      obtain ⟨a, ha, -⟩ := JsNumber.round_between (clock_lt hnow).1
        (clock_lt hnow).2
      rw [ha, JsNumber.absSub]
      cases hx : JsNumber.round |a - seconds| with
      | nan => exact absurd hx (JsNumber.round_ne_nan _)
      | _ => rfl
  | finite w =>
      obtain ⟨a, ha, hle⟩ := near_computed hnow h
      obtain ⟨r, hr, hrw⟩ := JsNumber.round_le (abs_nonneg _) hle hw
      rw [ha, JsNumber.absSub, hr]
      exact decide_eq_true hrw

/-- A timestamp in digits is read as it was written. -/
theorem timestampNumber_decimal {n : ℕ} (h : n < 2 ^ 53) :
    timestampNumber (.string (decimal n)) = .finite n := by
  have hne : decimal n ≠ [] := by
    rw [decimal_eq, ne_eq, List.map_eq_nil_iff]
    exact Nat.toDigits_ne_nil
  have hdigits : isDigits (.string (decimal n)) = true := by
    rw [isDigits, Bool.and_eq_true, List.all_eq_true, Bool.not_eq_true',
      List.isEmpty_eq_false_iff]
    exact ⟨hne, isDigit_decimal n⟩
  rw [timestampNumber, if_pos hdigits, JsNumber.parseDigits, foldl_decimal,
    JsNumber.round_natCast h]

theorem checkTimestamp_near {seconds : ℕ} {window : JsVal} {w : JsNumber}
    (hseconds : seconds < 2 ^ 53) (hnow : now ≤ maxTimeValue)
    (hwindow : windowNumber rt window = .ok w) (hw : w.Representable)
    (h : Near now seconds w) :
    checkTimestamp rt now (.string (decimal seconds)) window
      = .ok true := by
  have hfinite : (JsNumber.finite seconds).isFinite = true := rfl
  rw [checkTimestamp_eq, timestampNumber_decimal hseconds, if_pos hfinite,
    hwindow]
  exact congrArg Except.ok (le_of_near hnow hw h)

-- ========================================================= the headers

/-- The timestamp a sender writes. -/
def timestampOf (now : ℕ) : JsVal := .string (decimal (now / 1000))

/-- **What the headers say** once they have arrived: the timestamp that was
signed, the two signatures over it and the body, and the name of the key.
Names are looked up in lower case, as a server has them. -/
theorem signDelivery_ok {s : Signing} {headers : List (JsString × JsVal)}
    {kid : JsString} (hnow : now ≤ maxTimeValue)
    (hkid : s.pqKid = .string kid)
    (h : signDelivery rt hmacSha256 backends now s = .ok headers) :
    ∃ mac sig,
      hmacHex rt hmacSha256 s.hmacSecret (timestampOf now) s.rawBody = .ok mac
        ∧ pqSign rt backends s.pqSecretKey (timestampOf now) s.rawBody
          = .ok sig
        ∧ (delivered headers).get (js "x-kxco-timestamp")
          = .ok (timestampOf now)
        ∧ (delivered headers).get (js "x-kxco-signature")
          = .ok (.string (js "sha256=" ++ mac))
        ∧ (delivered headers).get (js "x-kxco-pq-signature")
          = .ok (.string sig)
        ∧ (delivered headers).get (js "x-kxco-pq-kid")
          = .ok (.string kid) := by
  have hseconds : now / 1000 < 10 ^ 21 := by
    rw [maxTimeValue] at hnow
    omega
  have hts : (JsNumber.round (now / 1000)).floor.toText rt
      = decimal (now / 1000) := by
    rw [floor_clock hnow, toText_natCast rt hseconds]
  rw [signDelivery] at h
  simp only [hts, hkid, bind_eq_ok, pure_eq_ok] at h
  obtain ⟨mac, hmac, sig, hsig, rfl⟩ := h
  refine ⟨mac, sig, hmac, hsig, ?_⟩
  rw [optionalHeader, optionalHeader]
  split
  next =>
    split
    next => exact ⟨rfl, rfl, rfl, rfl⟩
    next => exact ⟨rfl, rfl, rfl, rfl⟩
  next =>
    split
    next => exact ⟨rfl, rfl, rfl, rfl⟩
    next => exact ⟨rfl, rfl, rfl, rfl⟩

-- ====================================================== the signatures

theorem startsWith_append (p s : JsString) : startsWith (p ++ s) p = true :=
  List.isPrefixOf_iff_prefix.mpr (List.prefix_append _ _)

/-- The receiver's HMAC is the sender's. -/
theorem verifyHmac_own {secret ts body : JsVal} {mac : JsString}
    (h : hmacHex rt hmacSha256 secret ts body = .ok mac) :
    verifyHmac rt hmacSha256 secret ts body
      (.string (js "sha256=" ++ mac)) = .ok true := by
  rw [verifyHmac, h]
  simp only [bind, Except.bind, startsWith_append, if_true]
  exact congrArg Except.ok (constTimeEqualStrings_iff.mpr rfl)

variable {set : PqSet} {publicKey secretKey : Bytes} {ts body : JsVal}

/-- The set a secret key is read as, by its length. -/
theorem KeyLengths.signingSet (h : KeyLengths set publicKey secretKey) :
    (if (JsVal.number (.finite secretKey.length)).strictEquals
      (.number (.finite mlDsa87SecretKeyBytes)) = true then mlDsa87
      else mlDsa65) = set := by
  rcases h with ⟨rfl, -, hlength⟩ | ⟨rfl, -, hlength⟩
  · rw [hlength]
    exact if_neg (by decide)
  · rw [hlength]
    exact if_pos (by decide)

/-- A key of a set signs under the name of the set. -/
theorem pqSign_ok (h : KeyLengths set publicKey secretKey) {sig : JsString}
    (hsig : pqSign rt backends (.uint8Array secretKey) ts body = .ok sig) :
    ∃ env hex, envelope rt ts body = .ok env
      ∧ Signature.sign rt backends set.set (.uint8Array secretKey)
        (.uint8Array env) .undefined = .ok hex
      ∧ sig = set.headerPrefix ++ hex := by
  rw [pqSign] at hsig
  simp only [JsVal.length, bind_eq_ok, pure_eq_ok, Except.ok.injEq] at hsig
  obtain ⟨_, rfl, env, henv, hex, hhex, rfl⟩ := hsig
  rw [h.signingSet] at hhex ⊢
  exact ⟨env, hex, henv, hhex, rfl⟩

/-- No header of one set begins with the name of the other. -/
theorem startsWith_other (hex : JsString) :
    startsWith (mlDsa65.headerPrefix ++ hex) mlDsa87.headerPrefix = false
      ∧ startsWith (mlDsa87.headerPrefix ++ hex) mlDsa65.headerPrefix
        = false := by
  constructor
  · rfl
  · rfl

/-- The set a key is read as, by its length. -/
def setOfLength (length : Nat) : Option PqSet :=
  if length = mlDsa87PublicKeyBytes then some mlDsa87
  else if length = mlDsa65PublicKeyBytes then some mlDsa65
  else none

/-- A header under a key of bytes. The length of the key names the set; a
header with the prefix of the set is taken without it, and one without it
only under the smaller set. -/
theorem pqCheck_bytes (key : Bytes) (s : JsString) :
    pqCheck (.uint8Array key) (.string s)
      = .ok ((setOfLength key.length).bind fun set =>
          if startsWith s set.headerPrefix = true then
            some (set.set, .string (s.drop set.headerPrefix.length))
          else if key.length = mlDsa87PublicKeyBytes then none
          else some (set.set, .string s)) := by
  have hequals : ∀ n : ℕ, (JsVal.number (.finite key.length)).strictEquals
      (.number (.finite n)) = decide (key.length = n) := by
    intro n
    simp [JsVal.strictEquals]
  have hne : mlDsa65PublicKeyBytes ≠ mlDsa87PublicKeyBytes := by decide
  rw [pqCheck]
  simp only [JsVal.length, bind, Except.bind, hequals, setOfLength]
  by_cases h87 : key.length = mlDsa87PublicKeyBytes
  · simp only [h87, decide_true, not_true_eq_false, false_and, if_true,
      if_false, Option.bind_some]
    split <;> rfl
  · by_cases h65 : key.length = mlDsa65PublicKeyBytes
    · simp only [h65, hne, decide_true, decide_false, not_true_eq_false,
        and_false, if_true, if_false, Option.bind_some, Bool.false_eq_true]
      split <;> rfl
    · simp only [h87, h65, decide_false, not_false_eq_true, and_self,
        if_true, if_false, Option.bind_none, Bool.false_eq_true]
      rfl

/-- **Its own set's key** takes the signature out of a header. -/
theorem pqCheck_own (h : KeyLengths set publicKey secretKey)
    (hex : JsString) :
    pqCheck (.uint8Array publicKey) (.string (set.headerPrefix ++ hex))
      = .ok (some (set.set, .string hex)) := by
  have hset : setOfLength publicKey.length = some set := by
    rcases h with ⟨rfl, hlength, -⟩ | ⟨rfl, hlength, -⟩
    · rw [hlength]
      rfl
    · rw [hlength]
      rfl
  rw [pqCheck_bytes, hset, Option.bind_some, if_pos (startsWith_append _ _),
    List.drop_left]

/-- **A key of another length** makes no check of a header, or a check of
what is not hex. -/
theorem pqCheck_other (h : KeyLengths set publicKey secretKey)
    {other : Bytes} (hother : other.length ≠ publicKey.length)
    (hex : JsString) :
    pqCheck (.uint8Array other) (.string (set.headerPrefix ++ hex)) = .ok none
      ∨ ∃ set' s, hexPairs s = none
        ∧ pqCheck (.uint8Array other) (.string (set.headerPrefix ++ hex))
          = .ok (some (set', .string s)) := by
  obtain ⟨h65, h87⟩ := startsWith_other hex
  rw [pqCheck_bytes]
  rcases h with ⟨rfl, hlength, -⟩ | ⟨rfl, hlength, -⟩
  · -- a header of ML-DSA-65: an ML-DSA-87 key has no bare form
    left
    rw [hlength] at hother
    by_cases hkey : other.length = mlDsa87PublicKeyBytes
    · rw [setOfLength, if_pos hkey, Option.bind_some, h65, if_pos hkey]
      rfl
    · rw [setOfLength, if_neg hkey, if_neg hother]
      rfl
  · -- a header of ML-DSA-87: an ML-DSA-65 key takes all of it for hex
    rw [hlength] at hother
    by_cases hkey : other.length = mlDsa65PublicKeyBytes
    · right
      refine ⟨.mlDsa65, mlDsa87.headerPrefix ++ hex, rfl, ?_⟩
      rw [setOfLength, if_neg hother, if_pos hkey, Option.bind_some, h87,
        if_neg hother]
      rfl
    · left
      rw [setOfLength, if_neg hother, if_neg hkey]
      rfl

-- ========================================================== round trip

/-- What the receiver reads of a MAC and a signature header. -/
def readingOf (now : ℕ) (mac sig : JsString) (timestampOk : Bool) :
    Reading where
  ts := timestampOf now
  sigHmac := .string (js "sha256=" ++ mac)
  sigPq := .string sig
  timestampOk
  kidOk := true

theorem readDelivery_own {s : Signing} {headers : List (JsString × JsVal)}
    {kid : JsString} {windowSeconds : JsVal} {timestampOk : Bool}
    (hnow : now ≤ maxTimeValue) (hkid : s.pqKid = .string kid)
    (h : signDelivery rt hmacSha256 backends now s = .ok headers)
    (hcheck : checkTimestamp rt now' (timestampOf now) windowSeconds
      = .ok timestampOk) :
    ∃ mac sig,
      hmacHex rt hmacSha256 s.hmacSecret (timestampOf now) s.rawBody = .ok mac
        ∧ pqSign rt backends s.pqSecretKey (timestampOf now) s.rawBody
          = .ok sig
        ∧ ∀ key, readDelivery rt now' (deliveryOf s headers key windowSeconds)
          = .ok (readingOf now mac sig timestampOk) := by
  obtain ⟨mac, sig, hmac, hsig, hts, hsigHmac, hsigPq, hpin⟩ :=
    signDelivery_ok hnow hkid h
  refine ⟨mac, sig, hmac, hsig, fun key => ?_⟩
  have hequal : (JsVal.string kid).strictEquals (.string kid) = true :=
    JsVal.strictEquals_string.mpr rfl
  rw [timestampOf] at hts hcheck
  rw [readDelivery]
  simp only [deliveryOf, hts, hsigHmac, hsigPq, hpin, bind, Except.bind,
    headerString, hcheck, hkid, hequal, Bool.or_true]
  rfl

/-- Past the readings a delivery is its two signatures: the code is the one
that was computed, and what the other check says is left open here. -/
theorem verifyDelivery_own {s : Signing} {headers : List (JsString × JsVal)}
    {mac sig : JsString} {key : Bytes} {windowSeconds : JsVal}
    {pqOk : Option Bool}
    (hread : readDelivery rt now' (deliveryOf s headers key windowSeconds)
      = .ok (readingOf now mac sig true))
    (hsecret : s.hmacSecret.truthy = true)
    (hmac : hmacHex rt hmacSha256 s.hmacSecret (timestampOf now) s.rawBody
      = .ok mac)
    (hsig : (JsVal.string sig).truthy = true)
    (hpq : verifyPq rt backends (.uint8Array key) (timestampOf now) s.rawBody
      (.string sig) = .ok pqOk) :
    verifyDelivery rt hmacSha256 backends now'
        (deliveryOf s headers key windowSeconds)
      = .ok ⟨true, pqOk, true, true⟩ := by
  have hmacReached : hmacReached (deliveryOf s headers key windowSeconds)
      (readingOf now mac sig true) = true := by
    rw [Webhook.hmacReached, deliveryOf, hsecret]
    rfl
  have hpqReached : pqReached (deliveryOf s headers key windowSeconds)
      (readingOf now mac sig true) = true := by
    rw [pqReached, readingOf, hsig]
    rfl
  have hhmac : hmacVerdict rt hmacSha256
      (deliveryOf s headers key windowSeconds) (readingOf now mac sig true)
      = .ok true := by
    rw [hmacVerdict, if_pos hmacReached]
    exact verifyHmac_own hmac
  have hpqVerdict : pqVerdict rt backends
      (deliveryOf s headers key windowSeconds) (readingOf now mac sig true)
      = .ok pqOk := by
    rw [pqVerdict, if_pos hpqReached]
    exact hpq
  rw [verifyDelivery, hread]
  simp only [bind, Except.bind, hhmac, hpqVerdict]
  rfl

/-- **The signature verifies** under the key of its own set. -/
theorem verifyPq_own (h : KeyPair rt backends set publicKey secretKey)
    {sig : JsString}
    (hsig : pqSign rt backends (.uint8Array secretKey) ts body = .ok sig) :
    verifyPq rt backends (.uint8Array publicKey) ts body (.string sig)
      = .ok (some true) := by
  obtain ⟨env, hex, henv, hhex, rfl⟩ := pqSign_ok h.lengths hsig
  rw [verifyPq_eq, pqCheck_own h.lengths]
  simp only [bind, Except.bind, Option.elim_some, verifyEnvelope, henv]
  exact h.genuine.verify hhex

/-- **It verifies under no key of another length**, whatever the backends
answer. -/
theorem verifyPq_other (h : KeyLengths set publicKey secretKey)
    {sig : JsString}
    (hsig : pqSign rt backends (.uint8Array secretKey) ts body = .ok sig)
    (backends' : Backends) {other : Bytes}
    (hother : other.length ≠ publicKey.length) :
    verifyPq rt backends' (.uint8Array other) ts body (.string sig)
      = .ok (some false) := by
  obtain ⟨env, hex, henv, hhex, rfl⟩ := pqSign_ok h hsig
  rw [verifyPq_eq]
  rcases pqCheck_other h hother hex with hcheck | ⟨set', s, hs, hcheck⟩
  · rw [hcheck]
    rfl
  · rw [hcheck]
    simp only [bind, Except.bind, Option.elim_some, verifyEnvelope, henv]
    exact Signature.verify_notHex hs

/-- A signature header is not empty. -/
theorem pqSign_truthy (h : KeyLengths set publicKey secretKey)
    {sig : JsString}
    (hsig : pqSign rt backends (.uint8Array secretKey) ts body = .ok sig) :
    (JsVal.string sig).truthy = true := by
  obtain ⟨env, hex, -, -, rfl⟩ := pqSign_ok h hsig
  rcases h with ⟨rfl, -, -⟩ | ⟨rfl, -, -⟩
  · rfl
  · rfl

/-- **The round trip.** What `signDelivery` returned passes all four
checks of a receiver with the same secret, the matching key and the kid,
whose clock is near. Under a key of another length `pqOk` is false and the
rest is as it was. -/
theorem verifyDelivery_signDelivery {s : Signing} {kid : JsString}
    {headers : List (JsString × JsVal)} {windowSeconds : JsVal} {w : JsNumber}
    (hpair : KeyPair rt backends set publicKey secretKey)
    (hsecret : s.hmacSecret.truthy = true)
    (hkey : s.pqSecretKey = .uint8Array secretKey)
    (hkid : s.pqKid = .string kid)
    (hnow : now ≤ maxTimeValue) (hnow' : now' ≤ maxTimeValue)
    (h : signDelivery rt hmacSha256 backends now s = .ok headers)
    (hwindow : windowNumber rt windowSeconds = .ok w)
    (hw : w.Representable) (hnear : Near now' (now / 1000) w) :
    verifyDelivery rt hmacSha256 backends now'
        (deliveryOf s headers publicKey windowSeconds)
      = .ok ⟨true, some true, true, true⟩
      ∧ ∀ backends' other, other.length ≠ publicKey.length →
        verifyDelivery rt hmacSha256 backends' now'
            (deliveryOf s headers other windowSeconds)
          = .ok ⟨true, some false, true, true⟩ := by
  have hseconds : now / 1000 < 2 ^ 53 := by
    rw [maxTimeValue] at hnow
    omega
  have hcheck : checkTimestamp rt now' (timestampOf now) windowSeconds
      = .ok true := checkTimestamp_near hseconds hnow' hwindow hw hnear
  obtain ⟨mac, sig, hmac, hsig, hread⟩ :=
    readDelivery_own hnow hkid h hcheck
  rw [hkey] at hsig
  have htruthy := pqSign_truthy hpair.lengths hsig
  constructor
  · exact verifyDelivery_own (hread publicKey) hsecret hmac htruthy
      (verifyPq_own hpair hsig)
  · intro backends' other hother
    exact verifyDelivery_own (hread other) hsecret hmac htruthy
      (verifyPq_other hpair.lengths hsig backends' hother)

/-- A delivery of an ML-DSA-65 sender. -/
def sampleSigning : Signing where
  rawBody := .string (js "body")
  hmacSecret := .string (js "secret")
  pqSecretKey := .uint8Array (List.replicate 4032 0)
  pqKid := .string (js "kid")
  event := .undefined
  deliveryId := .undefined

theorem lenient_keyPair :
    KeyPair plainRuntime ⟨none, lenientNoble⟩ mlDsa65
      (List.replicate 1952 0) (List.replicate 4032 0) where
  lengths := Or.inl ⟨rfl, List.length_replicate, List.length_replicate⟩
  genuine := {
    noble := fun _ _ _ => rfl
    native := fun _ _ h => by cases h }

theorem signDelivery_sample (now : ℕ) :
    ∃ headers, signDelivery plainRuntime (fun _ _ => []) ⟨none, lenientNoble⟩
      now sampleSigning = .ok headers := by
  rw [signDelivery]
  generalize (JsNumber.round (now / 1000)).floor.toText plainRuntime = ts
  have hsig : pqSign plainRuntime ⟨none, lenientNoble⟩
      sampleSigning.pqSecretKey (.string ts) sampleSigning.rawBody
      = .ok (js "ml-dsa-65=") := by
    rw [pqSign, sampleSigning]
    simp only [JsVal.length, bind, Except.bind,
      lenient_keyPair.lengths.signingSet]
    rfl
  have hmac : hmacHex plainRuntime (fun _ _ => []) sampleSigning.hmacSecret
      (.string ts) sampleSigning.rawBody = .ok [] := rfl
  simp only [hmac, hsig, bind, Except.bind]
  exact ⟨_, rfl⟩

/-- Five minutes later, with the default window, which is the last moment at
which the sample is accepted. -/
theorem verifyDelivery_signDelivery_sample :
    ∃ headers, signDelivery plainRuntime (fun _ _ => []) ⟨none, lenientNoble⟩
        1700000000000 sampleSigning = .ok headers
      ∧ verifyDelivery plainRuntime (fun _ _ => []) ⟨none, lenientNoble⟩
          1700000300000 (deliveryOf sampleSigning headers
            (List.replicate 1952 0) .undefined)
        = .ok ⟨true, some true, true, true⟩
      ∧ verifyDelivery plainRuntime (fun _ _ => []) ⟨none, lenientNoble⟩
          1700000300000 (deliveryOf sampleSigning headers
            (List.replicate 2592 0) .undefined)
        = .ok ⟨true, some false, true, true⟩ := by
  obtain ⟨headers, h⟩ := signDelivery_sample 1700000000000
  have hw : (JsNumber.finite 300).Representable :=
    @JsNumber.round_natCast 300 (by norm_num)
  have hnear : Near 1700000300000 (1700000000000 / 1000) (.finite 300) :=
    Or.inr ⟨⟨300, rfl⟩, by norm_num⟩
  have hwindow : windowNumber plainRuntime .undefined = .ok (.finite 300) :=
    rfl
  obtain ⟨hown, hother⟩ := verifyDelivery_signDelivery lenient_keyPair rfl rfl
    rfl (by decide) (by decide) h hwindow hw hnear
  refine ⟨headers, h, hown, hother _ _ ?_⟩
  rw [List.length_replicate, List.length_replicate]
  decide

/-- Two milliseconds, as a number of the language. -/
def twoMilliseconds : ℚ := 1152921504606847 / 2 ^ 59

/-- Two milliseconds after the second a window of two milliseconds is over:
the clock is rounded up. -/
theorem window_rounded_clock :
    ∃ headers, KeyPair plainRuntime ⟨none, lenientNoble⟩ mlDsa65
        (List.replicate 1952 0) (List.replicate 4032 0)
      ∧ signDelivery plainRuntime (fun _ _ => []) ⟨none, lenientNoble⟩
        1700000000000 sampleSigning = .ok headers
      ∧ (JsNumber.finite twoMilliseconds).Representable
      ∧ |(1700000000002 / 1000 : ℚ) - (1700000000000 / 1000 : ℕ)|
        ≤ twoMilliseconds
      ∧ verifyDelivery plainRuntime (fun _ _ => []) ⟨none, lenientNoble⟩
          1700000000002 (deliveryOf sampleSigning headers
            (List.replicate 1952 0) (.number (.finite twoMilliseconds)))
        = .ok ⟨false, some false, false, true⟩ := by
  obtain ⟨headers, h⟩ := signDelivery_sample 1700000000000
  have hcompare : ((JsNumber.round ((1700000000002 : ℕ) / 1000)).absSub
      (.finite (1700000000 : ℕ))).le (.finite twoMilliseconds) = false := by
    decide +kernel
  have hcheck : checkTimestamp plainRuntime 1700000000002
      (timestampOf 1700000000000) (.number (.finite twoMilliseconds))
      = .ok false := by
    rw [checkTimestamp_eq, timestampOf, timestampNumber_decimal (by norm_num)]
    exact congrArg Except.ok hcompare
  obtain ⟨mac, sig, -, -, hread⟩ :=
    readDelivery_own (by decide) rfl h hcheck
  have hw : (JsNumber.finite twoMilliseconds).Representable := by
    rw [JsNumber.Representable]
    decide +kernel
  have hwithin : |(1700000000002 / 1000 : ℚ) - (1700000000000 / 1000 : ℕ)|
      ≤ twoMilliseconds := by
    rw [twoMilliseconds]
    norm_num
  refine ⟨headers, lenient_keyPair, h, hw, hwithin, ?_⟩
  rw [verifyDelivery, hread]
  simp only [bind, Except.bind, hmacVerdict, hmacReached, pqVerdict, pqReached,
    readingOf, Bool.and_false, Bool.false_and, if_false, Bool.false_eq_true]
  rfl

end Webhook

end KxcoPostQuantum
