/-
`verify` on the OpenSSL path against `verify` on the JavaScript path.

Both paths read the options, the message and the signature with the same
code, so they can differ only in the key. noble takes a `Uint8Array` of
the set's length and nothing else. The OpenSSL path takes what
`Buffer.from` takes and wraps it as SPKI, so the length is checked by
whoever reads the SPKI, and only as far as `derLength` writes it.

# The condition

`Diverges` is the exact case the paths differ in: arguments that are
otherwise in order, the OpenSSL path taken, a key that is not a
`Uint8Array` of the set's length, and a genuine signature under the bytes
`Buffer.from` makes of it. `verify_sameOutcome_iff` says that there is no
other.
-/
import KxcoPostQuantum.Signature.Modules

namespace KxcoPostQuantum.Signature

-- ======================================================= assumptions

/-- The verdict of a call: a throw is a refusal. -/
def accepted : Except JsError Bool → Bool
  | .ok ok => ok
  | .error _ => false

/-- A `Uint8Array` of the set's length. -/
def ExactKey (set : SignatureSet) (publicKey : JsVal) : Prop :=
  ∃ b, publicKey = .uint8Array b ∧ b.length = set.publicKeyBytes

/-- The length that length octets say. -/
def lengthValue : Bytes → Nat
  | [l] => l.toNat
  | [_, l] => l.toNat
  | [_, h, l] => h.toNat * 0x100 + l.toNat
  | _ => 0

/-- What is assumed of OpenSSL and noble. -/
structure Agreement (native : OpenSsl) (noble : Noble) : Prop where
  /-- One verdict on a key of the set's length. -/
  verdict : ∀ {set : SignatureSet} {algid b : Bytes},
    native.algid set.nativeAlg = some algid →
    b.length = set.publicKeyBytes → ∀ message context signature,
      accepted (native.verify (toSpki algid b) message context signature)
        = accepted
            (noble.verify set signature message (.uint8Array b) context)
  /-- noble throws on any other key. -/
  keyChecked : ∀ {set : SignatureSet} {publicKey : JsVal},
    ¬ExactKey set publicKey → ∀ signature message context,
      ∃ e, noble.verify set signature message publicKey context = .error e
  /-- The SPKI reader throws on a BIT STRING of another length. -/
  bitString : ∀ {set : SignatureSet} {algid b : Bytes},
    native.algid set.nativeAlg = some algid →
    lengthValue (derLength (b.length + 1)) ≠ set.publicKeyBytes + 1 →
    ∀ message context signature, ∃ e,
      native.verify (toSpki algid b) message context signature = .error e

-- ========================================================== outcomes

/-- Both return the same, or both throw. -/
def SameOutcome : (r r' : Except JsError (Option Bool)) → Prop
  | .ok v, .ok v' => v = v'
  | .error _, .error _ => True
  | _, _ => False

/-- The case the two paths answer differently in. -/
def Diverges (rt : Runtime) (native : OpenSsl) (set : SignatureSet)
    (publicKey message signature opts : JsVal) : Prop :=
  ∃ context m s algid b,
    normalizeContext opts = .ok context ∧ toBytes message = .ok m
      ∧ signatureBytes signature = .ok s
      ∧ native.supports rt set.nativeAlg
      ∧ (context.isNone ∨ native.contextHonoured)
      ∧ native.algid set.nativeAlg = some algid
      ∧ ¬ExactKey set publicKey ∧ bufferFrom rt publicKey = .ok b
      ∧ b.length % 0x10000 = set.publicKeyBytes
      ∧ native.verify (toSpki algid b) m context s = .ok true

/-- Two bytes hold a length modulo 65536. What is above is lost, and a
reader of the octets finds a shorter length. -/
theorem lengthValue_derLength (n : Nat) :
    lengthValue (derLength n) = n % 0x10000 := by
  have hbyte : ∀ k, k.toUInt8.toNat = k % 0x100 := by
    intro k
    rw [Nat.toUInt8_eq, UInt8.toNat_ofNat']
  unfold derLength
  split
  next h =>
    rw [lengthValue, hbyte]
    omega
  split
  next h =>
    rw [lengthValue, hbyte]
    omega
  next h =>
    rw [lengthValue, hbyte, hbyte]
    omega

/-- A key OpenSSL accepts has the set's length, up to what `derLength`
drops. -/
theorem Agreement.length_of_accepted {native : OpenSsl} {noble : Noble}
    (h : Agreement native noble) {set : SignatureSet} {algid b m s : Bytes}
    {context : Option Bytes} (halg : native.algid set.nativeAlg = some algid)
    (hok : native.verify (toSpki algid b) m context s = .ok true) :
    b.length % 0x10000 = set.publicKeyBytes := by
  by_contra hlen
  have hne : lengthValue (derLength (b.length + 1))
      ≠ set.publicKeyBytes + 1 := by
    have hsmall : set.publicKeyBytes < 0xFFFF := by
      cases set <;> decide
    rw [lengthValue_derLength]
    omega
  obtain ⟨e, he⟩ := h.bitString halg hne m context s
  rw [he] at hok
  cases hok

section

variable {rt : Runtime} {native : OpenSsl} {noble : Noble}
  {set : SignatureSet} {publicKey message signature opts : JsVal}

/-- What the OpenSSL path answers, as a verdict. -/
theorem nativeVerify_eq {algid m s : Bytes} {context : Option Bytes}
    (halg : native.algid set.nativeAlg = some algid) :
    native.nativeVerify rt set.nativeAlg publicKey m s context
      = some (accepted (do
          let b ← bufferFrom rt publicKey
          native.verify (toSpki algid b) m context s)) := by
  rw [OpenSsl.nativeVerify, halg]
  simp only
  split
  next ok hok => rw [hok, accepted]
  next e he => rw [he, accepted]

/-- The answer of the JavaScript path to arguments that are in order. -/
theorem verifyWith_javascript {m s : Bytes} {context : Option Bytes}
    (hm : toBytes message = .ok m) (hs : signatureBytes signature = .ok s) :
    (verifyWith rt ⟨none, noble⟩ set publicKey message signature
        context).toOption.getD (some false)
      = some (accepted (noble.verify set s m publicKey context)) := by
  rw [verifyWith]
  show (do
    let signature ← signatureBytes signature
    let message ← toBytes message
    let ok ← noble.verify set signature message publicKey context
    return some ok : Except JsError (Option Bool)).toOption.getD _ = _
  rw [hs, hm]
  show (do
    let ok ← noble.verify set s m publicKey context
    return some ok : Except JsError (Option Bool)).toOption.getD _ = _
  cases noble.verify set s m publicKey context <;> rfl

/-- The answer of the OpenSSL path to arguments that are in order. -/
theorem verifyWith_openssl {m s : Bytes} {context : Option Bytes}
    (huse : usesNative rt ⟨some native, noble⟩ set context = some native)
    (hm : toBytes message = .ok m) (hs : signatureBytes signature = .ok s) :
    (verifyWith rt ⟨some native, noble⟩ set publicKey message signature
        context).toOption.getD (some false)
      = native.nativeVerify rt set.nativeAlg publicKey m s context := by
  rw [verifyWith, huse]
  show (do
    let message ← toBytes message
    let signature ← signatureBytes signature
    return native.nativeVerify rt set.nativeAlg publicKey message signature
      context : Except JsError (Option Bool)).toOption.getD _ = _
  rw [hm, hs]
  rfl

/-- A message or a signature that cannot be read fails on both paths. Both
throw on it, and `verify` turns what is thrown into `false`. -/
theorem verifyWith_unread {backends : Backends} {context : Option Bytes}
    (h : (∃ e, toBytes message = .error e)
      ∨ ∃ e, signatureBytes signature = .error e) :
    (verifyWith rt backends set publicKey message signature
      context).toOption.getD (some false) = some false := by
  unfold verifyWith
  cases usesNative rt backends set context with
  | none =>
      rcases h with ⟨e, he⟩ | ⟨e, he⟩
      · cases hs : signatureBytes signature with
        | error e' => rfl
        | ok s =>
            simp only [he]
            rfl
      · simp only [he]
        rfl
  | some native' =>
      rcases h with ⟨e, he⟩ | ⟨e, he⟩
      · simp only [he]
        rfl
      · cases hm : toBytes message with
        | error e' => rfl
        | ok m =>
            simp only [he]
            rfl

/-- Where OpenSSL is not used there is one path. -/
theorem verifyWith_unused {context : Option Bytes}
    (h : usesNative rt ⟨some native, noble⟩ set context = none) :
    verifyWith rt ⟨some native, noble⟩ set publicKey message signature
        context
      = verifyWith rt ⟨none, noble⟩ set publicKey message signature
          context := by
  rw [verifyWith, h, verifyWith]
  rfl

/-- OpenSSL is used when it has the set and honours the context. -/
theorem usesNative_eq (context : Option Bytes) :
    usesNative rt ⟨some native, noble⟩ set context = some native
      ↔ native.supports rt set.nativeAlg
        ∧ (context.isNone ∨ native.contextHonoured) := by
  cases context with
  | none => simp [usesNative, Option.filter]
  | some c => simp [usesNative, Option.filter]

theorem usesNative_cases (context : Option Bytes) :
    usesNative rt ⟨some native, noble⟩ set context = some native
      ∨ usesNative rt ⟨some native, noble⟩ set context = none := by
  rw [usesNative, Option.filter]
  split
  · exact Or.inl rfl
  · exact Or.inr rfl

/-- The verdicts of the two paths on arguments that are otherwise in
order. -/
theorem verdicts_iff (hagree : Agreement native noble) {algid m s : Bytes}
    {context : Option Bytes}
    (halg : native.algid set.nativeAlg = some algid) :
    accepted (do
        let b ← bufferFrom rt publicKey
        native.verify (toSpki algid b) m context s)
      = accepted (noble.verify set s m publicKey context)
      ↔ ¬(¬ExactKey set publicKey ∧ ∃ b, bufferFrom rt publicKey = .ok b
        ∧ native.verify (toSpki algid b) m context s = .ok true) := by
  by_cases hexact : ExactKey set publicKey
  · obtain ⟨b, rfl, hb⟩ := hexact
    refine iff_of_true ?_ fun h => h.1 ⟨b, rfl, hb⟩
    exact hagree.verdict halg hb m context s
  · obtain ⟨e, he⟩ := hagree.keyChecked hexact s m context
    rw [he]
    cases hb : bufferFrom rt publicKey with
    | error e' =>
        refine iff_of_true rfl ?_
        intro hx
        obtain ⟨-, b, hb', -⟩ := hx
        cases hb'
    | ok b =>
        show accepted (native.verify (toSpki algid b) m context s) = false ↔ _
        cases hv : native.verify (toSpki algid b) m context s with
        | error e' =>
            refine iff_of_true rfl ?_
            intro hx
            obtain ⟨-, b', hb', hv'⟩ := hx
            cases hb'
            rw [hv] at hv'
            cases hv'
        | ok ok =>
            cases ok with
            | false =>
                refine iff_of_true rfl ?_
                intro hx
                obtain ⟨-, b', hb', hv'⟩ := hx
                cases hb'
                rw [hv] at hv'
                cases hv'
            | true =>
                exact iff_of_false (by simp [accepted])
                  fun h => h ⟨hexact, b, rfl, hv⟩

/-- **The backends.** For every set, key, message, signature and options,
`verify` has the same outcome on both paths exactly when the call is not
the one case `Diverges` describes. -/
theorem verify_sameOutcome_iff (hagree : Agreement native noble) :
    SameOutcome
        (verify rt ⟨some native, noble⟩ set publicKey message signature opts)
        (verify rt ⟨none, noble⟩ set publicKey message signature opts)
      ↔ ¬Diverges rt native set publicKey message signature opts := by
  cases hcontext : normalizeContext opts with
  | error e =>
      have hthrow : ∀ backends, verify rt backends set publicKey message
          signature opts = .error e := by
        intro backends
        rw [verify, hcontext]
        rfl
      rw [hthrow, hthrow]
      refine iff_of_true trivial ?_
      intro hx
      obtain ⟨context, m, s, algid, b, hc, -⟩ := hx
      rw [hcontext] at hc
      cases hc
  | ok context =>
      rw [verify_ok hcontext, verify_ok hcontext, SameOutcome]
      by_cases huse : native.supports rt set.nativeAlg
        ∧ (context.isNone ∨ native.contextHonoured)
      case neg =>
        have hunused : usesNative rt ⟨some native, noble⟩ set context
            = none := by
          rcases usesNative_cases context with h | h
          · exact absurd ((usesNative_eq context).mp h) huse
          · exact h
        rw [verifyWith_unused hunused]
        refine iff_of_true rfl ?_
        intro hx
        obtain ⟨context', m, s, algid, b, hc, hm, hs, hsup, hctx, -⟩ := hx
        rw [hcontext] at hc
        cases hc
        exact huse ⟨hsup, hctx⟩
      cases hm : toBytes message with
      | error e =>
          rw [verifyWith_unread (Or.inl ⟨e, hm⟩),
            verifyWith_unread (Or.inl ⟨e, hm⟩)]
          refine iff_of_true rfl ?_
          intro hx
          obtain ⟨context', m, s, algid, b, -, hm', -⟩ := hx
          rw [hm] at hm'
          cases hm'
      | ok m =>
      cases hs : signatureBytes signature with
      | error e =>
          rw [verifyWith_unread (Or.inr ⟨e, hs⟩),
            verifyWith_unread (Or.inr ⟨e, hs⟩)]
          refine iff_of_true rfl ?_
          intro hx
          obtain ⟨context', m, s, algid, b, -, -, hs', -⟩ := hx
          rw [hs] at hs'
          cases hs'
      | ok s =>
      obtain ⟨algid, halg⟩ : ∃ algid,
          native.algid set.nativeAlg = some algid := by
        have hsup := huse.1
        simp only [OpenSsl.supports, Bool.and_eq_true,
          Option.isSome_iff_exists] at hsup
        exact hsup.2
      rw [verifyWith_openssl ((usesNative_eq context).mpr huse) hm hs,
        verifyWith_javascript hm hs, nativeVerify_eq halg,
        Option.some_inj, verdicts_iff hagree halg]
      refine not_congr ⟨?_, ?_⟩
      · intro hx
        obtain ⟨hexact, b, hb, hv⟩ := hx
        exact ⟨context, m, s, algid, b, hcontext, hm, hs, huse.1, huse.2,
          halg, hexact, hb, hagree.length_of_accepted halg hv, hv⟩
      · intro hx
        obtain ⟨context', m', s', algid', b, hc, hm', hs', -, -, halg',
          hexact, hb, -, hv⟩ := hx
        rw [hcontext] at hc
        rw [hm] at hm'
        rw [hs] at hs'
        rw [halg] at halg'
        cases hc
        cases hm'
        cases hs'
        cases halg'
        exact ⟨hexact, b, hb, hv⟩

end

-- ================================================ the failing input

/-- An OpenSSL with SLH-DSA-SHA2-192s, whose one signature is `[7]`. Its
SPKI reader takes a key by the octets in front of it. -/
def smallOpenSsl : OpenSsl where
  algid alg :=
    if alg = SignatureSet.slhDsa192s.nativeAlg then some [1] else none
  contextHonoured := true
  sign _ _ _ := .ok [7]
  verify spki _ _ signature :=
    if spki.take 5 = [0x30, 52, 1, 0x03, 49] then .ok (signature = [7])
    else .error (error (js "asn1 encoding routines"))

/-- noble, with the same signature. -/
def smallNoble : Noble where
  sign _ _ _ _ := .ok [7]
  verify set signature _ publicKey _ :=
    match publicKey with
    | .uint8Array b =>
        if b.length = set.publicKeyBytes then .ok (signature = [7])
        else .error (rangeError (js "publicKey of wrong length"))
    | _ => .error (typeError (js "expected Uint8Array"))

/-- A host whose `Buffer.from` takes an `ArrayBuffer`. -/
def bufferRuntime : Runtime :=
  { plainRuntime with
    bufferFrom := fun v =>
      match v with
      | .arrayBuffer b => .ok b
      | _ => .error (typeError (js "The first argument must be of type "
          ++ js "string or an instance of Buffer")) }

/-- Length octets that begin with a byte below 0x80 are that byte. -/
theorem derLength_short {n : Nat} {l : UInt8} {rest more : Bytes}
    (hl : l < 0x80) (h : derLength n ++ rest = l :: more) :
    n = l.toNat ∧ rest = more := by
  unfold derLength at h
  split at h
  next hn =>
    injection h with hl' hrest
    rw [← hl', Nat.toUInt8_eq, UInt8.toNat_ofNat']
    exact ⟨by omega, hrest⟩
  split at h
  next =>
    injection h with hl' _
    rw [← hl'] at hl
    exact absurd hl (by decide)
  next =>
    injection h with hl' _
    rw [← hl'] at hl
    exact absurd hl (by decide)

/-- The octets in front of a key of 48 bytes are in front of no other, since
the second length among them is that of the key. -/
theorem spki_head (b : Bytes) :
    (toSpki [1] b).take 5 = [0x30, 52, 1, 0x03, 49] ↔ b.length = 48 := by
  constructor
  · intro h
    have hwhole : toSpki [1] b
        = 0x30 :: 52 :: 1 :: 0x03 :: 49 :: (toSpki [1] b).drop 5 := by
      conv_lhs => rw [← List.take_append_drop 5 (toSpki [1] b), h]
      rfl
    rw [toSpki, der] at hwhole
    injection hwhole with _ hwhole
    obtain ⟨-, hwhole⟩ := derLength_short (by decide) hwhole
    rw [der] at hwhole
    injection hwhole with _ hwhole
    injection hwhole with _ hwhole
    obtain ⟨hlen, -⟩ := derLength_short (by decide) hwhole
    rw [List.length_cons] at hlen
    exact Nat.succ.inj hlen
  · intro h
    simp [toSpki, der, derLength, h]

/-- The only set here is SLH-DSA-SHA2-192s. -/
theorem smallOpenSsl_algid {set : SignatureSet} {algid : Bytes}
    (h : smallOpenSsl.algid set.nativeAlg = some algid) :
    algid = [1] ∧ set.publicKeyBytes = 48 := by
  rw [smallOpenSsl] at h
  simp only at h
  split at h
  next heq =>
    cases set with
    | slhDsa192s => exact ⟨(Option.some.inj h).symm, rfl⟩
    | mlDsa65 => exact absurd heq (by decide)
    | mlDsa87 => exact absurd heq (by decide)
  next => cases h

theorem small_agreement : Agreement smallOpenSsl smallNoble where
  verdict := by
    intro set algid b halg hb message context signature
    obtain ⟨rfl, hset⟩ := smallOpenSsl_algid halg
    simp only [smallOpenSsl, smallNoble]
    rw [if_pos ((spki_head b).mpr (hb.trans hset)), if_pos hb]
  keyChecked := by
    intro set publicKey hexact signature message context
    cases publicKey with
    | uint8Array b =>
        refine ⟨_, if_neg fun hb => hexact ⟨b, rfl, hb⟩⟩
    | _ => exact ⟨_, rfl⟩
  bitString := by
    intro set algid b halg hlen message context signature
    obtain ⟨rfl, hset⟩ := smallOpenSsl_algid halg
    have hne : b.length ≠ 48 := by
      intro h
      rw [lengthValue_derLength] at hlen
      omega
    exact ⟨_, if_neg fun h => hne ((spki_head b).mp h)⟩

/-- A key of the set's length has one outcome, under a library of the system
that reads that length out of the octets in front of the key. -/
theorem verify_sameOutcome_exact :
    SameOutcome
      (verify bufferRuntime ⟨some smallOpenSsl, smallNoble⟩ .slhDsa192s
        (.uint8Array (List.replicate 48 0)) (.string (js "m"))
        (.uint8Array [7]) .undefined)
      (verify bufferRuntime ⟨none, smallNoble⟩ .slhDsa192s
        (.uint8Array (List.replicate 48 0)) (.string (js "m"))
        (.uint8Array [7]) .undefined) :=
  (verify_sameOutcome_iff small_agreement).mpr fun
    ⟨_, _, _, _, _, _, _, _, _, _, _, hexact, _⟩ =>
      hexact ⟨_, rfl, List.length_replicate⟩

/-- **The failing input.** An `ArrayBuffer` that holds a key: OpenSSL is
handed the bytes and says true, noble refuses the value and the answer is
false. -/
theorem verify_arrayBuffer_differs :
    Agreement smallOpenSsl smallNoble
      ∧ ¬SameOutcome
        (slhDsa.verify bufferRuntime ⟨some smallOpenSsl, smallNoble⟩
          (.arrayBuffer (List.replicate 48 0)) (.string (js "m"))
          (.uint8Array [7]) .undefined)
        (slhDsa.verify bufferRuntime ⟨none, smallNoble⟩
          (.arrayBuffer (List.replicate 48 0)) (.string (js "m"))
          (.uint8Array [7]) .undefined) := by
  refine ⟨small_agreement, fun h => ?_⟩
  have hsame : some true = some false := h
  cases hsame

end KxcoPostQuantum.Signature
