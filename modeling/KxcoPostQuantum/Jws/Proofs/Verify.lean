/-
What `verifyJws` accepts.

`Accepted` is the language of tokens, written without reference to how
the checks are ordered: a token of three byte strings, a JSON object with
a listed `alg`, the caller's pins, no extension members, the lengths of
the set and a signature of that set. `verifyJws_language` says that
`verifyJws` returns on every token and accepts this language.

# How the proof goes

Each check has a lemma for when it refuses nothing, and a lemma that it
returns; `check_valid` and `check_returns` chain them. That the checks
return rests on the header being plain data: none of its members runs
code, so none throws.
-/
import KxcoPostQuantum.Jws.Proofs.Segments

namespace KxcoPostQuantum.Jws

open Lib.Base64 Lib.Utf8
open Signature (Backends)

variable {rt : Runtime} {backends : Backends}

-- ============================================================== checks

section

variable {refusal : Except JsError (Option JsString)}
  {next : Except JsError VerifyResult}

/-- A token passes a check that refuses nothing, and then what is behind the
check decides. -/
theorem check_valid {h : JsVal} {payload : Bytes} {text : JsString} :
    check refusal next = .ok (.valid h payload text)
      ↔ refusal = .ok none ∧ next = .ok (.valid h payload text) := by
  rw [check, bind_eq_ok]
  constructor
  · intro hx
    obtain ⟨r, hr, hnext⟩ := hx
    cases r with
    | none => exact ⟨hr, hnext⟩
    | some e => cases hnext
  · intro hx
    obtain ⟨hr, hnext⟩ := hx
    exact ⟨none, hr, hnext⟩

/-- A check returns if its refusal does and what comes next does. -/
theorem check_returns (hr : ∃ r, refusal = .ok r)
    (hnext : ∃ r, next = .ok r) : ∃ r, check refusal next = .ok r := by
  obtain ⟨r, rfl⟩ := hr
  cases r with
  | none => exact hnext
  | some e => exact ⟨_, rfl⟩

end

/-- What follows a check matters only if it refuses nothing. -/
theorem check_congr {refusal : Except JsError (Option JsString)}
    {next next' : Except JsError VerifyResult}
    (h : refusal = .ok none → next = next') :
    check refusal next = check refusal next' := by
  cases refusal with
  | error e => rfl
  | ok r =>
      cases r with
      | none => exact h rfl
      | some e => rfl

/-- The caller's pin of a member: absent, or equal to the value. -/
def Pinned (opts : JsVal) (k : JsString) (v : JsVal) : Prop :=
  ∃ pin, opts.get k = .ok pin
    ∧ (pin = .undefined ∨ v.strictEquals pin = true)

/-- The algorithm is refused unless it is the pinned one, if one is
pinned. -/
theorem checkAlg_none {opts : JsVal} {alg : JsString} :
    checkAlg rt opts alg = .ok none ↔ Pinned opts (js "alg") (.string alg) := by
  rw [checkAlg, bind_eq_ok]
  refine exists_congr fun pin => and_congr_right fun _ => ?_
  rw [← JsVal.strictEquals_undefined, ← Bool.or_eq_true]
  split
  next h => exact iff_of_true rfl h
  next h =>
    refine iff_of_false (fun hok => ?_) h
    obtain ⟨_, -, hsome⟩ := bind_eq_ok.mp hok
    cases hsome

/-- The key's name is refused likewise: nothing is wrong with it if the
caller pinned none, or the header has the one that was pinned. -/
theorem checkKid_none {opts header : JsVal} :
    checkKid rt opts header = .ok none
      ↔ ∃ kid, header.get (js "kid") = .ok kid
        ∧ Pinned opts (js "kid") kid := by
  simp only [checkKid, bind_eq_ok]
  constructor
  · intro hx
    obtain ⟨pin, hpin, kid, hkid, h⟩ := hx
    refine ⟨kid, hkid, pin, hpin, ?_⟩
    rw [← JsVal.strictEquals_undefined, ← Bool.or_eq_true]
    by_contra hne
    rw [if_neg hne, bind_eq_ok] at h
    obtain ⟨_, -, h⟩ := h
    obtain ⟨_, -, h⟩ := bind_eq_ok.mp h
    cases h
  · intro hx
    obtain ⟨kid, hkid, pin, hpin, h⟩ := hx
    rw [← JsVal.strictEquals_undefined, ← Bool.or_eq_true] at h
    exact ⟨pin, hpin, kid, hkid, by rw [if_pos h]; rfl⟩

/-- A member is refused unless it is undefined. -/
theorem checkAbsent_none {header : JsVal} {k message : JsString} :
    checkAbsent header k message = .ok none
      ↔ header.get k = .ok .undefined := by
  rw [checkAbsent, bind_eq_ok]
  constructor
  · intro hx
    obtain ⟨v, hv, h⟩ := hx
    split at h
    next hundefined =>
      rw [hv, JsVal.strictEquals_undefined.mp hundefined]
    next => cases h
  · intro h
    exact ⟨_, h, rfl⟩

/-- A length is refused unless it is the expected one. -/
theorem checkLength_none {what whats alg : JsString} {length expected : Nat} :
    checkLength what whats alg length expected = none
      ↔ length = expected := by
  rw [checkLength]
  split
  next h => exact iff_of_true rfl h
  next h => exact iff_of_false nofun h

/-- The signature check accepts what the set's own `verify` accepts of the
two segments as they stand in the token, and then returns the header, the
payload and its text. -/
theorem checkSignature_valid {spec : Spec} {d : Decoded}
    {keyBytes : Bytes} {p q : JsString} {h : JsVal} {payload : Bytes}
    {text : JsString} :
    checkSignature rt backends spec d keyBytes p q
        = .ok (.valid h payload text)
      ↔ Signature.verify rt backends spec.mod (.uint8Array keyBytes)
          (.uint8Array (signingInput p q))
          (.string (bytesToHex d.signature)) .undefined = .ok (some true)
        ∧ h = d.header ∧ payload = d.payload
        ∧ text = textDecode d.payload := by
  rw [checkSignature, bind_eq_ok]
  constructor
  · intro hx
    obtain ⟨ok, hok, hvalid⟩ := hx
    split at hvalid
    next htrue =>
      cases hvalid
      exact ⟨by rw [hok, htrue], rfl, rfl, rfl⟩
    next => cases hvalid
  · intro hx
    obtain ⟨hok, rfl, rfl, rfl⟩ := hx
    exact ⟨_, hok, rfl⟩

/-- What passes the checks of a token whose `alg` is listed: the two pins, a
header without `crit` and without `b64`, a key and a signature of the
lengths of the row, and the signature itself. -/
theorem checkListed_valid {spec : Spec} {alg : JsString} {d : Decoded}
    {publicKey : Bytes} {opts : JsVal} {p q : JsString} {h : JsVal}
    {payload : Bytes} {text : JsString} :
    checkListed rt backends spec alg d (.uint8Array publicKey) opts p q
        = .ok (.valid h payload text)
      ↔ Pinned opts (js "alg") (.string alg)
        ∧ (∃ kid, d.header.get (js "kid") = .ok kid
          ∧ Pinned opts (js "kid") kid)
        ∧ d.header.get (js "crit") = .ok .undefined
        ∧ d.header.get (js "b64") = .ok .undefined
        ∧ publicKey.length = spec.publicKeyBytes
        ∧ d.signature.length = spec.signatureBytes
        ∧ Signature.verify rt backends spec.mod (.uint8Array publicKey)
          (.uint8Array (signingInput p q))
          (.string (bytesToHex d.signature)) .undefined = .ok (some true)
        ∧ h = d.header ∧ payload = d.payload
        ∧ text = textDecode d.payload := by
  have hkey : keyBytesOf rt (.uint8Array publicKey) = .ok publicKey := rfl
  rw [checkListed, check_valid, check_valid, check_valid, check_valid,
    checkAlg_none, checkKid_none, checkAbsent_none, checkAbsent_none,
    bind_eq_ok]
  simp only [hkey, Except.ok.injEq, exists_eq_left', check_valid,
    checkLength_none, checkSignature_valid]

/-- What passes the checks of a decoded token: its header is an object,
whose `alg` names a row of the table, and the checks that are left are made
with that row. -/
theorem checkToken_valid {d : Decoded} {publicKey opts : JsVal}
    {p q : JsString} {h : JsVal} {payload : Bytes} {text : JsString} :
    checkToken rt backends d publicKey opts p q
        = .ok (.valid h payload text)
      ↔ isHeaderObject d.header = true ∧ ∃ alg spec,
        d.header.get (js "alg") = .ok (.string alg)
        ∧ algorithmFor (.string alg) = some spec
        ∧ checkListed rt backends spec alg d publicKey opts p q
          = .ok (.valid h payload text) := by
  unfold checkToken
  split
  next hobject =>
    rw [bind_eq_ok]
    constructor
    · intro hx
      obtain ⟨headerAlg, halg, hvalid⟩ := hx
      split at hvalid
      next alg spec hspec =>
        exact ⟨hobject, alg, spec, halg, hspec, hvalid⟩
      next =>
        obtain ⟨_, -, h⟩ := bind_eq_ok.mp hvalid
        cases h
    · intro hx
      obtain ⟨-, alg, spec, halg, hspec, hvalid⟩ := hx
      refine ⟨_, halg, ?_⟩
      rw [hspec]
      exact hvalid
  next hobject => exact iff_of_false nofun fun ⟨h, _⟩ => hobject h

/-- What `verifyJws` accepts, as its stages have it: a string of three
segments that decode, and that then pass the checks. Whatever is thrown on
the way is no acceptance. -/
theorem verifyJws_valid {token publicKey opts : JsVal} {h : JsVal}
    {payload : Bytes} {text : JsString}
    (hopts : notOptions (optionsOf opts) = false) :
    verifyJws rt backends token publicKey opts
        = .ok (.valid h payload text)
      ↔ ∃ t p q r d, token = .string t ∧ t.splitOn 46 = [p, q, r]
        ∧ decodeSegments rt p q r = .ok d
        ∧ checkToken rt backends d publicKey (optionsOf opts) p q
          = .ok (.valid h payload text) := by
  unfold verifyJws
  simp only [hopts, Bool.false_eq_true, if_false]
  constructor
  · intro hvalid
    split at hvalid
    next t =>
      split at hvalid
      next p q r hsplit =>
        split at hvalid
        next d hd => exact ⟨t, p, q, r, d, rfl, hsplit, hd, hvalid⟩
        next => cases hvalid
      next => cases hvalid
    next => cases hvalid
  · intro hx
    obtain ⟨t, p, q, r, d, rfl, hsplit, hd, hvalid⟩ := hx
    simp only [hsplit, hd]
    exact hvalid

-- ================================================= reaching the check

/-- `verifyJws` gets to its signature check, and the bytes it checks are
`message`: every check before that one refuses nothing. -/
def Reaches (rt : Runtime) (token publicKey opts : JsVal)
    (message : Bytes) : Prop :=
  ∃ t p q r d alg spec keyBytes, notOptions (optionsOf opts) = false
    ∧ token = .string t ∧ t.splitOn 46 = [p, q, r]
    ∧ decodeSegments rt p q r = .ok d ∧ isHeaderObject d.header = true
    ∧ d.header.get (js "alg") = .ok (.string alg)
    ∧ algorithmFor (.string alg) = some spec
    ∧ checkAlg rt (optionsOf opts) alg = .ok none
    ∧ checkKid rt (optionsOf opts) d.header = .ok none
    ∧ d.header.get (js "crit") = .ok .undefined
    ∧ d.header.get (js "b64") = .ok .undefined
    ∧ keyBytesOf rt publicKey = .ok keyBytes
    ∧ keyBytes.length = spec.publicKeyBytes
    ∧ d.signature.length = spec.signatureBytes
    ∧ message = signingInput p q

/-- A run that does not get to the signature check does not depend on the
primitives. -/
theorem verifyJws_of_not_reaches {token publicKey opts : JsVal}
    (h : ∀ message, ¬Reaches rt token publicKey opts message)
    (backends' : Backends) :
    verifyJws rt backends token publicKey opts
      = verifyJws rt backends' token publicKey opts := by
  unfold verifyJws
  simp only
  split
  next => rfl
  next hopts =>
  split
  next t =>
    split
    next p q r hsplit =>
      split
      next d hd =>
        unfold checkToken
        split
        next hobject =>
          refine bind_congr_ok fun headerAlg halg => ?_
          split
          next alg spec hspec =>
            refine check_congr fun hpin => check_congr fun hkid =>
              check_congr fun hcrit => check_congr fun hb64 =>
                bind_congr_ok fun keyBytes hkey => check_congr fun hlength =>
                  check_congr fun hsig => ?_
            rw [checkAbsent_none] at hcrit hb64
            rw [Except.ok.injEq, checkLength_none] at hlength hsig
            refine absurd ?_ (h (signingInput p q))
            exact ⟨t, p, q, r, d, alg, spec, keyBytes,
              Bool.eq_false_of_not_eq_true hopts, rfl, hsplit, hd, hobject,
              halg, hspec, hpin, hkid, hcrit, hb64, hkey, hlength, hsig, rfl⟩
          next => rfl
        next => rfl
      next => rfl
    next => rfl
  next => rfl

-- =========================================================== returning

/-- Options whose `alg` and `kid` are absent or strings. -/
structure VerifyOptions (opts : JsVal) (alg kid : Option JsString) :
    Prop where
  object : notOptions (optionsOf opts) = false
  alg : (optionsOf opts).get (js "alg")
    = .ok (alg.elim .undefined .string)
  kid : (optionsOf opts).get (js "kid")
    = .ok (kid.elim .undefined .string)

/-- A member that is pinned to a string or not at all. -/
theorem pinned_iff {opts v : JsVal} {k : JsString} {pin : Option JsString}
    (h : opts.get k = .ok (pin.elim .undefined .string)) :
    Pinned opts k v ↔ ∀ s ∈ pin, v = .string s := by
  cases pin with
  | none =>
      exact iff_of_true ⟨_, h, Or.inl rfl⟩ nofun
  | some s =>
      rw [Pinned, h]
      simp [JsVal.strictEquals_string]

/-- A pin is a string or absent, so naming it does not throw. -/
theorem template_pin {pin : Option JsString}
    (hne : ¬(pin.elim JsVal.undefined .string).strictEquals .undefined) :
    ∃ s, template rt (pin.elim .undefined .string) = .ok s := by
  cases pin with
  | none => exact absurd rfl hne
  | some s => exact ⟨s, rfl⟩

/-- A plain value can be named in a message. -/
theorem named_returns {v : JsVal} (hv : v = .undefined ∨ Plain v) :
    ∃ s, named rt v = .ok s := by
  rcases hv with rfl | hv
  · exact ⟨js "undefined", rfl⟩
  · obtain ⟨text, htext⟩ := hv.stringify rt
    unfold named
    split
    next s => exact ⟨s, rfl⟩
    next => exact ⟨text, by rw [htext]; rfl⟩

section

variable {opts : JsVal} {algPin kidPin : Option JsString}

/-- The check of the algorithm returns. -/
theorem checkAlg_returns (hopts : VerifyOptions opts algPin kidPin)
    (alg : JsString) :
    ∃ r, checkAlg rt (optionsOf opts) alg = .ok r := by
  refine bind_returns ⟨_, hopts.alg⟩ fun pin hpin => ?_
  rw [hopts.alg] at hpin
  cases hpin
  split
  next => exact ⟨_, rfl⟩
  next h =>
    rw [Bool.or_eq_true, not_or] at h
    exact bind_returns (template_pin h.1) fun _ _ => ⟨_, rfl⟩

/-- The check of the key's name returns. -/
theorem checkKid_returns (hopts : VerifyOptions opts algPin kidPin)
    {own : List (JsString × JsVal)} (hown : Plain (.object own [])) :
    ∃ r, checkKid rt (optionsOf opts) (.object own []) = .ok r := by
  obtain ⟨kid, hkid, hplain⟩ := hown.get (js "kid")
  refine bind_returns ⟨_, hopts.kid⟩ fun pin hpin => ?_
  refine bind_returns ⟨_, hkid⟩ fun kid' hkid' => ?_
  rw [hopts.kid] at hpin
  rw [hkid] at hkid'
  cases hpin
  cases hkid'
  split
  next => exact ⟨_, rfl⟩
  next h =>
    rw [Bool.or_eq_true, not_or] at h
    have hdeclared : ∃ t, declaredKid rt kid = .ok t := by
      unfold declaredKid
      split
      next => exact ⟨_, rfl⟩
      next => exact named_returns hplain
    exact bind_returns hdeclared fun _ _ =>
      bind_returns (template_pin h.1) fun _ _ => ⟨_, rfl⟩

/-- The check of a member returns. -/
theorem checkAbsent_returns {own : List (JsString × JsVal)}
    (hown : Plain (.object own [])) (k message : JsString) :
    ∃ r, checkAbsent (.object own []) k message = .ok r := by
  obtain ⟨v, hv, -⟩ := hown.get k
  exact bind_returns ⟨v, hv⟩ fun _ _ => ⟨_, rfl⟩

/-- The check of the signature returns. -/
theorem checkSignature_returns (spec : Spec) (d : Decoded)
    (keyBytes : Bytes) (p q : JsString) :
    ∃ r, checkSignature rt backends spec d keyBytes p q = .ok r := by
  refine bind_returns
    ⟨_, Signature.verify_ok Signature.normalizeContext_undefined⟩
    fun ok _ => ?_
  split
  next => exact ⟨_, rfl⟩
  next => exact ⟨_, rfl⟩

/-- Plain data that passes for a header is an object of plain data. -/
theorem object_of_isHeaderObject {v : JsVal} (hv : Plain v)
    (hobject : isHeaderObject v = true) : ∃ own, v = .object own [] := by
  cases hv with
  | object => exact ⟨_, rfl⟩
  | null | bool | number | string | array =>
      simp [isHeaderObject, JsVal.isObjectType, JsVal.isArray,
        JsVal.truthy] at hobject

/-- The checks return on a plain header, which can be read without throwing,
given options that can. So the refusals of a token are results, not
errors. -/
theorem checkToken_returns (hopts : VerifyOptions opts algPin kidPin)
    {d : Decoded} (hplain : Plain d.header) (publicKey : Bytes)
    (p q : JsString) :
    ∃ r, checkToken rt backends d (.uint8Array publicKey) (optionsOf opts)
      p q = .ok r := by
  rw [checkToken]
  split
  next hobject =>
    obtain ⟨own, hown⟩ := object_of_isHeaderObject hplain hobject
    rw [hown] at hplain
    obtain ⟨headerAlg, halg, hplainAlg⟩ := hplain.get (js "alg")
    rw [hown]
    refine bind_returns ⟨_, halg⟩ fun v hv => ?_
    rw [halg] at hv
    cases hv
    split
    next alg spec _ =>
      rw [checkListed, hown]
      refine check_returns (checkAlg_returns hopts alg)
        (check_returns (checkKid_returns hopts hplain)
          (check_returns (checkAbsent_returns hplain _ _)
            (check_returns (checkAbsent_returns hplain _ _) ?_)))
      exact check_returns ⟨_, rfl⟩ (check_returns ⟨_, rfl⟩
        (checkSignature_returns spec d publicKey p q))
    next =>
      exact bind_returns (named_returns hplainAlg) fun _ _ => ⟨_, rfl⟩
  next => exact ⟨_, rfl⟩

/-- A decoded header is plain data. -/
theorem decodeSegments_plain {p q r : JsString} {d : Decoded}
    (h : decodeSegments rt p q r = .ok d) : Plain d.header := by
  obtain ⟨header, -, hj, -⟩ := (decodeSegments_ok rt).mp h
  rw [jsonParse] at hj
  split at hj
  next j _ =>
    rw [← Except.ok.inj hj]
    exact plain_toValue rt j
  next => cases hj

/-- `verifyJws` never throws, given a key of bytes and options that can be
read: what it does not accept it answers. -/
theorem verifyJws_returns (hopts : VerifyOptions opts algPin kidPin)
    (token : JsVal) (publicKey : Bytes) :
    ∃ r, verifyJws rt backends token (.uint8Array publicKey) opts
      = .ok r := by
  unfold verifyJws
  simp only [hopts.object, Bool.false_eq_true, if_false]
  split
  next t =>
    split
    next p q r _ =>
      split
      next d hd =>
        exact checkToken_returns hopts (decodeSegments_plain hd) publicKey p q
      next => exact ⟨_, rfl⟩
    next => exact ⟨_, rfl⟩
  next => exact ⟨_, rfl⟩

end

-- ========================================================== language

/-- **The language of tokens.** -/
def Accepted (rt : Runtime) (backends : Backends) (token : JsString)
    (publicKey : Bytes) (algPin kidPin : Option JsString) (header : JsVal)
    (payload : Bytes) : Prop :=
  ∃ headerBytes signature members alg spec,
    -- three non-empty canonical segments
    token = tokenOf headerBytes payload signature
      ∧ headerBytes ≠ [] ∧ payload ≠ [] ∧ signature ≠ []
      -- the first is a JSON object with a listed `alg`
      ∧ Lib.Json.parse (textDecode headerBytes) = some (.object members)
      ∧ header = toValue rt (.object members)
      ∧ header.get (js "alg") = .ok (.string alg)
      ∧ (alg, spec) ∈ ALGORITHMS
      -- the pins hold, and no extension is declared
      ∧ (∀ a ∈ algPin, a = alg)
      ∧ (∀ k ∈ kidPin, header.get (js "kid") = .ok (.string k))
      ∧ header.get (js "crit") = .ok .undefined
      ∧ header.get (js "b64") = .ok .undefined
      -- the lengths are the set's, and its `verify` accepts
      ∧ publicKey.length = spec.publicKeyBytes
      ∧ signature.length = spec.signatureBytes
      ∧ Signature.verify rt backends spec.mod (.uint8Array publicKey)
          (.uint8Array (asciiBytes
            (encodeUrl headerBytes ++ js "." ++ encodeUrl payload)))
          (.string (bytesToHex signature)) .undefined = .ok (some true)

/-- An algorithm is known by its name in the table. -/
theorem algorithmFor_string {alg : JsString} {spec : Spec} :
    algorithmFor (.string alg) = some spec ↔ (alg, spec) ∈ ALGORITHMS := by
  have hrow : ∀ s : Spec, some s = some spec ↔ spec = s := by
    intro s
    rw [Option.some_inj, eq_comm]
  rw [algorithmFor, ALGORITHMS, List.lookup_cons, List.lookup_cons,
    List.lookup_nil, List.mem_cons, List.mem_singleton, Prod.mk.injEq,
    Prod.mk.injEq]
  by_cases h65 : alg = js "ML-DSA-65"
  · have hne : ¬alg = js "ML-DSA-87" := by
      rw [h65]
      decide
    simp [h65, hrow, show ¬js "ML-DSA-65" = js "ML-DSA-87" by decide]
  · rw [beq_false_of_ne h65]
    by_cases h87 : alg = js "ML-DSA-87"
    · simp [h87, hrow, show ¬js "ML-DSA-87" = js "ML-DSA-65" by decide]
    · rw [beq_false_of_ne h87]
      simp [h65, h87]

/-- What a header segment decodes to. -/
theorem jsonParse_ok {text : JsString} {v : JsVal} :
    jsonParse rt text = .ok v
      ↔ ∃ j, Lib.Json.parse text = some j ∧ v = toValue rt j := by
  rw [jsonParse]
  cases Lib.Json.parse text with
  | none => simp
  | some j => simp [eq_comm]

/-- Only an object passes for a header. -/
theorem isHeaderObject_toValue (j : Lib.Json) :
    isHeaderObject (toValue rt j) = true ↔ ∃ members, j = .object members := by
  cases j with
  | object members =>
      refine iff_of_true ?_ ⟨members, rfl⟩
      rw [toValue]
      rfl
  | _ =>
      refine iff_of_false (fun h => ?_) nofun
      simp [toValue, isHeaderObject, JsVal.isObjectType, JsVal.isArray,
        JsVal.truthy] at h

/-- The segments of an accepted token are encodings: of a text that parses
to an object, and of two byte strings that are not empty. Each byte string
has one encoding, so the segments are determined. -/
theorem decodeSegments_string {p q r : JsString} {d : Decoded} :
    decodeSegments rt p q r = .ok d ∧ isHeaderObject d.header = true
      ↔ ∃ headerBytes members, headerBytes ≠ [] ∧ d.payload ≠ []
        ∧ d.signature ≠ [] ∧ p = encodeUrl headerBytes
        ∧ q = encodeUrl d.payload ∧ r = encodeUrl d.signature
        ∧ Lib.Json.parse (textDecode headerBytes) = some (.object members)
        ∧ d.header = toValue rt (.object members) := by
  have hne : ∀ {s : JsString} {x : Bytes}, s ≠ [] ∧ s = encodeUrl x
      ↔ x ≠ [] ∧ s = encodeUrl x := by
    intro s x
    constructor
    · intro h'
      obtain ⟨hs, rfl⟩ := h'
      exact ⟨fun h => hs (encodeUrl_eq_nil.mpr h), rfl⟩
    · intro h'
      obtain ⟨hx, rfl⟩ := h'
      exact ⟨fun h => hx (encodeUrl_eq_nil.mp h), rfl⟩
  simp only [decodeSegments_ok, strictB64url_iff, jsonParse_ok, hne]
  constructor
  · intro h'
    obtain ⟨⟨hb, ⟨hhb, hp⟩, ⟨j, hj, hv⟩, ⟨hpay, hq⟩, hsig, hr⟩, hobject⟩ :=
      h'
    rw [hv, isHeaderObject_toValue] at hobject
    obtain ⟨members, rfl⟩ := hobject
    exact ⟨hb, members, hhb, hpay, hsig, hp, hq, hr, hj, hv⟩
  · intro h'
    obtain ⟨hb, members, hhb, hpay, hsig, hp, hq, hr, hj, hv⟩ := h'
    refine ⟨⟨hb, ⟨hhb, hp⟩, ⟨_, hj, hv⟩, ⟨hpay, hq⟩, hsig, hr⟩, ?_⟩
    rw [hv, isHeaderObject_toValue]
    exact ⟨members, rfl⟩

/-- A signing input of canonical segments is ASCII. -/
theorem signingInput_eq (header payload : Bytes) :
    signingInput (encodeUrl header) (encodeUrl payload)
      = asciiBytes (encodeUrl header ++ js "." ++ encodeUrl payload) :=
  textEncode_ascii (segments_ascii header payload)

/-- The conditions on a token of three byte strings, the pins as the
options have them. -/
structure TokenValid (rt : Runtime) (backends : Backends) (opts : JsVal)
    (publicKey headerBytes payload signature : Bytes)
    (members : List (JsString × Lib.Json)) (alg : JsString) (spec : Spec)
    (header kid : JsVal) : Prop where
  header_ne : headerBytes ≠ []
  payload_ne : payload ≠ []
  signature_ne : signature ≠ []
  object : Lib.Json.parse (textDecode headerBytes) = some (.object members)
  header_eq : header = toValue rt (.object members)
  alg_eq : header.get (js "alg") = .ok (.string alg)
  listed : (alg, spec) ∈ ALGORITHMS
  algPin : Pinned opts (js "alg") (.string alg)
  kid_eq : header.get (js "kid") = .ok kid
  kidPin : Pinned opts (js "kid") kid
  crit : header.get (js "crit") = .ok .undefined
  b64 : header.get (js "b64") = .ok .undefined
  key_length : publicKey.length = spec.publicKeyBytes
  signature_length : signature.length = spec.signatureBytes
  verifies : Signature.verify rt backends spec.mod (.uint8Array publicKey)
    (.uint8Array (signingInput (encodeUrl headerBytes) (encodeUrl payload)))
    (.string (bytesToHex signature)) .undefined = .ok (some true)

/-- What `verifyJws` accepts, by the bytes of the token: it is the token of
three byte strings, and these pass the checks. The text is gone from the
statement. -/
theorem verifyJws_token {token : JsVal} {opts : JsVal} {publicKey : Bytes}
    {header : JsVal} {payload : Bytes} {text : JsString}
    (hopts : notOptions (optionsOf opts) = false) :
    verifyJws rt backends token (.uint8Array publicKey) opts
        = .ok (.valid header payload text)
      ↔ text = textDecode payload ∧ ∃ headerBytes signature members alg spec
          kid, token = .string (tokenOf headerBytes payload signature)
        ∧ TokenValid rt backends (optionsOf opts) publicKey headerBytes
          payload signature members alg spec header kid := by
  rw [verifyJws_valid hopts]
  simp only [checkToken_valid, checkListed_valid, algorithmFor_string]
  constructor
  · intro hx
    obtain ⟨t, p, q, r, d, rfl, hsplit, hd, hobject, alg, spec, halg, hspec,
      hpin, ⟨kid, hkid, hkidPin⟩, hcrit, hb64, hkey, hsig, hverify, rfl,
      rfl, rfl⟩ := hx
    obtain ⟨hb, members, hhb, hpay, hne, rfl, rfl, rfl, hj, hv⟩ :=
      decodeSegments_string.mp ⟨hd, hobject⟩
    exact ⟨rfl, hb, d.signature, members, alg, spec, kid,
      congrArg JsVal.string (Jws.eq_tokenOf hsplit), hhb, hpay, hne, hj, hv,
      halg, hspec, hpin, hkid, hkidPin, hcrit, hb64, hkey, hsig, hverify⟩
  · intro hx
    obtain ⟨rfl, hb, signature, members, alg, spec, kid, rfl, h⟩ := hx
    obtain ⟨hd, hobject⟩ := (decodeSegments_string (d :=
      ⟨header, payload, signature⟩)).mpr ⟨hb, members, h.header_ne,
        h.payload_ne, h.signature_ne, rfl, rfl, rfl, h.object, h.header_eq⟩
    exact ⟨_, _, _, _, _, rfl, splitOn_token hb payload signature, hd,
      hobject, alg, spec, h.alg_eq, h.listed, h.algPin,
      ⟨kid, h.kid_eq, h.kidPin⟩, h.crit, h.b64, h.key_length,
      h.signature_length, h.verifies, rfl, rfl, rfl⟩

/-- `verifyJws` accepts the language, and no other token. Both directions go
through the members of the header, which are those of its text, without two
of one name. -/
theorem verifyJws_accepts {opts : JsVal} {algPin kidPin : Option JsString}
    (hopts : VerifyOptions opts algPin kidPin) {token : JsVal}
    {publicKey : Bytes} {header : JsVal} {payload : Bytes}
    {text : JsString} :
    verifyJws rt backends token (.uint8Array publicKey) opts
        = .ok (.valid header payload text)
      ↔ text = textDecode payload ∧ ∃ t, token = .string t
        ∧ Accepted rt backends t publicKey algPin kidPin header payload := by
  rw [verifyJws_token hopts.object]
  refine and_congr_right fun _ => ?_
  constructor
  · intro hx
    obtain ⟨hb, signature, members, alg, spec, kid, rfl, h⟩ := hx
    have hverify := h.verifies
    rw [signingInput_eq] at hverify
    refine ⟨_, rfl, hb, signature, members, alg, spec, rfl, h.header_ne,
      h.payload_ne, h.signature_ne, h.object, h.header_eq, h.alg_eq,
      h.listed, ?_, ?_, h.crit, h.b64, h.key_length, h.signature_length,
      hverify⟩
    · intro a ha
      exact (JsVal.string.inj ((pinned_iff hopts.alg).mp h.algPin a ha)).symm
    · intro k hk
      rw [h.kid_eq, (pinned_iff hopts.kid).mp h.kidPin k hk]
  · intro hx
    obtain ⟨t, rfl, hb, signature, members, alg, spec, rfl, hhb, hpay, hne,
      hj, rfl, halg, hspec, hpin, hkidPin, hcrit, hb64, hkey, hsig, hverify⟩
      := hx
    rw [← signingInput_eq] at hverify
    obtain ⟨kid, hkid, -⟩ : ∃ kid, (toValue rt (.object members)).get
        (js "kid") = .ok kid ∧ (kid = .undefined ∨ Plain kid) := by
      have hplain := plain_toValue rt (.object members)
      rw [toValue, objectOf] at hplain ⊢
      exact hplain.get (js "kid")
    refine ⟨hb, signature, members, alg, spec, kid, rfl, hhb, hpay, hne, hj,
      rfl, halg, hspec, ?_, hkid, ?_, hcrit, hb64, hkey, hsig, hverify⟩
    · exact (pinned_iff hopts.alg).mpr fun a ha => by rw [hpin a ha]
    · refine (pinned_iff hopts.kid).mpr fun k hk => ?_
      rw [hkidPin k hk] at hkid
      exact (Except.ok.inj hkid).symm

/-- **Fail closed, accept exactly the language.** On every token value,
with a `Uint8Array` key and pins that are absent or strings, `verifyJws`
returns; it returns `valid` exactly on the tokens of the language, with
their header and payload; and then `decodeJwsHeader` reads the same
header. -/
theorem verifyJws_language {opts : JsVal} {algPin kidPin : Option JsString}
    (hopts : VerifyOptions opts algPin kidPin) (token : JsVal)
    (publicKey : Bytes) :
    ∃ result,
      verifyJws rt backends token (.uint8Array publicKey) opts = .ok result
      ∧ (∀ header payload text, result = .valid header payload text
        ↔ text = textDecode payload ∧ ∃ t, token = .string t
          ∧ Accepted rt backends t publicKey algPin kidPin header payload)
      ∧ ∀ header payload text, result = .valid header payload text →
        decodeJwsHeader rt token = some header := by
  obtain ⟨result, hresult⟩ := verifyJws_returns hopts token publicKey
  have haccepts : ∀ header payload text,
      result = .valid header payload text ↔ text = textDecode payload
        ∧ ∃ t, token = .string t
          ∧ Accepted rt backends t publicKey algPin kidPin header payload := by
    intro header payload text
    rw [← verifyJws_accepts hopts, hresult, Except.ok.injEq]
  refine ⟨result, hresult, haccepts, ?_⟩
  intro header payload text hvalid
  obtain ⟨-, t, rfl, hb, signature, members, alg, spec, rfl, hhb, hpay, hne,
    hj, rfl, -⟩ := (haccepts header payload text).mp hvalid
  obtain ⟨hd, hobject⟩ := (@decodeSegments_string rt _ _ _
    ⟨toValue rt (.object members), payload, signature⟩).mpr
      ⟨hb, members, hhb, hpay, hne, rfl, rfl, rfl, hj, rfl⟩
  rw [decodeSegments, bind_eq_ok] at hd
  obtain ⟨v, hv, hrest⟩ := hd
  have hheader : v = toValue rt (.object members) := by
    obtain ⟨_, -, hrest⟩ := bind_eq_ok.mp hrest
    obtain ⟨_, -, hrest⟩ := bind_eq_ok.mp hrest
    rw [pure_eq_ok] at hrest
    exact congrArg Decoded.header hrest
  simp only [decodeJwsHeader, splitOn_token, List.headD_cons, hv, hheader]
  exact if_pos hobject

/-- A noble that accepts every signature. -/
def acceptingNoble : Signature.Noble where
  sign _ _ _ _ := .ok []
  verify _ _ _ _ _ := .ok true

/-- Without OpenSSL, what noble accepts `verify` accepts. -/
theorem verify_noble {noble : Signature.Noble}
    {set : Signature.SignatureSet} {publicKey : JsVal}
    {message signature : Bytes}
    (h : noble.verify set signature message publicKey none = .ok true) :
    Signature.verify rt ⟨none, noble⟩ set publicKey (.uint8Array message)
      (.string (bytesToHex signature)) .undefined = .ok (some true) := by
  have hsig : Signature.signatureBytes (.string (bytesToHex signature))
      = .ok signature := hexToBytes_bytesToHex signature
  rw [Signature.verify_ok Signature.normalizeContext_undefined,
    Signature.verifyWith]
  simp only [Signature.usesNative, Option.filter_none, hsig]
  change (((noble.verify set signature message publicKey none).map
    some).toOption.getD (some false) |> Except.ok) = _
  rw [h]
  rfl

/-- A token with its `alg` and its `kid` pinned. -/
theorem verifyJws_language_pinned :
    verifyJws plainRuntime ⟨none, acceptingNoble⟩
        (.string (tokenOf
          (textEncode (js "\x7b\"alg\":\"ML-DSA-65\",\"kid\":\"k\"\x7d")) [1]
          (List.replicate 3309 7)))
        (.uint8Array (List.replicate 1952 7))
        (.object [(js "alg", .string (js "ML-DSA-65")),
          (js "kid", .string (js "k"))] [])
      = .ok (.valid
        (.object [(js "alg", .string (js "ML-DSA-65")),
          (js "kid", .string (js "k"))] []) [1] [1]) := by
  have hopts : VerifyOptions (.object [(js "alg", .string (js "ML-DSA-65")),
      (js "kid", .string (js "k"))] []) (some (js "ML-DSA-65"))
      (some (js "k")) := ⟨rfl, rfl, rfl⟩
  obtain ⟨result, hresult, haccepts, -⟩ :=
    @verifyJws_language plainRuntime ⟨none, acceptingNoble⟩ _ _ _ hopts
      (.string (tokenOf
        (textEncode (js "\x7b\"alg\":\"ML-DSA-65\",\"kid\":\"k\"\x7d")) [1]
        (List.replicate 3309 7))) (List.replicate 1952 7)
  rw [hresult, (haccepts _ _ _).mpr ⟨rfl, _, rfl, _, _,
    [(js "alg", .string (js "ML-DSA-65")), (js "kid", .string (js "k"))],
    _, ⟨.mlDsa65, 1952, 4032, 3309⟩, rfl, by decide, by decide, nofun,
    rfl, rfl, rfl, by decide, by rintro _ ⟨⟩; rfl,
    by rintro _ ⟨⟩; rfl, rfl, rfl, List.length_replicate,
    List.length_replicate, verify_noble rfl⟩]
  rfl

end KxcoPostQuantum.Jws
