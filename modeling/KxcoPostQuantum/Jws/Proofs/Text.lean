/-
The text of a payload.

`verifyJws` decodes the payload with a `TextDecoder` of default options,
which takes a leading U+FEFF for a byte order mark and drops it. A text
payload comes back unless it begins with one (`verifyJws_text`), and two
payloads that differ by a mark alone are the same text.

The bytes of the payload are not touched: what is lost is lost between
`payload` and `text`.
-/
import KxcoPostQuantum.Jws.Proofs.Header

namespace KxcoPostQuantum.Jws

open Lib.Utf8
open Signature (Backends)

variable {rt : Runtime} {backends : Backends}

-- ============================================================== text

/-- The text is the payload, decoded, whatever the key is. -/
theorem text_eq {token publicKey opts header : JsVal} {payload : Bytes}
    {text : JsString}
    (h : verifyJws rt backends token publicKey opts
      = .ok (.valid header payload text)) : text = textDecode payload := by
  cases hopts : notOptions (optionsOf opts) with
  | true =>
      unfold verifyJws at h
      simp [hopts] at h
  | false =>
      obtain ⟨_, _, _, _, d, _, _, _, hchecked⟩ :=
        (verifyJws_valid hopts).mp h
      obtain ⟨-, alg, spec, -, -, hlisted⟩ := checkToken_valid.mp hchecked
      rw [checkListed, check_valid, check_valid, check_valid, check_valid,
        bind_eq_ok] at hlisted
      obtain ⟨-, -, -, -, keyBytes, -, hlisted⟩ := hlisted
      rw [check_valid, check_valid, checkSignature_valid] at hlisted
      obtain ⟨-, -, -, -, rfl, htext⟩ := hlisted
      exact htext

/-- Valid UTF-8: the bytes of well-formed text. -/
def IsUtf8 (b : Bytes) : Prop := ∃ s, WellFormed s ∧ textEncode s = b

/-- Valid bytes are the same text when they are the same after a leading
mark. -/
theorem textDecode_eq_iff {b b' : Bytes} (hb : IsUtf8 b)
    (hb' : IsUtf8 b') :
    textDecode b = textDecode b' ↔ dropBom b = dropBom b' := by
  obtain ⟨s, hs, rfl⟩ := hb
  obtain ⟨t, ht, rfl⟩ := hb'
  rw [textDecode_encoded hs, textDecode_encoded ht, dropBom_textEncode hs,
    dropBom_textEncode ht]
  constructor
  · intro h
    rw [h]
  · intro h
    exact textEncode_injective hs.dropMark ht.dropMark h

-- ======================================================== round trip

/-- A header of nothing but its `alg` is kept: that is a string of the
table, and strings come back from the text as they were. -/
theorem kept_default {secretKey header alg : JsVal} {spec : Spec}
    {d : Option Lib.Json}
    (h : signedHeader rt secretKey (optionsOf .undefined)
      = .ok (spec, header))
    (halg : signingAlg secretKey (optionsOf .undefined) = .ok alg)
    (hd : serialize rt header false = .ok d) :
    Kept rt header alg .undefined := by
  obtain ⟨a, kid, halg', -, hkid⟩ := signedHeader_ok h
  cases halg.symm.trans halg'
  cases hkid
  have hextra : extraHeader (optionsOf .undefined)
      = .ok (.object [] []) := rfl
  have hnone : ∀ k, Unwritten rt [] k := by
    intro k v hv
    cases hv
  refine (kept_iff h halg' rfl hextra (fun r hr => ?_) hd).mpr
    ⟨hnone _, hnone _, Or.inl rfl⟩
  rw [toJson] at hr
  cases hr

/-- The token of a text verifies, with the text its bytes decode to. That
need not be the one that was signed: what encoding and decoding do to it is
asked apart. -/
theorem verifyJws_signed (hrt : rt.Lawful) {spec : Spec}
    {publicKey secretKey : Bytes}
    (hkeys : KeyPair rt backends spec publicKey secretKey)
    {s token : JsString} (hne : s ≠ [])
    (h : signJws rt backends (.string s) (.uint8Array secretKey) .undefined
      = .ok token) :
    ∃ header, verifyJws rt backends (.string token) (.uint8Array publicKey)
        .undefined
      = .ok (.valid header (textEncode s) (textDecode (textEncode s))) := by
  obtain ⟨bytes, header, alg, kid, hbytes, hheader, halg, hkid, hiff⟩ :=
    verifyJws_signJws_iff hrt hkeys h
  cases hbytes
  cases hkid
  obtain ⟨-, spec', header', text, -, -, hheader', htext, -⟩ :=
    signJws_token.mp h
  cases hheader.symm.trans hheader'
  obtain ⟨d, hd, -⟩ := stringify_ok.mp htext
  obtain ⟨v, -, hvalid, -⟩ := hiff.mpr
    ⟨mt textEncode_eq_nil.mp hne, kept_default hheader halg hd⟩
  exact ⟨v, hvalid⟩

/-- **The text of a payload.** A token of a non-empty well-formed string
comes back with that string exactly when it does not begin with U+FEFF.
And two valid tokens whose payloads are different valid UTF-8 have
different texts exactly when a leading mark is not all that the payloads
differ by. -/
theorem verifyJws_text (hrt : rt.Lawful) {spec : Spec}
    {publicKey secretKey : Bytes}
    (hkeys : KeyPair rt backends spec publicKey secretKey) :
    (∀ s token, s ≠ [] → WellFormed s →
      signJws rt backends (.string s) (.uint8Array secretKey) .undefined
        = .ok token →
      ((∃ header, verifyJws rt backends (.string token)
          (.uint8Array publicKey) .undefined
            = .ok (.valid header (textEncode s) s))
        ↔ s.head? ≠ some 0xFEFF))
    ∧ ∀ token token' key key' opts opts' header header' payload payload'
        text text',
      verifyJws rt backends token key opts
        = .ok (.valid header payload text) →
      verifyJws rt backends token' key' opts'
        = .ok (.valid header' payload' text') →
      IsUtf8 payload → IsUtf8 payload' → payload ≠ payload' →
      (text ≠ text' ↔ dropBom payload ≠ dropBom payload') := by
  constructor
  · intro s token hne hs hsigned
    obtain ⟨h, hvalid⟩ := verifyJws_signed hrt hkeys hne hsigned
    rw [← dropMark_eq_self, ← textDecode_encoded hs, hvalid]
    constructor
    · intro hx
      obtain ⟨header', hx⟩ := hx
      rw [Except.ok.injEq, VerifyResult.valid.injEq] at hx
      exact hx.2.2
    · intro hx
      exact ⟨h, by rw [hx]⟩
  · intro token token' key key' opts opts' header header' payload payload'
      text text' h h' hb hb' _
    rw [text_eq h, text_eq h', ne_eq, ne_eq, textDecode_eq_iff hb hb']

-- =========================================================== instances

/-- Without options the length of the key names the row. -/
theorem signingAlg_default {alg : JsString} {spec : Spec}
    (h : (alg, spec) ∈ ALGORITHMS) {secretKey : Bytes}
    (hs : secretKey.length = spec.secretKeyBytes) :
    signingAlg (.uint8Array secretKey) (optionsOf .undefined)
      = .ok (.string alg) := by
  have hsize : algorithmForSecretKey (.uint8Array secretKey)
      = .ok (some alg) := by
    change Except.ok _ = _
    rw [hs]
    simp only [ALGORITHMS, List.mem_cons, Prod.mk.injEq, List.not_mem_nil,
      or_false] at h
    obtain ⟨rfl, rfl⟩ | ⟨rfl, rfl⟩ := h <;>
      simp [ALGORITHMS, List.find?, JsVal.strictEquals]
  change (do
    let alg ← algorithmForSecretKey (.uint8Array secretKey)
    return JsVal.string (alg.getD defaultAlg)) = _
  rw [hsize]
  rfl

/-- The header of nothing but its `alg`. -/
def plain65 : JsVal := .object [(js "alg", .string (js "ML-DSA-65"))] []

/-- The token of a text and no options, with `sizedNoble`. -/
def plain65Token (s : JsString) : JsString :=
  tokenOf (encodeText (some (js "\x7b\"alg\":\"ML-DSA-65\"\x7d")))
    (textEncode s) (List.replicate 3309 7)

theorem plain65_signed (s : JsString) :
    signJws plainRuntime ⟨none, sizedNoble⟩ (.string s)
        (.uint8Array (List.replicate 4032 7)) .undefined
      = .ok (plain65Token s) := by
  have halg := @signingAlg_default _ _ named65_listed
    (List.replicate 4032 7) List.length_replicate
  have hheader : signedHeader plainRuntime
      (.uint8Array (List.replicate 4032 7)) (optionsOf .undefined)
        = .ok (⟨.mlDsa65, 1952, 4032, 3309⟩, plain65) := by
    rw [signedHeader, halg]
    rfl
  exact signJws_sized named65_listed List.length_replicate rfl hheader rfl
    rfl

/-- A text, signed and read back. It has no byte order mark in front and no
lone surrogate. -/
theorem verifyJws_text_sample :
    ∃ header, verifyJws plainRuntime ⟨none, sizedNoble⟩
        (.string (plain65Token (js "hi")))
        (.uint8Array (List.replicate 1952 7)) .undefined
      = .ok (.valid header (textEncode (js "hi")) (js "hi")) :=
  ((verifyJws_text plainRuntime_lawful named65_keyPair).1 (js "hi") _
    (by decide) (.unit (by decide) (by decide)
      (.unit (by decide) (by decide) .nil)) (plain65_signed _)).mpr
    (by decide)

/-- A text that begins with U+FEFF is signed and read back without it,
and is then the text of another token. -/
theorem mark_dropped :
    signJws plainRuntime ⟨none, sizedNoble⟩ (.string (0xFEFF :: js "a"))
        (.uint8Array (List.replicate 4032 7)) .undefined
          = .ok (plain65Token (0xFEFF :: js "a"))
      ∧ (∃ header, verifyJws plainRuntime ⟨none, sizedNoble⟩
          (.string (plain65Token (0xFEFF :: js "a")))
          (.uint8Array (List.replicate 1952 7)) .undefined
        = .ok (.valid header (textEncode (0xFEFF :: js "a")) (js "a")))
      ∧ ∃ header, verifyJws plainRuntime ⟨none, sizedNoble⟩
          (.string (plain65Token (js "a")))
          (.uint8Array (List.replicate 1952 7)) .undefined
        = .ok (.valid header (textEncode (js "a")) (js "a")) := by
  refine ⟨plain65_signed _, ?_, ?_⟩
  · exact verifyJws_signed plainRuntime_lawful named65_keyPair
      (List.cons_ne_nil 0xFEFF (js "a")) (plain65_signed _)
  · exact verifyJws_signed plainRuntime_lawful named65_keyPair
      (List.cons_ne_nil 97 []) (plain65_signed _)

end KxcoPostQuantum.Jws
