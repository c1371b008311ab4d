/-
Signatures that arrive as hex.

`verify` answers true of a text exactly when the text is pairs of
hexadecimal digits and the backend it picked accepts the bytes they spell.
Every other text is refused before any backend sees it, and with `false`,
not with a throw: `verify` catches what `hexToBytes` throws.
-/
import KxcoPostQuantum.Signature.Modules

namespace KxcoPostQuantum

namespace Signature

-- ========================================================= the primitive

variable {rt : Runtime} {backends : Backends} {set : SignatureSet}
  {publicKey message : Bytes}

/-- The primitive of the set accepts a signature: OpenSSL's where the
module uses it, noble's elsewhere. -/
def Accepts (rt : Runtime) (backends : Backends) (set : SignatureSet)
    (publicKey message signature : Bytes) : Prop :=
  match usesNative rt backends set none with
  | some native => ∃ algid, native.algid set.nativeAlg = some algid
      ∧ native.verify (toSpki algid publicKey) message none signature
        = .ok true
  | none =>
      backends.noble.verify set signature message (.uint8Array publicKey) none
        = .ok true

theorem nativeVerify_true {native : OpenSsl} {alg : JsString}
    {signature : Bytes} {context : Option Bytes} :
    native.nativeVerify rt alg (.uint8Array publicKey) message signature
        context = some true
      ↔ ∃ algid, native.algid alg = some algid
        ∧ native.verify (toSpki algid publicKey) message context signature
          = .ok true := by
  rw [OpenSsl.nativeVerify]
  cases native.algid alg with
  | none => simp
  | some algid =>
      simp only [bufferFrom, bind, Except.bind, Option.some.injEq,
        exists_eq_left']
      cases native.verify (toSpki algid publicKey) message context signature
        with
      | ok ok => simp
      | error e => simp

/-- The answer in the `try` on bytes. -/
theorem verifyWith_bytes {signature : JsVal} {bytes : Bytes}
    (hs : signatureBytes signature = .ok bytes) :
    verifyWith rt backends set (.uint8Array publicKey) (.uint8Array message)
        signature none = .ok (some true)
      ↔ Accepts rt backends set publicKey message bytes := by
  rw [verifyWith, Accepts, hs]
  cases usesNative rt backends set none with
  | some native =>
      simp only [toBytes, bind, Except.bind, pure, Except.pure,
        Except.ok.injEq]
      exact nativeVerify_true
  | none =>
      simp only [toBytes, bind, Except.bind, pure, Except.pure]
      cases backends.noble.verify set bytes message (.uint8Array publicKey)
        none with
      | ok ok => simp
      | error e => simp

/-- **What `verify` accepts of texts**: those that are hex, of either case,
and of bytes that it accepts. It decides the rest by the bytes alone, so a
signature has as many texts as its letters have cases. -/
theorem verify_hex_iff {s : JsString} :
    verify rt backends set (.uint8Array publicKey) (.uint8Array message)
        (.string s) .undefined = .ok (some true)
      ↔ ∃ bytes, hexPairs s = some bytes
        ∧ Accepts rt backends set publicKey message bytes := by
  rw [verify_ok normalizeContext_undefined]
  have hstring : signatureBytes (.string s) = hexToBytes (.string s) := rfl
  have htrue : ∀ x : Except JsError (Option Bool),
      (.ok (x.toOption.getD (some false)) : Except JsError (Option Bool))
          = .ok (some true)
        ↔ x = .ok (some true) := by
    intro x
    cases x with
    | ok ok => simp [Except.toOption]
    | error e => simp [Except.toOption]
  rw [htrue]
  cases hs : hexPairs s with
  | none =>
      have herror : signatureBytes (.string s)
          = .error (error (js "invalid hex")) := by
        rw [hstring, hexToBytes, hs]
      rw [verifyWith, herror]
      cases usesNative rt backends set none with
      | some native => simp [toBytes, bind, Except.bind]
      | none => simp [bind, Except.bind]
  | some bytes =>
      have hok : signatureBytes (.string s) = .ok bytes := by
        rw [hstring, hexToBytes, hs]
      rw [verifyWith_bytes hok]
      simp

end Signature

end KxcoPostQuantum
