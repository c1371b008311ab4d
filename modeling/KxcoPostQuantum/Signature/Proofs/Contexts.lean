/-
The two readers of `{ context }`: `normalizeContext` of the main package
and `contextOf` of the FIPS module.

`Keeps` is what either owes a value of `opts`: a bare value is refused
by `sign` and `verify`, a context of bytes or text arrives whole, and any
other is refused. Both owe it to every string and every options object.
What they miss is what `typeof` calls an object without its being one: the
package lets an `ArrayBuffer` and the views other than `Uint8Array`
through as a bag with no `context`, the module those, every `Uint8Array`
and every array (`contexts_kept_iff`).
-/
import KxcoPostQuantum.Fips.Module
import KxcoPostQuantum.Signature.Modules

namespace KxcoPostQuantum.Signature

open Lib.Utf8

-- ======================================================= what is owed

/-- A value that carries bytes or text and is no options object. -/
def Bare : JsVal → Prop
  | .string _ | .uint8Array _ | .array _ | .arrayBuffer _ | .view _ _ => True
  | _ => False

/-- The bytes of a context of either type. -/
def contextBytes : JsVal → Option Bytes
  | .string s => some (textEncode s)
  | .uint8Array b => some b
  | _ => none

/-- What an entry point that resolves contexts by `resolve` owes a value
of `opts`; `Refuses` says that its `sign` and `verify` throw a
`TypeError`. -/
structure Keeps (resolve : JsVal → Except JsError Bytes)
    (Refuses : JsVal → Prop) (opts : JsVal) : Prop where
  bare : Bare opts → Refuses opts
  bytes : ∀ own inherited c ctx, opts = .object own inherited →
    opts.get (js "context") = .ok c → contextBytes c = some ctx →
    if ctx.length ≤ 255 then resolve opts = .ok ctx
    else ∃ m, resolve opts = .error (rangeError m)
  other : ∀ own inherited c, opts = .object own inherited →
    opts.get (js "context") = .ok c → c.isNullish = false →
    contextBytes c = none → Refuses opts

/-- A computation throws a `TypeError`. -/
def ThrowsTypeError {α : Type} (x : Except JsError α) : Prop :=
  ∃ m, x = .error (typeError m)

/-- What the main package resolves a context to; none is the empty one. -/
def packageContext (opts : JsVal) : Except JsError Bytes :=
  (normalizeContext opts).map fun context => context.getD []

/-- `sign` and `verify` of the main package throw a `TypeError`. -/
def PackageRefuses (opts : JsVal) : Prop :=
  ∀ (rt : Runtime) (backends : Backends) (set : SignatureSet)
    (key message signature : JsVal),
    ThrowsTypeError (sign rt backends set key message opts)
      ∧ ThrowsTypeError (verify rt backends set key message signature opts)

/-- `sign` and `verify` of the FIPS module throw a `TypeError` and have
done nothing, for a parameter set the module offers. -/
def ModuleRefuses (opts : JsVal) : Prop :=
  ∀ (rt : Runtime) (env : Fips.Env) (w : Fips.World) (alg : JsVal)
    (dsa : Fips.DsaSet), Fips.dsaOf rt alg = .ok dsa →
    (∀ (key : Bytes) (message : JsVal), ∃ m,
      (Fips.sign rt env alg (.uint8Array key) message opts).run w
        = (.error (typeError m), w))
      ∧ ∀ (key message signature : JsVal), ∃ m,
        (Fips.verify rt env alg key message signature opts).run w
          = (.error (typeError m), w)

-- ================================================= from readers to calls

/-- What `normalizeContext` throws, `sign` and `verify` throw. -/
theorem packageRefuses_of_throws {opts : JsVal}
    (h : ThrowsTypeError (normalizeContext opts)) : PackageRefuses opts := by
  intro rt backends set key message signature
  obtain ⟨m, hm⟩ := h
  refine ⟨⟨m, ?_⟩, m, ?_⟩
  · rw [sign, hm]
    rfl
  · rw [verify, hm]
    rfl

/-- `verify` goes on with what `normalizeContext` returns. -/
theorem not_packageRefuses {opts : JsVal} {context : Option Bytes}
    (h : normalizeContext opts = .ok context) : ¬PackageRefuses opts := by
  intro hrefuses
  let noble : Noble := ⟨fun _ _ _ _ => .ok [], fun _ _ _ _ _ => .ok true⟩
  obtain ⟨-, m, hm⟩ := hrefuses plainRuntime ⟨none, noble⟩ .mlDsa65
    .undefined .undefined .undefined
  rw [verify_ok h] at hm
  cases hm

/-- What `contextOf` throws, `sign` and `verify` of the module throw. -/
theorem moduleRefuses_of_throws {opts : JsVal}
    (h : ThrowsTypeError (Fips.contextOf opts)) : ModuleRefuses opts := by
  intro rt env w alg dsa hdsa
  obtain ⟨m, hm⟩ := h
  refine ⟨fun key message => ⟨m, ?_⟩, fun key message signature => ⟨m, ?_⟩⟩
  · rw [Fips.sign, hdsa, hm]
    rfl
  · rw [Fips.verify, hdsa, hm]
    rfl

/-- An environment in which every question throws. -/
def silentEnv : Fips.Env where
  fileUrl := true
  importModule _ := .error (error (js "silent"))
  cast _ _ := .error (error (js "silent"))
  integrityTest _ := .error (error (js "silent"))
  getEntropy _ _ := .error (error (js "silent"))
  hmac _ _ _ := .error (error (js "silent"))
  kemKeygen _ _ _ := .error (error (js "silent"))
  encapsulate _ _ _ _ := .error (error (js "silent"))
  decapsulate _ _ _ _ := .error (error (js "silent"))
  dsaKeygen _ _ _ := .error (error (js "silent"))
  sign _ _ _ _ _ _ := .error (error (js "silent"))
  verify _ _ _ _ _ _ := .error (error (js "silent"))

/-- `verify` of the module goes on with what `contextOf` returns. -/
theorem not_moduleRefuses {opts : JsVal} {context : Bytes}
    (h : Fips.contextOf opts = .ok context) : ¬ModuleRefuses opts := by
  intro hrefuses
  obtain ⟨-, hverify⟩ := hrefuses plainRuntime silentEnv {}
    (.string (js "ML-DSA-65")) .mlDsa65 rfl
  obtain ⟨m, hm⟩ := hverify (.uint8Array []) (.uint8Array [])
    (.uint8Array [])
  have hdsa : Fips.dsaOf plainRuntime (.string (js "ML-DSA-65"))
      = .ok .mlDsa65 := rfl
  rw [Fips.verify, hdsa, h] at hm
  cases congrArg Prod.fst hm

-- ==================================================== options objects

section

variable {own inherited : List (JsString × JsVal)} {c : JsVal}
  (h : (JsVal.object own inherited).get (js "context") = .ok c)

include h

/-- `normalizeContext` keeps a context of bytes or text. -/
theorem normalizeContext_bytes {ctx : Bytes}
    (hctx : contextBytes c = some ctx) :
    normalizeContext (.object own inherited) = checkedContext ctx := by
  simp only [normalizeContext, h]
  cases c with
  | string s => cases hctx; rfl
  | uint8Array b => cases hctx; rfl
  | _ => cases hctx

/-- `normalizeContext` refuses any other context. -/
theorem normalizeContext_other (hc : c.isNullish = false)
    (hctx : contextBytes c = none) :
    ThrowsTypeError (normalizeContext (.object own inherited)) := by
  simp only [normalizeContext, h]
  cases c with
  | string s => cases hctx
  | uint8Array b => cases hctx
  | undefined => cases hc
  | null => cases hc
  | _ => exact ⟨_, rfl⟩

/-- `contextOf` keeps a context of bytes or text. -/
theorem contextOf_bytes {ctx : Bytes} (hctx : contextBytes c = some ctx) :
    Fips.contextOf (.object own inherited)
      = if Fips.maxContextBytes < ctx.length then
          .error (rangeError (js "context must be at most "
            ++ decimal Fips.maxContextBytes ++ js " bytes"))
        else .ok ctx := by
  simp only [Fips.contextOf, h]
  cases c with
  | string s => cases hctx; rfl
  | uint8Array b => cases hctx; rfl
  | _ => cases hctx

/-- `contextOf` refuses any other context. -/
theorem contextOf_other (hc : c.isNullish = false)
    (hctx : contextBytes c = none) :
    ThrowsTypeError (Fips.contextOf (.object own inherited)) := by
  simp only [Fips.contextOf, h]
  cases c with
  | string s => cases hctx
  | uint8Array b => cases hctx
  | undefined => cases hc
  | null => cases hc
  | _ => exact ⟨_, rfl⟩

end

/-- The main package keeps what `typeof` and its two tests sort out. Given
that it refuses a bare value, what is left are option objects, whose context
is passed on as it is, or refused for what it is. -/
theorem package_keeps {opts : JsVal}
    (h : Bare opts → ThrowsTypeError (normalizeContext opts)) :
    Keeps packageContext PackageRefuses opts where
  bare hbare := packageRefuses_of_throws (h hbare)
  bytes own inherited c ctx ho hc hctx := by
    subst ho
    rw [packageContext, normalizeContext_bytes hc hctx, checkedContext]
    split
    next hlen =>
      have hshort : ¬ctx.length > maxContextBytes := not_lt.mpr hlen
      rw [if_neg hshort]
      cases ctx <;> rfl
    next hlen =>
      have hlong : ctx.length > maxContextBytes := not_le.mp hlen
      rw [if_pos hlong]
      exact ⟨_, rfl⟩
  other own inherited c ho hc hnull hctx := by
    subst ho
    exact packageRefuses_of_throws (normalizeContext_other hc hnull hctx)

/-- The module keeps what `typeof` sorts out, by the same three cases: a
bare value, a context of bytes, and one that is something else. -/
theorem module_keeps {opts : JsVal}
    (h : Bare opts → ThrowsTypeError (Fips.contextOf opts)) :
    Keeps Fips.contextOf ModuleRefuses opts where
  bare hbare := moduleRefuses_of_throws (h hbare)
  bytes own inherited c ctx ho hc hctx := by
    subst ho
    rw [contextOf_bytes hc hctx]
    split
    next hlen =>
      have hshort : ¬Fips.maxContextBytes < ctx.length := not_lt.mpr hlen
      rw [if_neg hshort]
    next hlen =>
      have hlong : Fips.maxContextBytes < ctx.length := not_le.mp hlen
      rw [if_pos hlong]
      exact ⟨_, rfl⟩
  other own inherited c ho hc hnull hctx := by
    subst ho
    exact moduleRefuses_of_throws (contextOf_other hc hnull hctx)

-- ============================================================== exactly

/-- An `ArrayBuffer`, or a view other than a `Uint8Array`. -/
def isOtherBinary : JsVal → Bool
  | .arrayBuffer _ | .view _ _ => true
  | _ => false

/-- A value `typeof` calls an object that is binary data or an array. -/
def isBinaryOrArray (v : JsVal) : Bool :=
  isOtherBinary v || v.uint8Array?.isSome || v.isArray

/-- The main package refuses every other bare value. A buffer that is no
`Uint8Array` is an object to `typeof`, and has no `context`, so it counts as
options without one. -/
theorem package_keeps_iff {opts : JsVal} :
    Keeps packageContext PackageRefuses opts ↔ isOtherBinary opts = false := by
  constructor
  · intro hkeeps
    by_contra hbinary
    cases opts with
    | arrayBuffer b => exact not_packageRefuses rfl (hkeeps.bare trivial)
    | view kind b => exact not_packageRefuses rfl (hkeeps.bare trivial)
    | _ => exact hbinary rfl
  · intro hbinary
    refine package_keeps fun hbare => ?_
    cases opts with
    | string s => exact ⟨_, rfl⟩
    | uint8Array b => exact ⟨_, rfl⟩
    | array elems => exact ⟨_, rfl⟩
    | arrayBuffer b => cases hbinary
    | view kind b => cases hbinary
    | _ => cases hbare

/-- The module refuses strings only. It has no test for arrays or for binary
data, so each of these counts as options without a context. -/
theorem module_keeps_iff {opts : JsVal} :
    Keeps Fips.contextOf ModuleRefuses opts
      ↔ isBinaryOrArray opts = false := by
  constructor
  · intro hkeeps
    by_contra hbinary
    cases opts with
    | uint8Array b => exact not_moduleRefuses rfl (hkeeps.bare trivial)
    | array elems => exact not_moduleRefuses rfl (hkeeps.bare trivial)
    | arrayBuffer b => exact not_moduleRefuses rfl (hkeeps.bare trivial)
    | view kind b => exact not_moduleRefuses rfl (hkeeps.bare trivial)
    | _ => exact hbinary rfl
  · intro hbinary
    refine module_keeps fun hbare => ?_
    cases opts with
    | string s => exact ⟨_, rfl⟩
    | uint8Array b => cases hbinary
    | array elems => cases hbinary
    | arrayBuffer b => cases hbinary
    | view kind b => cases hbinary
    | _ => cases hbare

/-- **Contexts are kept** by both entry points for exactly the values of
`opts` that are neither binary data nor an array: what is passed on is the
context that was given, and what cannot be one is refused. Binary data and
arrays are taken for no context at all by one of the two, so the condition
cannot be weakened. -/
theorem contexts_kept_iff (opts : JsVal) :
    Keeps packageContext PackageRefuses opts
        ∧ Keeps Fips.contextOf ModuleRefuses opts
      ↔ isBinaryOrArray opts = false := by
  rw [package_keeps_iff, module_keeps_iff, and_iff_right_iff_imp]
  intro h
  rw [isBinaryOrArray, Bool.or_assoc, Bool.or_eq_false_iff] at h
  exact h.1

/-- An `ArrayBuffer` in the place of `opts` is no context to either entry
point, and a `Uint8Array` is none to the module. -/
theorem bare_bytes_dropped :
    normalizeContext (.arrayBuffer [0x61]) = .ok none
      ∧ Fips.contextOf (.arrayBuffer [0x61]) = .ok []
      ∧ Fips.contextOf (.uint8Array [0x61]) = .ok []
      ∧ ¬Keeps packageContext PackageRefuses (.arrayBuffer [0x61])
      ∧ ¬Keeps Fips.contextOf ModuleRefuses (.uint8Array [0x61]) :=
  ⟨rfl, rfl, rfl, mt package_keeps_iff.mp Bool.noConfusion,
    mt module_keeps_iff.mp Bool.noConfusion⟩

end KxcoPostQuantum.Signature
