/-
derive.js: `deriveSeed`.

HKDF-SHA-512 is a parameter, a function of its arguments. What
`deriveSeed` calls it with is `hkdfCall`: the master secret as bytes, the
info string as `TextEncoder` writes it, and the length as it is given. The
salt is always the same. So two calls are told apart by these three, and
what labels do to a seed is a fact about `hkdfCall`.
-/
import KxcoPostQuantum.Signature.Modules

namespace KxcoPostQuantum.Seed

open Lib.Utf8

/-- The arguments of `hkdf(sha512, ikm, salt, info, length)`. -/
structure HkdfCall where
  ikm : Bytes
  salt : Bytes
  info : Bytes
  length : JsVal

/-- The call `deriveSeed` makes. -/
def hkdfCall (master info length : JsVal) : Except JsError HkdfCall := do
  let ikm ← Signature.toBytes master
  if ikm.length < 16 then
    throw (error (js "deriveSeed: master keying material must be at least "
      ++ js "16 bytes"))
  else
    match info with
    | .string (c :: s) =>
        return ⟨ikm, List.replicate 32 0, textEncode (c :: s), length⟩
    | _ =>
        throw (error (js "deriveSeed: info string is required for domain "
          ++ js "separation"))

/-- Derive a seed from a master secret and an info string. -/
def deriveSeed (hkdf : HkdfCall → Except JsError Bytes)
    (master info length : JsVal) : Except JsError Bytes := do
  hkdf (← hkdfCall master info length)

/-- What a call has been accepted with. -/
theorem hkdfCall_string {master length : JsVal} {info : JsString}
    {call : HkdfCall} (h : hkdfCall master (.string info) length = .ok call) :
    info ≠ [] ∧ call.info = textEncode info := by
  obtain ⟨ikm, -, h⟩ := bind_eq_ok.mp h
  split at h
  next => cases h
  next =>
    cases info with
    | nil => cases h
    | cons c s =>
        cases h
        exact ⟨List.cons_ne_nil c s, rfl⟩

/-- A master of sixteen bytes and an info string are accepted. -/
theorem hkdfCall_of_ne {master : Bytes} {length : JsVal} {info : JsString}
    (hmaster : 16 ≤ master.length) (hinfo : info ≠ []) :
    hkdfCall (.uint8Array master) (.string info) length
      = .ok ⟨master, List.replicate 32 0, textEncode info, length⟩ := by
  have hlong : ¬master.length < 16 := not_lt.mpr hmaster
  cases info with
  | nil => exact absurd rfl hinfo
  | cons c s =>
      simp only [hkdfCall, Signature.toBytes, bind, Except.bind, if_neg hlong,
        pure, Except.pure]

end KxcoPostQuantum.Seed
