/-
Labels that separate: contexts at the level of signatures, info strings
at the level of keys.

Either label is a string that reaches the primitive as bytes, by
`TextEncoder`. All it loses is which lone surrogate stood where
(`textEncode_eq_iff`), so two labels stay apart exactly when they are two
strings once every lone surrogate is U+FFFD; two well-formed strings
always are.
-/
import KxcoPostQuantum.Seed.Derive

namespace KxcoPostQuantum

open Lib.Utf8
open Signature (normalizeContext checkedContext getMessage)

/-- `{ context: s }`. -/
def contextOptions (s : JsString) : JsVal :=
  .object [(js "context", .string s)] []

-- ============================================================ separation

/-- Two contexts that are accepted are two byte strings, and no message
under one is the same bytes as a message under the other. -/
def ContextsSeparate (a b : JsString) : Prop :=
  ∀ x y, normalizeContext (contextOptions a) = .ok x →
    normalizeContext (contextOptions b) = .ok y →
    x ≠ y ∧ ∀ msg msg', ∃ m m', getMessage msg (x.getD []) = .ok m
      ∧ getMessage msg' (y.getD []) = .ok m' ∧ m ≠ m'

/-- Two info strings that are accepted are two byte strings to HKDF. -/
def InfosSeparate (a b : JsString) : Prop :=
  ∀ master length p q, Seed.hkdfCall master (.string a) length = .ok p →
    Seed.hkdfCall master (.string b) length = .ok q → p.info ≠ q.info

-- ============================================================== contexts

/-- A context that is accepted. -/
theorem normalizeContext_contextOptions {s : JsString} {x : Option Bytes} :
    normalizeContext (contextOptions s) = .ok x
      ↔ (textEncode s).length ≤ 255
        ∧ x = if (textEncode s).length = 0 then none
          else some (textEncode s) := by
  have hcontext : normalizeContext (contextOptions s)
      = checkedContext (textEncode s) := rfl
  rw [hcontext, checkedContext]
  split
  next h =>
    refine iff_of_false ?_ fun h' => absurd h (not_lt.mpr h'.1)
    intro hx
    cases hx
  next h =>
    have hlen : (textEncode s).length ≤ 255 := not_lt.mp h
    rw [Except.ok.injEq, eq_comm, and_iff_right hlen]

/-- A context is given back by its bytes. -/
theorem context_getD {s : JsString} {x : Option Bytes}
    (h : normalizeContext (contextOptions s) = .ok x) :
    x.getD [] = textEncode s := by
  obtain ⟨-, rfl⟩ := normalizeContext_contextOptions.mp h
  split
  next h => exact (List.length_eq_zero_iff.mp h).symm
  next => rfl

/-- The message bytes have one context: its length stands in front of it, in
one byte. -/
theorem getMessage_inj {msg msg' ctx ctx' m : Bytes}
    (h : getMessage msg ctx = .ok m) (h' : getMessage msg' ctx' = .ok m) :
    ctx = ctx' := by
  rw [getMessage] at h h'
  split at h
  next => cases h
  next hlen =>
    split at h'
    next => cases h'
    next hlen' =>
      have hm := (Except.ok.inj h).trans (Except.ok.inj h').symm
      rw [List.cons.injEq, List.cons.injEq] at hm
      have hlength : ctx.length = ctx'.length := by
        have := congrArg UInt8.toNat hm.2.1
        simpa [Nat.mod_eq_of_lt (show ctx.length < 256 by omega),
          Nat.mod_eq_of_lt (show ctx'.length < 256 by omega)] using this
      exact (List.append_inj hm.2.2 hlength).1

/-- Accepted contexts separate unless their bytes are the same. -/
theorem contextsSeparate_of_ne {a b : JsString}
    (h : textEncode a ≠ textEncode b) : ContextsSeparate a b := by
  intro x y hx hy
  have hxy : x.getD [] ≠ y.getD [] := by
    rw [context_getD hx, context_getD hy]
    exact h
  refine ⟨fun heq => hxy (heq ▸ rfl), fun msg msg' => ?_⟩
  have hframe : ∀ {s : JsString} {z : Option Bytes} (msg : Bytes),
      normalizeContext (contextOptions s) = .ok z →
      ∃ m, getMessage msg (z.getD []) = .ok m := by
    intro s z msg hz
    rw [context_getD hz, getMessage, if_neg (not_lt.mpr
      (normalizeContext_contextOptions.mp hz).1)]
    exact ⟨_, rfl⟩
  obtain ⟨m, hm⟩ := hframe msg hx
  obtain ⟨m', hm'⟩ := hframe msg' hy
  refine ⟨m, m', hm, hm', ?_⟩
  rintro rfl
  exact hxy (getMessage_inj hm hm')

-- =================================================================== keys

/-- Accepted info strings separate unless their bytes are the same; a string
that is refused separates from any. -/
theorem infosSeparate_iff {a b : JsString} (hne : a ≠ b) :
    InfosSeparate a b ↔ textEncode a ≠ textEncode b := by
  constructor
  · intro h heq
    have hnil : a = [] ↔ b = [] := by
      rw [← textEncode_eq_nil, heq, textEncode_eq_nil]
    have ha : a ≠ [] := fun ha => hne (ha.trans (hnil.mp ha).symm)
    have hmaster : 16 ≤ (List.replicate 16 (0 : UInt8)).length := by
      rw [List.length_replicate]
    exact h (.uint8Array (List.replicate 16 0)) .undefined _ _
      (Seed.hkdfCall_of_ne hmaster ha)
      (Seed.hkdfCall_of_ne hmaster (mt hnil.mpr ha)) heq
  · intro h master length p q hp hq
    rw [(Seed.hkdfCall_string hp).2, (Seed.hkdfCall_string hq).2]
    exact h

-- ================================================================ exactly

/-- **Labels separate**: two labels, as contexts and as info strings, are
kept apart if and only if they are two strings once every lone surrogate
is U+FFFD. -/
theorem labels_separate_iff {a b : JsString} (hne : a ≠ b) :
    ContextsSeparate a b ∧ InfosSeparate a b
      ↔ toWellFormed a ≠ toWellFormed b := by
  rw [infosSeparate_iff hne, ne_eq, ne_eq, textEncode_eq_iff]
  exact ⟨And.right, fun h =>
    ⟨contextsSeparate_of_ne (mt textEncode_eq_iff.mp h), h⟩⟩

/-- Two letters, which are well-formed as they stand. -/
theorem labels_separate_iff_letters :
    ContextsSeparate (js "a") (js "b") ∧ InfosSeparate (js "a") (js "b")
      ↔ toWellFormed (js "a") ≠ toWellFormed (js "b") :=
  labels_separate_iff (by decide)

/-- Two lone surrogates are one context and one info string: both are
encoded as the replacement character, which is the three bytes here. -/
theorem surrogates_collide :
    ([0xD800] : JsString) ≠ [0xD801]
      ∧ normalizeContext (contextOptions [0xD800])
        = .ok (some [0xEF, 0xBF, 0xBD])
      ∧ normalizeContext (contextOptions [0xD801])
        = .ok (some [0xEF, 0xBF, 0xBD])
      ∧ ¬ContextsSeparate [0xD800] [0xD801]
      ∧ ¬InfosSeparate [0xD800] [0xD801] := by
  have hne : ([0xD800] : JsString) ≠ [0xD801] := by decide
  have hleft : normalizeContext (contextOptions [0xD800])
      = .ok (some [0xEF, 0xBF, 0xBD]) := by decide
  have hright : normalizeContext (contextOptions [0xD801])
      = .ok (some [0xEF, 0xBF, 0xBD]) := by decide
  refine ⟨hne, hleft, hright, fun h => (h _ _ hleft hright).1 rfl, ?_⟩
  rw [infosSeparate_iff hne]
  decide

/-- Two well-formed labels separate. -/
theorem labels_separate {a b : JsString} (ha : WellFormed a)
    (hb : WellFormed b) (hne : a ≠ b) :
    ContextsSeparate a b ∧ InfosSeparate a b := by
  have hencoded : textEncode a ≠ textEncode b := by
    rw [ne_eq, textEncode_eq_iff, ha.toWellFormed_eq, hb.toWellFormed_eq]
    exact hne
  exact ⟨contextsSeparate_of_ne hencoded, (infosSeparate_iff hne).mpr hencoded⟩

end KxcoPostQuantum
