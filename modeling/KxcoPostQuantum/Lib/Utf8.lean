/-
UTF-8 and UTF-16 as the Encoding Standard has them, with their errors.

Text is a list of UTF-16 code units, well formed or not. `textEncode`
replaces every lone surrogate and writes UTF-8. `textDecode` is the
non-fatal decoder: it drops a leading byte order mark and replaces every
maximal ill-formed prefix by U+FFFD.

# The decoder

`step` is the standard's UTF-8 handler on one byte. The byte that breaks
a sequence is not part of it: the handler emits the replacement and
takes the byte again in its initial state, so one byte emits up to two
code points. `decode` folds it over the input.

# What is proved

Decoding undoes encoding on well-formed text that does not begin with a
byte order mark (`textDecode_textEncode`), encoding loses nothing but
which lone surrogate stood where (`textEncode_eq_iff`), and a first byte
outside ASCII decodes to a first unit outside ASCII
(`textDecode_nonAscii`).
-/
import Mathlib.Tactic.Common
import Mathlib.Data.UInt

namespace Lib.Utf8

-- ============================================================ UTF-16

/-- U+FFFD, the replacement character. -/
def replacement : Nat := 0xFFFD

/-- A leading surrogate. -/
def isLead (u : UInt16) : Prop := 0xD800 ≤ u.toNat ∧ u.toNat < 0xDC00

/-- A trailing surrogate. -/
def isTrail (u : UInt16) : Prop := 0xDC00 ≤ u.toNat ∧ u.toNat < 0xE000

instance (u : UInt16) : Decidable (isLead u) :=
  inferInstanceAs (Decidable (_ ∧ _))

instance (u : UInt16) : Decidable (isTrail u) :=
  inferInstanceAs (Decidable (_ ∧ _))

/-- The code point a surrogate pair stands for. -/
def pairPoint (u v : UInt16) : Nat :=
  0x10000 + (u.toNat - 0xD800) * 0x400 + (v.toNat - 0xDC00)

/-- The scalar values of a string, a lone surrogate replaced. -/
def scalars : List UInt16 → List Nat
  | [] => []
  | [u] => if isLead u ∨ isTrail u then [replacement] else [u.toNat]
  | u :: v :: rest =>
      if isLead u then
        if isTrail v then pairPoint u v :: scalars rest
        else replacement :: scalars (v :: rest)
      else if isTrail u then replacement :: scalars (v :: rest)
      else u.toNat :: scalars (v :: rest)

/-- The code units of a scalar value. -/
def units (c : Nat) : List UInt16 :=
  if c < 0x10000 then [c.toUInt16]
  else [(0xD800 + (c - 0x10000) / 0x400 % 0x400).toUInt16,
    (0xDC00 + (c - 0x10000) % 0x400).toUInt16]

/-- A string with no lone surrogate. -/
inductive WellFormed : List UInt16 → Prop
  | nil : WellFormed []
  | unit {u : UInt16} {rest : List UInt16} (hl : ¬isLead u) (ht : ¬isTrail u)
      (h : WellFormed rest) : WellFormed (u :: rest)
  | pair {u v : UInt16} {rest : List UInt16} (hl : isLead u) (ht : isTrail v)
      (h : WellFormed rest) : WellFormed (u :: v :: rest)

theorem WellFormed.append {s t : List UInt16} (hs : WellFormed s)
    (ht : WellFormed t) : WellFormed (s ++ t) := by
  induction hs with
  | nil => exact ht
  | unit hl htr _ ih => exact .unit hl htr ih
  | pair hl htr _ ih => exact .pair hl htr ih

/-- A unit that is no surrogate cuts a string between code points: a pair of
surrogates stands on one side of it, so both sides are well-formed. -/
theorem WellFormed.split {s t : List UInt16} {c : UInt16} (hl : ¬isLead c)
    (ht : ¬isTrail c) (h : WellFormed (s ++ c :: t)) :
    WellFormed s ∧ WellFormed t := by
  match s with
  | [] =>
      cases h with
      | unit _ _ h => exact ⟨.nil, h⟩
      | pair hlead _ _ => exact absurd hlead hl
  | [u] =>
      cases h with
      | unit hl' ht' h =>
          exact ⟨.unit hl' ht' .nil, (split hl ht (s := []) h).2⟩
      | pair _ htrail _ => exact absurd htrail ht
  | u :: v :: s =>
      cases h with
      | unit hl' ht' h =>
          have hrest := split hl ht (s := v :: s) h
          exact ⟨.unit hl' ht' hrest.1, hrest.2⟩
      | pair hl' ht' h =>
          have hrest := split hl ht h
          exact ⟨.pair hl' ht' hrest.1, hrest.2⟩
  termination_by s.length

theorem scalars_unit {u : UInt16} {rest : List UInt16} (hl : ¬isLead u)
    (ht : ¬isTrail u) : scalars (u :: rest) = u.toNat :: scalars rest := by
  cases rest with
  | nil => simp [scalars, hl, ht]
  | cons v rest => rw [scalars, if_neg hl, if_neg ht]

theorem scalars_pair {u v : UInt16} {rest : List UInt16} (hl : isLead u)
    (ht : isTrail v) :
    scalars (u :: v :: rest) = pairPoint u v :: scalars rest := by
  rw [scalars, if_pos hl, if_pos ht]

theorem units_toNat (u : UInt16) : units u.toNat = [u] := by
  have := u.toNat_lt
  rw [units, if_pos (by omega), Nat.toUInt16_eq, UInt16.ofNat_toNat]

theorem units_pairPoint {u v : UInt16} (hl : isLead u) (ht : isTrail v) :
    units (pairPoint u v) = [u, v] := by
  obtain ⟨hl₁, hl₂⟩ := hl
  obtain ⟨ht₁, ht₂⟩ := ht
  have hu : 0xD800 + (pairPoint u v - 0x10000) / 0x400 % 0x400 = u.toNat := by
    unfold pairPoint
    omega
  have hv : 0xDC00 + (pairPoint u v - 0x10000) % 0x400 = v.toNat := by
    unfold pairPoint
    omega
  rw [units, if_neg (by unfold pairPoint; omega), hu, hv]
  simp only [Nat.toUInt16_eq, UInt16.ofNat_toNat]

/-- A well-formed string is its scalar values. -/
theorem WellFormed.units_scalars {s : List UInt16} (hs : WellFormed s) :
    (scalars s).flatMap units = s := by
  induction hs with
  | nil => rfl
  | unit hl ht _ ih =>
      rw [scalars_unit hl ht, List.flatMap_cons, units_toNat, ih]
      rfl
  | pair hl ht _ ih =>
      rw [scalars_pair hl ht, List.flatMap_cons, units_pairPoint hl ht, ih]
      rfl

-- ============================================================= UTF-8

/-- A code point that is not a surrogate. -/
def IsScalar (c : Nat) : Prop := c < 0xD800 ∨ 0xE000 ≤ c ∧ c < 0x110000

/-- The bytes of a scalar value. -/
def encodePoint (c : Nat) : List UInt8 :=
  if c < 0x80 then [c.toUInt8]
  else if c < 0x800 then
    [(0xC0 + c / 0x40).toUInt8, (0x80 + c % 0x40).toUInt8]
  else if c < 0x10000 then
    [(0xE0 + c / 0x1000).toUInt8, (0x80 + c / 0x40 % 0x40).toUInt8,
      (0x80 + c % 0x40).toUInt8]
  else
    [(0xF0 + c / 0x40000).toUInt8, (0x80 + c / 0x1000 % 0x40).toUInt8,
      (0x80 + c / 0x40 % 0x40).toUInt8, (0x80 + c % 0x40).toUInt8]

/-- A decoder between two bytes: how many continuation bytes it needs,
the code point so far and the range of the next byte. -/
structure State where
  needed : Nat := 0
  codePoint : Nat := 0
  lower : Nat := 0x80
  upper : Nat := 0xBF

/-- A byte in the initial state. -/
def leadByte (b : Nat) : List Nat × State :=
  if b ≤ 0x7F then ([b], {})
  else if 0xC2 ≤ b ∧ b ≤ 0xDF then
    ([], { needed := 1, codePoint := b - 0xC0 })
  else if 0xE0 ≤ b ∧ b ≤ 0xEF then
    ([], {
      needed := 2
      codePoint := b - 0xE0
      lower := if b = 0xE0 then 0xA0 else 0x80
      upper := if b = 0xED then 0x9F else 0xBF })
  else if 0xF0 ≤ b ∧ b ≤ 0xF4 then
    ([], {
      needed := 3
      codePoint := b - 0xF0
      lower := if b = 0xF0 then 0x90 else 0x80
      upper := if b = 0xF4 then 0x8F else 0xBF })
  else ([replacement], {})

/-- One byte. -/
def step (s : State) (b : Nat) : List Nat × State :=
  if s.needed = 0 then leadByte b
  else if s.lower ≤ b ∧ b ≤ s.upper then
    let codePoint := s.codePoint * 0x40 + (b - 0x80)
    if s.needed = 1 then ([codePoint], {})
    else ([], { needed := s.needed - 1, codePoint })
  else (replacement :: (leadByte b).1, (leadByte b).2)

/-- The code points of a byte string; an unfinished sequence at its end
is replaced. -/
def decode : State → List UInt8 → List Nat
  | s, [] => if s.needed = 0 then [] else [replacement]
  | s, b :: rest => (step s b.toNat).1 ++ decode (step s b.toNat).2 rest

private theorem toNat_toUInt8 {n : Nat} (h : n < 256) :
    n.toUInt8.toNat = n := by
  rw [Nat.toUInt8_eq, UInt8.toNat_ofNat']
  exact Nat.mod_eq_of_lt h

/-- A continuation byte in range, another one still needed. -/
theorem step_more {s : State} {n b : Nat} (hn : s.needed = n + 2)
    (hlo : s.lower ≤ 0x80 + b) (hup : 0x80 + b ≤ s.upper) :
    step s (0x80 + b)
      = ([], { needed := n + 1, codePoint := s.codePoint * 0x40 + b }) := by
  unfold step
  rw [if_neg (by omega), if_pos ⟨hlo, hup⟩]
  simp only
  rw [if_neg (by omega), Nat.add_sub_cancel_left, hn]
  rfl

/-- The last continuation byte. -/
theorem step_last {c b : Nat} (hb : b < 0x40) :
    step { needed := 1, codePoint := c } (0x80 + b)
      = ([c * 0x40 + b], {}) := by
  unfold step
  rw [if_neg Nat.one_ne_zero, if_pos ⟨by simp, by simp; omega⟩]
  simp only [if_true, Nat.add_sub_cancel_left]

/-- The last byte of a sequence. -/
theorem decode_last (c : Nat) (rest : List UInt8) :
    decode { needed := 1, codePoint := c / 0x40 }
      ((0x80 + c % 0x40).toUInt8 :: rest) = c :: decode {} rest := by
  rw [decode, toNat_toUInt8 (by omega), step_last (by omega),
    show c / 0x40 * 0x40 + c % 0x40 = c from by omega]
  rfl

/-- The last two bytes of a sequence. -/
theorem decode_lastTwo {s : State} (hn : s.needed = 2) {c : Nat}
    (hc : s.codePoint = c / 0x1000)
    (hlo : s.lower ≤ 0x80 + c / 0x40 % 0x40)
    (hup : 0x80 + c / 0x40 % 0x40 ≤ s.upper) (rest : List UInt8) :
    decode s ((0x80 + c / 0x40 % 0x40).toUInt8
      :: (0x80 + c % 0x40).toUInt8 :: rest) = c :: decode {} rest := by
  rw [decode, toNat_toUInt8 (by omega), step_more hn hlo hup, hc,
    show c / 0x1000 * 0x40 + c / 0x40 % 0x40 = c / 0x40 from by omega]
  exact decode_last c rest

/-- The last three bytes of a sequence. -/
theorem decode_lastThree {s : State} (hn : s.needed = 3) {c : Nat}
    (hc : s.codePoint = c / 0x40000)
    (hlo : s.lower ≤ 0x80 + c / 0x1000 % 0x40)
    (hup : 0x80 + c / 0x1000 % 0x40 ≤ s.upper) (rest : List UInt8) :
    decode s ((0x80 + c / 0x1000 % 0x40).toUInt8
      :: (0x80 + c / 0x40 % 0x40).toUInt8 :: (0x80 + c % 0x40).toUInt8
      :: rest) = c :: decode {} rest := by
  rw [decode, toNat_toUInt8 (by omega), step_more hn hlo hup, hc,
    show c / 0x40000 * 0x40 + c / 0x1000 % 0x40 = c / 0x1000 from by omega]
  exact decode_lastTwo rfl rfl (by simp) (by simp; omega) rest

/-- Decoding undoes the encoding of one scalar value, in front of anything.
The four lengths of an encoding are the four cases, each with the ranges of
its bytes. -/
theorem decode_encodePoint {c : Nat} (hc : IsScalar c) (rest : List UInt8) :
    decode {} (encodePoint c ++ rest) = c :: decode {} rest := by
  unfold IsScalar at hc
  have hstep : ∀ b, step {} b = leadByte b := fun _ => rfl
  unfold encodePoint
  by_cases h₁ : c < 0x80
  · rw [if_pos h₁]
    simp only [List.cons_append, List.nil_append]
    rw [decode, toNat_toUInt8 (by omega), hstep, leadByte,
      if_pos (by omega)]
    rfl
  by_cases h₂ : c < 0x800
  · rw [if_neg h₁, if_pos h₂]
    simp only [List.cons_append, List.nil_append]
    rw [decode, toNat_toUInt8 (by omega), hstep, leadByte,
      if_neg (by omega), if_pos (by omega), Nat.add_sub_cancel_left]
    exact decode_last c rest
  by_cases h₃ : c < 0x10000
  · rw [if_neg h₁, if_neg h₂, if_pos h₃]
    simp only [List.cons_append, List.nil_append]
    rw [decode, toNat_toUInt8 (by omega), hstep, leadByte,
      if_neg (by omega), if_neg (by omega), if_pos (by omega),
      Nat.add_sub_cancel_left]
    refine decode_lastTwo rfl rfl ?_ ?_ rest
    · simp only
      split <;> omega
    · simp only
      split <;> omega
  · rw [if_neg h₁, if_neg h₂, if_neg h₃]
    simp only [List.cons_append, List.nil_append]
    rw [decode, toNat_toUInt8 (by omega), hstep, leadByte,
      if_neg (by omega), if_neg (by omega), if_neg (by omega),
      if_pos (by omega), Nat.add_sub_cancel_left]
    refine decode_lastThree rfl rfl ?_ ?_ rest
    · simp only
      split <;> omega
    · simp only
      split <;> omega

/-- A byte of ASCII is a code point, and leaves nothing unfinished. -/
theorem decode_ascii {b : UInt8} (hb : b.toNat < 0x80) (rest : List UInt8) :
    decode {} (b :: rest) = b.toNat :: decode {} rest := by
  rw [decode, step, if_pos rfl, leadByte, if_pos (Nat.le_of_lt_succ hb)]
  rfl

/-- What follows ASCII is read by itself. -/
theorem decode_append_ascii {a : List UInt8} (ha : ∀ b ∈ a, b.toNat < 0x80)
    (rest : List UInt8) :
    decode {} (a ++ rest) = decode {} a ++ decode {} rest := by
  induction a with
  | nil => rfl
  | cons b a ih =>
      rw [List.forall_mem_cons] at ha
      rw [List.cons_append, decode_ascii ha.1, decode_ascii ha.1, ih ha.2,
        List.cons_append]

/-- Decoding undoes the encoding of a string of scalar values. -/
theorem decode_encode {cs : List Nat} (hcs : ∀ c ∈ cs, IsScalar c) :
    decode {} (cs.flatMap encodePoint) = cs := by
  induction cs with
  | nil => rfl
  | cons c cs ih =>
      rw [List.flatMap_cons, decode_encodePoint (hcs c List.mem_cons_self),
        ih fun d hd => hcs d (List.mem_cons_of_mem _ hd)]

-- ======================================================= text codecs

/-- `TextEncoder.encode`. -/
def textEncode (s : List UInt16) : List UInt8 :=
  (scalars s).flatMap encodePoint

/-- ASCII text is its units, one byte each. -/
theorem textEncode_ascii {s : List UInt16} (hs : ∀ u ∈ s, u.toNat < 0x80) :
    textEncode s = s.map fun u => u.toNat.toUInt8 := by
  induction s with
  | nil => rfl
  | cons u s ih =>
      rw [List.forall_mem_cons] at hs
      have hl : ¬isLead u := fun h => by
        unfold isLead at h
        omega
      have ht : ¬isTrail u := fun h => by
        unfold isTrail at h
        omega
      rw [textEncode, scalars_unit hl ht, List.flatMap_cons, encodePoint,
        if_pos hs.1, List.map_cons, ← ih hs.2]
      rfl

/-- The input without a leading byte order mark. -/
def dropBom : List UInt8 → List UInt8
  | 0xEF :: 0xBB :: 0xBF :: rest => rest
  | b => b

/-- `TextDecoder.decode` of a decoder with no options. -/
def textDecode (b : List UInt8) : List UInt16 :=
  (decode {} (dropBom b)).flatMap units

theorem WellFormed.isScalar {s : List UInt16} (hs : WellFormed s) :
    ∀ c ∈ scalars s, IsScalar c := by
  induction hs with
  | nil =>
      intro c hc
      cases hc
  | @unit u rest hl ht _ ih =>
      rw [scalars_unit hl ht]
      intro c hc
      rcases List.mem_cons.mp hc with rfl | hc
      · have := u.toNat_lt
        unfold isLead at hl
        unfold isTrail at ht
        unfold IsScalar
        omega
      · exact ih c hc
  | pair hl ht _ ih =>
      rw [scalars_pair hl ht]
      intro c hc
      rcases List.mem_cons.mp hc with hc | hc
      · rw [hc]
        obtain ⟨hl₁, hl₂⟩ := hl
        obtain ⟨ht₁, ht₂⟩ := ht
        unfold IsScalar pairPoint
        omega
      · exact ih c hc

/-- What is dropped is the encoding of U+FEFF. -/
theorem dropBom_cases (b : List UInt8) :
    dropBom b = b ∨ ∃ rest, b = encodePoint 0xFEFF ++ rest := by
  unfold dropBom
  split
  next rest => exact Or.inr ⟨rest, rfl⟩
  next => exact Or.inl rfl

theorem decode_textEncode {s : List UInt16} (hs : WellFormed s) :
    decode {} (textEncode s) = scalars s :=
  decode_encode hs.isScalar

/-- Well-formed text without a leading byte order mark. -/
def dropMark (s : List UInt16) : List UInt16 :=
  if s.head? = some 0xFEFF then s.tail else s

theorem WellFormed.dropMark {s : List UInt16} (hs : WellFormed s) :
    WellFormed (dropMark s) := by
  unfold Utf8.dropMark
  split
  next hmark =>
    cases hs with
    | nil => cases hmark
    | unit _ _ h => exact h
    | @pair u v rest hl _ _ =>
        cases Option.some.inj hmark
        exact absurd hl (by decide)
  next => exact hs

/-- The mark that bytes lose is the mark of the text: only U+FEFF is encoded
in those three bytes. -/
theorem dropBom_textEncode {s : List UInt16} (hs : WellFormed s) :
    dropBom (textEncode s) = textEncode (dropMark s) := by
  unfold dropMark
  split
  next hmark =>
    cases s with
    | nil => cases hmark
    | cons u rest =>
        cases Option.some.inj hmark
        rw [textEncode, scalars_unit (by decide) (by decide),
          List.flatMap_cons]
        rfl
  next hmark =>
    rcases dropBom_cases (textEncode s) with hd | ⟨rest, hr⟩
    · exact hd
    · -- the text would begin with the mark
      have hscalars := decode_textEncode hs
      rw [hr, decode_encodePoint (Or.inr ⟨by decide, by decide⟩)] at hscalars
      have hunits := hs.units_scalars
      rw [← hscalars, List.flatMap_cons] at hunits
      exact absurd (by rw [← hunits]; rfl) hmark

/-- **Decoding after encoding** loses a leading byte order mark. -/
theorem textDecode_encoded {s : List UInt16} (hs : WellFormed s) :
    textDecode (textEncode s) = dropMark s := by
  rw [textDecode, dropBom_textEncode hs, decode_textEncode hs.dropMark,
    hs.dropMark.units_scalars]

/-- **Round trip** of text that does not begin with a byte order mark. -/
theorem textDecode_textEncode {s : List UInt16} (hs : WellFormed s)
    (hb : s.head? ≠ some 0xFEFF) : textDecode (textEncode s) = s := by
  rw [textDecode_encoded hs, dropMark, if_neg hb]

/-- Only such text comes back. -/
theorem dropMark_eq_self {s : List UInt16} :
    dropMark s = s ↔ s.head? ≠ some 0xFEFF := by
  unfold dropMark
  split
  next hmark =>
    refine iff_of_false (fun h => ?_) fun h => h hmark
    cases s with
    | nil => cases hmark
    | cons u rest =>
        have := congrArg List.length h
        simp at this
  next hmark => exact iff_of_true rfl hmark

/-- The bytes of well-formed text determine it. -/
theorem textEncode_injective {s t : List UInt16} (hs : WellFormed s)
    (ht : WellFormed t) (h : textEncode s = textEncode t) : s = t := by
  rw [← hs.units_scalars, ← ht.units_scalars, ← decode_textEncode hs, h,
    decode_textEncode ht]

-- ==================================================== what is lost

/-- `String.prototype.toWellFormed`: every lone surrogate replaced. -/
def toWellFormed : List UInt16 → List UInt16
  | [] => []
  | [u] => if isLead u ∨ isTrail u then [0xFFFD] else [u]
  | u :: v :: rest =>
      if isLead u then
        if isTrail v then u :: v :: toWellFormed rest
        else 0xFFFD :: toWellFormed (v :: rest)
      else if isTrail u then 0xFFFD :: toWellFormed (v :: rest)
      else u :: toWellFormed (v :: rest)

/-- What is replaced is well formed. -/
theorem wellFormed_toWellFormed (s : List UInt16) :
    WellFormed (toWellFormed s) := by
  have hmark : ∀ {rest}, WellFormed rest → WellFormed (0xFFFD :: rest) :=
    fun h => .unit (by decide) (by decide) h
  fun_induction toWellFormed s with
  | case1 => exact .nil
  | case2 u h => exact hmark .nil
  | case3 u h =>
      rw [not_or] at h
      exact .unit h.1 h.2 .nil
  | case4 u v rest hl ht ih => exact .pair hl ht ih
  | case5 u v rest hl ht ih => exact hmark ih
  | case6 u v rest hl ht ih => exact hmark ih
  | case7 u v rest hl ht ih => exact .unit hl ht ih

/-- Replacing keeps the scalar values, which replace as well. -/
theorem scalars_toWellFormed (s : List UInt16) :
    scalars (toWellFormed s) = scalars s := by
  have hmark : ∀ rest, scalars (0xFFFD :: rest) = replacement :: scalars rest :=
    fun rest => scalars_unit (by decide) (by decide)
  fun_induction toWellFormed s with
  | case1 => rfl
  | case2 u h => rw [hmark, scalars, scalars, if_pos h]
  | case3 u h => rfl
  | case4 u v rest hl ht ih => rw [scalars_pair hl ht, scalars_pair hl ht, ih]
  | case5 u v rest hl ht ih =>
      rw [hmark, ih]
      conv_rhs => rw [scalars, if_pos hl, if_neg ht]
  | case6 u v rest hl ht ih =>
      rw [hmark, ih]
      conv_rhs => rw [scalars, if_neg hl, if_pos ht]
  | case7 u v rest hl ht ih => rw [scalars_unit hl ht, scalars_unit hl ht, ih]

/-- A well-formed string is left as it is. -/
theorem WellFormed.toWellFormed_eq {s : List UInt16} (hs : WellFormed s) :
    toWellFormed s = s := by
  rw [← (wellFormed_toWellFormed s).units_scalars, scalars_toWellFormed,
    hs.units_scalars]

instance (s : List UInt16) : Decidable (WellFormed s) :=
  decidable_of_iff (toWellFormed s = s)
    ⟨fun h => h ▸ wellFormed_toWellFormed s, WellFormed.toWellFormed_eq⟩

/-- **What encoding forgets** is which lone surrogate stood where. -/
theorem textEncode_eq_iff {s t : List UInt16} :
    textEncode s = textEncode t ↔ toWellFormed s = toWellFormed t := by
  have hdecode : ∀ s : List UInt16, decode {} (textEncode s) = scalars s := by
    intro s
    rw [textEncode, ← scalars_toWellFormed]
    exact decode_encode (wellFormed_toWellFormed s).isScalar
  constructor
  · intro h
    have hscalars : scalars s = scalars t := by
      rw [← hdecode s, ← hdecode t, h]
    rw [← (wellFormed_toWellFormed s).units_scalars,
      ← (wellFormed_toWellFormed t).units_scalars, scalars_toWellFormed,
      scalars_toWellFormed, hscalars]
  · intro h
    rw [textEncode, textEncode, ← scalars_toWellFormed s,
      ← scalars_toWellFormed t, h]

/-- Only the empty string has no bytes. -/
theorem textEncode_eq_nil {s : List UInt16} : textEncode s = [] ↔ s = [] := by
  constructor
  · intro h
    have hnil : textEncode s = textEncode [] := h
    have hs : toWellFormed s = [] := textEncode_eq_iff.mp hnil
    revert hs
    fun_cases toWellFormed s <;> simp
  · intro h
    rw [h]
    rfl

-- ============================================ text that is not ASCII

/-- A decoder part way through a sequence, in range for a code point
outside ASCII. -/
def Pending (s : State) : Prop :=
  s.needed = 1 ∧ 2 ≤ s.codePoint ∧ s.lower = 0x80
    ∨ s.needed = 2 ∧ 0x20 + 0x80 ≤ s.codePoint * 0x40 + s.lower
      ∧ 0x80 ≤ s.lower
    ∨ s.needed = 3 ∧ 0x10 + 0x80 ≤ s.codePoint * 0x40 + s.lower
      ∧ 0x80 ≤ s.lower

/-- A sequence under way ends in a code point outside ASCII, the
replacement among them. -/
theorem decode_pending {s : State} (hs : Pending s) (b : List UInt8) :
    ∃ c cs, decode s b = c :: cs ∧ 0x80 ≤ c := by
  induction b generalizing s with
  | nil =>
      refine ⟨replacement, [], ?_, by decide⟩
      rw [decode, if_neg (by unfold Pending at hs; omega)]
  | cons b rest ih =>
      have hn : s.needed ≠ 0 := by
        unfold Pending at hs
        omega
      rw [decode, step, if_neg hn]
      by_cases hr : s.lower ≤ b.toNat ∧ b.toNat ≤ s.upper
      · rw [if_pos hr]
        simp only
        by_cases h1 : s.needed = 1
        · rw [if_pos h1]
          refine ⟨_, _, rfl, ?_⟩
          unfold Pending at hs
          omega
        · rw [if_neg h1]
          refine ih ?_
          unfold Pending at hs ⊢
          simp only [and_true]
          omega
      · rw [if_neg hr]
        exact ⟨_, _, rfl, by decide⟩

/-- A first byte outside ASCII begins a code point outside ASCII: one that
the byte leads, or the replacement character where it leads none. -/
theorem decode_nonAscii {b : UInt8} (hb : 0x80 ≤ b.toNat)
    (rest : List UInt8) :
    ∃ c cs, decode {} (b :: rest) = c :: cs ∧ 0x80 ≤ c := by
  have hstep : step {} b.toNat = leadByte b.toNat := rfl
  rw [decode, hstep, leadByte, if_neg (by omega)]
  by_cases h₂ : 0xC2 ≤ b.toNat ∧ b.toNat ≤ 0xDF
  · rw [if_pos h₂]
    refine decode_pending (Or.inl ⟨rfl, ?_, rfl⟩) rest
    simp only
    omega
  by_cases h₃ : 0xE0 ≤ b.toNat ∧ b.toNat ≤ 0xEF
  · rw [if_neg h₂, if_pos h₃]
    refine decode_pending (Or.inr (Or.inl ⟨rfl, ?_, ?_⟩)) rest
    · simp only
      split <;> omega
    · simp only
      split <;> omega
  by_cases h₄ : 0xF0 ≤ b.toNat ∧ b.toNat ≤ 0xF4
  · rw [if_neg h₂, if_neg h₃, if_pos h₄]
    refine decode_pending (Or.inr (Or.inr ⟨rfl, ?_, ?_⟩)) rest
    · simp only
      split <;> omega
    · simp only
      split <;> omega
  · rw [if_neg h₂, if_neg h₃, if_neg h₄]
    exact ⟨_, _, rfl, by decide⟩

/-- The first unit of a code point outside ASCII is outside ASCII. -/
theorem units_nonAscii {c : Nat} (hc : 0x80 ≤ c) :
    ∃ u us, units c = u :: us ∧ 0x80 ≤ u.toNat := by
  unfold units
  by_cases h : c < 0x10000
  · rw [if_pos h]
    refine ⟨_, _, rfl, ?_⟩
    rw [Nat.toUInt16_eq, UInt16.toNat_ofNat']
    omega
  · rw [if_neg h]
    refine ⟨_, _, rfl, ?_⟩
    rw [Nat.toUInt16_eq, UInt16.toNat_ofNat']
    omega

/-- Input whose first byte is outside ASCII, and that is not a byte
order mark, decodes to text whose first unit is. -/
theorem textDecode_nonAscii {b : UInt8} {rest : List UInt8}
    (hb : 0x80 ≤ b.toNat) (hbom : dropBom (b :: rest) = b :: rest) :
    ∃ u us, textDecode (b :: rest) = u :: us ∧ 0x80 ≤ u.toNat := by
  obtain ⟨c, cs, hcs, hc⟩ := decode_nonAscii hb rest
  obtain ⟨u, us, hus, hu⟩ := units_nonAscii hc
  refine ⟨u, us ++ cs.flatMap units, ?_, hu⟩
  rw [textDecode, hbom, hcs, List.flatMap_cons, hus]
  rfl

end Lib.Utf8
