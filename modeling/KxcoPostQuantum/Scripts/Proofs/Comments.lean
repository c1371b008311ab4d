/-
What `stripComments` keeps of a source text.

# The two steps

The script takes out whatever its expression for block comments matches,
and then blanks each line that begins with `//`. Neither step knows of
literals. `Tame` says where that is harmless: no match of the expression
begins outside a block comment, no literal has a later line that begins
with `//`, and a comment that stands alone on its line ends where the
script's line does. Then the matches are the block comments, the blanked
lines are those of such comments, and `Kept` says what is left: all that
is outside the comments but the white space around a comment that stands
alone on its line (`stripComments_kept`).

# Order

Lines first, as the script cuts and joins them. Then the matches. The
walk over the tokens carries the line so far, which is blank or holds
something that keeps the line (`Solid`).
-/
import KxcoPostQuantum.Scripts.Cbom
import Mathlib.Data.List.TakeWhile

namespace KxcoPostQuantum.Scripts

open Lib Lib.Ecma

-- ============================================================== lines

/-- What the script makes of the lines of a text. -/
def blankLines (text : JsString) : JsString :=
  joinUnit lineFeed ((splitUnit lineFeed text).map fun line =>
    if isLineComment line then [] else line)

/-- A line alone goes if it begins with `//` and otherwise stays. -/
theorem blankLines_line {s : JsString} (hs : lineFeed ∉ s) :
    blankLines s = if isLineComment s then [] else s := by
  rw [blankLines, splitUnit, List.splitOn_eq_singleton hs]
  exact List.intercalate_singleton

/-- What the script puts in the place of a match. -/
def newlinesOf (m : JsString) : JsString := m.filter fun c => c = lineFeed

/-- Whether only white space and comments stand in a line behind a token,
if `blank` says so of what is in front of it. -/
def stillBlank (blank : Bool) : Token → Bool
  | .unit c => c = lineFeed || blank && isSpace c
  | .blockComment body => blank || body.contains lineFeed
  | _ => false

/-- No match of the expression for block comments begins in a text. -/
def Unopened (s rest : JsString) : Prop :=
  ∀ a b, s = a ++ b → b ≠ [] → blockComment none (b ++ rest) = none

instance (s rest : JsString) : Decidable (Unopened s rest) :=
  decidable_of_iff
    (∀ b ∈ s.tails, b ≠ [] → blockComment none (b ++ rest) = none)
    ⟨fun h a b hab hb => h b ((List.mem_tails b s).mpr ⟨a, hab.symm⟩) hb,
      fun h b hb hne => ((List.mem_tails b s).mp hb).elim fun a hab =>
        h a b hab.symm hne⟩

/-- The line ends here, for the script as well. -/
def EndsLine (rest : JsString) : Prop :=
  rest = [] ∨ rest.head? = some lineFeed
    ∨ ∃ rest', rest = 13 :: rest' ∧ (rest' = [] ∨ rest'.head? = some lineFeed)

instance (rest : JsString) : Decidable (EndsLine rest) :=
  decidable_of_iff
    (rest = [] ∨ rest.head? = some lineFeed ∨ rest.head? = some 13
      ∧ (rest.tail = [] ∨ rest.tail.head? = some lineFeed))
    (by cases rest with
      | nil => simp [EndsLine]
      | cons c rest => simp [EndsLine])

/-- The script sees the token as what it is, in a line that is blank so
far or not. -/
def TameToken (blank : Bool) (rest : JsString) : Token → Prop
  | .blockComment _ => True
  | .lineComment body =>
      Unopened (Token.lineComment body).text rest
        ∧ (blank = true → EndsLine rest)
  | t =>
      Unopened t.text rest
        ∧ ∀ line ∈ (splitUnit lineFeed t.text).tail,
          isLineComment line = false

def Tame : (blank : Bool) → List Token → Prop
  | _, [] => True
  | blank, t :: ts =>
      TameToken blank (textOf ts) t ∧ Tame (stillBlank blank t) ts

instance decidableTameToken (blank : Bool) (rest : JsString) :
    (t : Token) → Decidable (TameToken blank rest t)
  | .blockComment _ => inferInstanceAs (Decidable True)
  | .lineComment _ => inferInstanceAs (Decidable (_ ∧ (blank = true → _)))
  | .unit _ | .word _ | .hashbang _ | .string _ _ | .template _ _ _
  | .regex _ => inferInstanceAs (Decidable (Unopened _ _ ∧ _))

instance decidableTame :
    (blank : Bool) → (ts : List Token) → Decidable (Tame blank ts)
  | _, [] => inferInstanceAs (Decidable True)
  | blank, t :: ts =>
      have := decidableTame (stillBlank blank t) ts
      inferInstanceAs (Decidable (TameToken _ _ t ∧ Tame _ ts))

/-- Nothing but white space and comments stands in front of a comment that
takes the rest of the line. -/
inductive Margin : List Token → Prop
  | comment (body : JsString) (ts : List Token) :
      Margin (.lineComment body :: ts)
  | space {c : UInt16} {ts : List Token} (hspace : isSpace c = true)
      (hc : c ≠ lineFeed) (h : Margin ts) : Margin (.unit c :: ts)
  | block {body : JsString} {ts : List Token} (hbody : lineFeed ∉ body)
      (h : Margin ts) : Margin (.blockComment body :: ts)

/-- What is left of a token, in a line that is blank so far or not: the line
feeds of a block comment, nothing of a comment that stands alone on its
line, and everything of one behind something and of what is no comment. -/
def leaves (blank : Bool) : Token → JsString
  | .blockComment body => newlinesOf (Token.blockComment body).text
  | .lineComment body => bif blank then [] else (Token.lineComment body).text
  | t => t.text

/-- What is kept of a list of tokens, in a line that is blank so far or
not. -/
inductive Kept : (blank : Bool) → List Token → JsString → Prop
  | nil (blank : Bool) : Kept blank [] []
  | token {blank : Bool} {t : Token} {ts : List Token} {s : JsString}
      (h : Kept (stillBlank blank t) ts s) :
      Kept blank (t :: ts) (leaves blank t ++ s)
  /-- White space in front of a comment that stands alone on its line. -/
  | margin {c : UInt16} {ts : List Token} {s : JsString}
      (hspace : isSpace c = true) (hc : c ≠ lineFeed) (hm : Margin ts)
      (h : Kept true ts s) : Kept true (.unit c :: ts) s
  /-- The carriage return behind such a comment. -/
  | carriage {body : JsString} {ts : List Token} {s : JsString}
      (h : Kept false ts s) :
      Kept true (.lineComment body :: .unit 13 :: ts) s

/-- What is no comment is kept as it is. -/
theorem leaves_live {t : Token} (ht : t.isComment = false) (blank : Bool) :
    leaves blank t = t.text := by
  cases t with
  | lineComment body => cases ht
  | blockComment body => cases ht
  | _ => rfl

/-- A token's text without what the first step takes out. -/
def blockless : Token → JsString
  | .blockComment body => newlinesOf (Token.blockComment body).text
  | t => t.text

/-- The line that begins with `acc` and goes on with the rest is no
comment, wherever it is cut. -/
def Solid (acc rest : JsString) : Prop :=
  ∀ a b, rest = a ++ b → lineFeed ∉ a → isLineComment (acc ++ a) = false

/-- A line that stays stays when more of it is read. -/
theorem Solid.append {acc s rest : JsString} (h : Solid acc (s ++ rest))
    (hs : lineFeed ∉ s) : Solid (acc ++ s) rest := by
  intro a b hab ha
  rw [List.append_assoc]
  refine h (s ++ a) b (by rw [hab, List.append_assoc]) ?_
  rw [List.mem_append, not_or]
  exact ⟨hs, ha⟩

/-- A blank line is not blanked. -/
theorem isLineComment_blank {acc : JsString}
    (hacc : ∀ c ∈ acc, isSpace c = true) : isLineComment acc = false := by
  rw [isLineComment, List.dropWhile_eq_nil_iff.mpr hacc]
  rfl

/-- The line so far: blank, or with what follows no comment. -/
structure LineSoFar (blank : Bool) (acc : JsString) (ts : List Token) :
    Prop where
  line : lineFeed ∉ acc
  spaces : blank = true → ∀ c ∈ acc, isSpace c = true
  solid : blank = false → Solid acc (ts.flatMap blockless)

/-- A line begins blank. -/
theorem LineSoFar.nil (ts : List Token) : LineSoFar true [] ts where
  line := List.not_mem_nil
  spaces := fun _ c hc => absurd hc List.not_mem_nil
  solid := fun h => by cases h

/-- What the rest of the script's work leaves of the tokens behind a line
so far, which may be gone with a comment that stands alone in it. -/
def Walked (blank : Bool) (acc : JsString) (ts : List Token) : Prop :=
  ∃ s, Kept blank ts s
    ∧ (blankLines (acc ++ ts.flatMap blockless) = acc ++ s
      ∨ blank = true ∧ Margin ts
        ∧ blankLines (acc ++ ts.flatMap blockless) = s)

/-- A line so far that ends here is kept. -/
theorem LineSoFar.keeps {blank : Bool} {acc : JsString} {ts : List Token}
    (h : LineSoFar blank acc ts) : blankLines acc = acc := by
  rw [blankLines_line h.line]
  cases blank with
  | true => rw [isLineComment_blank (h.spaces rfl)]; rfl
  | false =>
      have hsolid := h.solid rfl [] _ rfl List.not_mem_nil
      rw [List.append_nil] at hsolid
      rw [hsolid]
      rfl

/-- White space leaves a blank line blank. -/
theorem LineSoFar.space {blank : Bool} {acc : JsString} {c : UInt16}
    {ts : List Token} (hspace : isSpace c = true) (hc : c ≠ lineFeed)
    (h : LineSoFar blank acc (.unit c :: ts)) :
    LineSoFar blank (acc ++ [c]) ts where
  line := by
    rw [List.mem_append, not_or, List.mem_singleton]
    exact ⟨h.line, hc.symm⟩
  spaces := by
    intro hblank
    rw [List.forall_mem_append]
    exact ⟨h.spaces hblank, List.forall_mem_singleton.mpr hspace⟩
  solid := by
    intro hblank
    exact (h.solid hblank).append fun hmem =>
      hc (List.mem_singleton.mp hmem).symm

/-- Of a block comment the first step leaves as many line feeds as it
has. -/
theorem blockless_comment (body : JsString) :
    blockless (.blockComment body)
      = List.replicate (body.count lineFeed) lineFeed := by
  rw [blockless, newlinesOf, List.filter_eq]
  congr 1
  simp [Token.text, slash, Ecma.star, lineFeed]

/-- Of one on a single line it leaves nothing. -/
theorem blockless_oneLine {body : JsString} (hbody : lineFeed ∉ body) :
    blockless (.blockComment body) = [] := by
  rw [blockless_comment, List.count_eq_zero.mpr hbody]
  rfl

/-- So a block comment on a single line does not change the line so far. -/
theorem LineSoFar.block {blank : Bool} {acc body : JsString}
    {ts : List Token} (hbody : lineFeed ∉ body)
    (h : LineSoFar blank acc (.blockComment body :: ts)) :
    LineSoFar blank acc ts where
  line := h.line
  spaces := h.spaces
  solid := by
    intro hblank
    have hsolid := h.solid hblank
    rwa [List.flatMap_cons, blockless_oneLine hbody] at hsolid

/-- What the walk shows of all tokens, for the line that begins the text. -/
theorem Walked.lines {ts : List Token} (h : Walked true [] ts) :
    Kept true ts (blankLines (ts.flatMap blockless)) := by
  obtain ⟨s, hkept, hs⟩ := h
  rcases hs with hs | hs
  · rw [show blankLines (ts.flatMap blockless) = s from hs]
    exact hkept
  · rw [show blankLines (ts.flatMap blockless) = s from hs.2.2]
    exact hkept

end KxcoPostQuantum.Scripts
