/-
JSON texts laid out over lines, as ECMAScript writes them when it is
given a gap.

`indented` puts every element and every member on a line of its own,
deeper by the gap than what it is in. That the text reads back is a fact
about white space alone: `Spaced` says that a text is some tokens with
white space between them, the lexer returns the tokens of any such text
(`Spaced.lex`), and `indented` is one (`spaced_indented`).
-/
import KxcoPostQuantum.Lib.Json

namespace Lib.Json

open Utf8

-- ============================================================ printer

mutual

/-- The text of a value whose own line is indented by `indent`. -/
def indented (gap indent : Text) : Json → Text
  | .null => Token.null.text
  | .bool b => (Token.bool b).text
  | .number literal => (Token.number literal).text
  | .string s => (Token.string s).text
  | .array [] => [91, 93]
  | .array (e :: es) =>
      91 :: 10 :: (indent ++ gap ++ (indented gap (indent ++ gap) e
        ++ indentedElements gap indent es))
  | .object [] => [123, 125]
  | .object ((k, v) :: ms) =>
      123 :: 10 :: (indent ++ gap ++ ((Token.string k).text
        ++ 58 :: 32 :: (indented gap (indent ++ gap) v
          ++ indentedMembers gap indent ms)))

/-- The lines of the elements after the first, and the end. -/
def indentedElements (gap indent : Text) : List Json → Text
  | [] => 10 :: (indent ++ [93])
  | e :: es =>
      44 :: 10 :: (indent ++ gap ++ (indented gap (indent ++ gap) e
        ++ indentedElements gap indent es))

/-- The lines of the members after the first, and the end. -/
def indentedMembers (gap indent : Text) : List (Text × Json) → Text
  | [] => 10 :: (indent ++ [125])
  | (k, v) :: ms =>
      44 :: 10 :: (indent ++ gap ++ ((Token.string k).text
        ++ 58 :: 32 :: (indented gap (indent ++ gap) v
          ++ indentedMembers gap indent ms)))

end

-- ======================================================== white space

/-- A unit of white space. -/
def isSpace (c : UInt16) : Prop := c = 9 ∨ c = 10 ∨ c = 13 ∨ c = 32

/-- No white space continues a literal. -/
theorem next_space (s : NumberState) {c : UInt16} (hc : isSpace c) :
    s.next c = none := by
  rcases hc with rfl | rfl | rfl | rfl <;> cases s <;> decide

theorem lexStart_space {c : UInt16} (hc : isSpace c) :
    lexStart c = some ([], .between) := if_pos hc

/-- A text of some tokens, with any white space between them that a
literal needs to end. -/
inductive Spaced : List Token → Text → Prop
  | nil : Spaced [] []
  | space {ts : List Token} {text : Text} {c : UInt16} (hc : isSpace c)
      (h : Spaced ts text) : Spaced ts (c :: text)
  | token {ts : List Token} {text : Text} {t : Token}
      (ht : ∀ lit, t = .number lit → isNumber lit ∧ EndsNumber text)
      (h : Spaced ts text) : Spaced (t :: ts) (t.text ++ text)

/-- **The lexer skips white space**, so a text that has it between its
tokens has the tokens of the one without. -/
theorem Spaced.lex {ts : List Token} {text : Text} (h : Spaced ts text) :
    Json.lex .between text = some ts := by
  induction h with
  | nil => rw [Json.lex, lexEnd]
  | @space ts text c hc _ ih =>
      rw [lex_silent text (show lexStep .between c = _ from
        lexStart_space hc), ih]
  | @token ts text t ht _ ih =>
      by_cases hnum : ∃ lit, t = .number lit
      · obtain ⟨lit, rfl⟩ := hnum
        obtain ⟨hlit, hends⟩ := ht lit rfl
        rw [Token.text, lex_number hlit hends, ih]
        rfl
      · rw [lex_token (fun lit hlit => hnum ⟨lit, hlit⟩), ih]
        rfl

/-- Such a text has no lone surrogate. -/
theorem Spaced.wellFormed {ts : List Token} {text : Text}
    (h : Spaced ts text) : WellFormed text := by
  induction h with
  | nil => exact .nil
  | @space ts text c hc _ ih =>
      refine WellFormed.append (s := [c]) (wellFormed_ascii ?_) ih
      intro d hd
      rw [List.mem_singleton.mp hd]
      rcases hc with rfl | rfl | rfl | rfl <;> decide
  | @token ts text t ht _ ih =>
      exact (text_wellFormed fun lit hlit => (ht lit hlit).1).append ih

/-- A token that is not a number, whatever follows. -/
theorem Spaced.cons {ts : List Token} {text : Text} {t : Token}
    (ht : ∀ lit, t ≠ .number lit) (h : Spaced ts text) :
    Spaced (t :: ts) (t.text ++ text) :=
  .token (fun lit hlit => absurd hlit (ht lit)) h

/-- Any white space in front. -/
theorem Spaced.spaces {ts : List Token} {text gap : Text}
    (hgap : ∀ c ∈ gap, isSpace c) (h : Spaced ts text) :
    Spaced ts (gap ++ text) := by
  induction gap with
  | nil => exact h
  | cons c gap ih =>
      rw [List.forall_mem_cons] at hgap
      exact .space hgap.1 (ih hgap.2)

-- ======================================================== round trip

private theorem endsNumber_cons {c : UInt16} (text : Text)
    (hc : isSpace c ∨ c = 44) : EndsNumber (c :: text) := by
  intro d hd s
  cases Option.some.inj hd
  rcases hc with hc | rfl
  · exact next_space s hc
  · exact next_delimiter s (Or.inl rfl)

private theorem endsNumber_elements (gap indent : Text) (es : List Json)
    (text : Text) :
    EndsNumber (indentedElements gap indent es ++ text) := by
  cases es with
  | nil =>
      rw [indentedElements]
      exact endsNumber_cons _ (Or.inl (Or.inr (Or.inl rfl)))
  | cons e es =>
      rw [indentedElements]
      exact endsNumber_cons _ (Or.inr rfl)

private theorem endsNumber_members (gap indent : Text)
    (ms : List (Text × Json)) (text : Text) :
    EndsNumber (indentedMembers gap indent ms ++ text) := by
  rcases ms with _ | ⟨⟨k, v⟩, ms⟩
  · rw [indentedMembers]
    exact endsNumber_cons _ (Or.inl (Or.inr (Or.inl rfl)))
  · rw [indentedMembers]
    exact endsNumber_cons _ (Or.inr rfl)

/-- What `indented` writes of a value, with more text after it. -/
def Indents (gap : Text) (j : Json) : Prop :=
  ∀ indent, (∀ c ∈ indent, isSpace c) → ∀ ts text, EndsNumber text →
    Spaced ts text →
    Spaced (tokens j ++ ts) (indented gap indent j ++ text)

/-- A line break and the indentation of the next line. -/
theorem spaced_line {indent : Text} (hindent : ∀ c ∈ indent, isSpace c)
    {ts : List Token} {text : Text} (h : Spaced ts text) :
    Spaced ts (10 :: (indent ++ text)) :=
  .space (Or.inr (Or.inl rfl)) (.spaces hindent h)

section

variable {gap indent : Text} (hgap : ∀ c ∈ gap, isSpace c)
  (hindent : ∀ c ∈ indent, isSpace c)

include hgap hindent

theorem deeper : ∀ c ∈ indent ++ gap, isSpace c := by
  intro c hc
  exact (List.mem_append.mp hc).elim (hindent c) (hgap c)

/-- An element on its line. -/
theorem spaced_element {j : Json} (h : Indents gap j) {ts : List Token}
    {text : Text} (hends : EndsNumber text) (htext : Spaced ts text) :
    Spaced (tokens j ++ ts)
      (10 :: (indent ++ gap ++ (indented gap (indent ++ gap) j ++ text))) :=
  have hdeeper := deeper hgap hindent
  spaced_line hdeeper (h _ hdeeper _ _ hends htext)

/-- A member on its line. -/
theorem spaced_member {k : Text} {j : Json} (h : Indents gap j)
    {ts : List Token} {text : Text} (hends : EndsNumber text)
    (htext : Spaced ts text) :
    Spaced (.string k :: .colon :: (tokens j ++ ts))
      (10 :: (indent ++ gap ++ ((Token.string k).text
        ++ 58 :: 32 :: (indented gap (indent ++ gap) j ++ text)))) := by
  have hdeeper := deeper hgap hindent
  have hvalue := h _ hdeeper _ _ hends htext
  have hcolon := Spaced.cons (t := .colon) (by simp)
    (.space (Or.inr (Or.inr (Or.inr rfl))) hvalue)
  exact spaced_line hdeeper (.cons (t := .string k) (by simp) hcolon)

theorem spaced_elements {es : List Json} (h : ∀ e ∈ es, Indents gap e)
    {ts : List Token} {text : Text} (htext : Spaced ts text) :
    Spaced (moreElements es ++ ts)
      (indentedElements gap indent es ++ text) := by
  induction es with
  | nil =>
      rw [moreElements, indentedElements, List.cons_append,
        List.cons_append, List.append_assoc]
      exact spaced_line hindent (.cons (t := .closeArray) (by simp) htext)
  | cons e es ih =>
      rw [List.forall_mem_cons] at h
      have helement := spaced_element hgap hindent h.1
        (endsNumber_elements gap indent es text) (ih h.2)
      rw [moreElements, indentedElements]
      simp only [List.cons_append, List.append_assoc] at helement ⊢
      exact .cons (t := .comma) (by simp) helement

theorem spaced_members {ms : List (Text × Json)}
    (h : ∀ m ∈ ms, Indents gap m.2) {ts : List Token} {text : Text}
    (htext : Spaced ts text) :
    Spaced (moreMembers ms ++ ts)
      (indentedMembers gap indent ms ++ text) := by
  induction ms with
  | nil =>
      rw [moreMembers, indentedMembers, List.cons_append,
        List.cons_append, List.append_assoc]
      exact spaced_line hindent (.cons (t := .closeObject) (by simp) htext)
  | cons m ms ih =>
      obtain ⟨k, v⟩ := m
      rw [List.forall_mem_cons] at h
      have hmember := spaced_member (k := k) hgap hindent h.1
        (endsNumber_members gap indent ms text) (ih h.2)
      rw [moreMembers, indentedMembers]
      simp only [List.cons_append, List.append_assoc] at hmember ⊢
      exact .cons (t := .comma) (by simp) hmember

end

/-- **A text laid out over lines is its tokens and white space.** By
induction over the value: what the layout adds stands between two tokens, a
line break and some gaps, or one space. -/
theorem spaced_indented {gap : Text} (hgap : ∀ c ∈ gap, isSpace c)
    {j : Json} (hj : Valid j) : Indents gap j := by
  induction hj with
  | null =>
      intro indent _ ts text _ htext
      rw [tokens, indented]
      exact .cons (by simp) htext
  | bool b =>
      intro indent _ ts text _ htext
      rw [tokens, indented]
      exact .cons (by simp) htext
  | @number lit hlit =>
      intro indent _ ts text hends htext
      rw [tokens, indented]
      refine .token (fun lit' heq => ?_) htext
      cases heq
      exact ⟨hlit, hends⟩
  | string s =>
      intro indent _ ts text _ htext
      rw [tokens, indented]
      exact .cons (by simp) htext
  | @array es _ ih =>
      intro indent hindent ts text _ htext
      cases es with
      | nil =>
          rw [tokens, indented]
          exact .cons (t := .openArray) (by simp)
            (.cons (t := .closeArray) (by simp) htext)
      | cons e es =>
          rw [List.forall_mem_cons] at ih
          have helement := spaced_element hgap hindent ih.1
            (endsNumber_elements gap indent es text)
            (spaced_elements hgap hindent ih.2 htext)
          rw [tokens, indented]
          simp only [List.cons_append, List.append_assoc] at helement ⊢
          exact .cons (t := .openArray) (by simp) helement
  | @object ms _ ih =>
      intro indent hindent ts text _ htext
      rcases ms with _ | ⟨⟨k, v⟩, ms⟩
      · rw [tokens, indented]
        exact .cons (t := .openObject) (by simp)
          (.cons (t := .closeObject) (by simp) htext)
      · rw [List.forall_mem_cons] at ih
        have hmember := spaced_member (k := k) hgap hindent ih.1
          (endsNumber_members gap indent ms text)
          (spaced_members hgap hindent ih.2 htext)
        rw [tokens, indented]
        simp only [List.cons_append, List.append_assoc] at hmember ⊢
        exact .cons (t := .openObject) (by simp) hmember

/-- The text of a value and a line end, which is what files hold. -/
theorem spaced_file {gap : Text} (hgap : ∀ c ∈ gap, isSpace c) {j : Json}
    (hj : Valid j) : Spaced (tokens j) (indented gap [] j ++ [10]) := by
  have hend := endsNumber_cons [] (Or.inl (Or.inr (Or.inl rfl)))
  have htext := spaced_indented hgap hj [] (by simp) [] [10] hend
    (.space (Or.inr (Or.inl rfl)) .nil)
  rw [List.append_nil] at htext
  exact htext

/-- **Round trip** of a text laid out over lines. -/
theorem parse_indented {gap : Text} (hgap : ∀ c ∈ gap, isSpace c)
    {j : Json} (hj : Valid j) :
    parse (indented gap [] j ++ [10]) = some j := by
  have hparse := parses_tokens hj [] []
  rw [List.append_nil] at hparse
  rw [parse, (spaced_file hgap hj).lex, Option.bind_some, hparse]
  rfl

/-- An object's text reads back through UTF-8 too. -/
theorem parse_textDecode_indented {gap : Text} (hgap : ∀ c ∈ gap, isSpace c)
    {ms : List (Text × Json)} (hj : Valid (.object ms)) :
    parse (textDecode (textEncode (indented gap [] (.object ms) ++ [10])))
      = some (.object ms) := by
  have hhead : (indented gap [] (.object ms) ++ [10]).head? = some 123 := by
    rcases ms with _ | ⟨⟨k, v⟩, ms⟩ <;> rw [indented] <;> rfl
  rw [textDecode_textEncode (spaced_file hgap hj).wellFormed
    (by rw [hhead]; decide)]
  exact parse_indented hgap hj

end Lib.Json
