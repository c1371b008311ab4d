/-
JSON texts as ECMAScript reads and writes them.

A text is UTF-16 code units. A number is kept as its literal: what value
a literal has, and which literal a value gets, is the host's business.

# Reading

Two machines, each a fold. `lexStep` takes one unit and emits the tokens
that it completes: a number ends at the first unit that cannot continue
it, so one unit can end a number and be a token too. `State.step` takes
one token, with the open arrays and objects on a stack. No JSON text has
two neighbouring tokens that need a space between them, so the lexical
grammar can be run first and on its own.

# Writing

`print` is the text of the token string of a value, without spaces. A
string is quoted with every lone surrogate escaped, so the text is well
formed (`print_wellFormed`).

# What is proved

Reading undoes writing (`parse_print`). A text whose first unit is
outside ASCII is not JSON (`parse_nonAscii`).
-/
import KxcoPostQuantum.Lib.Utf8

namespace Lib

open Utf8

/-- A JSON value, its numbers as literals. -/
inductive Json
  | null
  | bool (b : Bool)
  | number (literal : List UInt16)
  | string (s : List UInt16)
  | array (elems : List Json)
  | object (members : List (List UInt16 × Json))

namespace Json

/-- Code units. -/
abbrev Text : Type := List UInt16

-- =========================================================== numbers

/-- How much of a number literal has been read. -/
inductive NumberState
  | sign | zero | integer | point | fraction
  | exponent | exponentSign | exponentDigits
  deriving DecidableEq

/-- A decimal digit. -/
def isDigit (c : UInt16) : Bool := 48 ≤ c.toNat && c.toNat ≤ 57

/-- What may follow the fraction. -/
def afterFraction (c : UInt16) : Option NumberState :=
  if c = 101 ∨ c = 69 then some .exponent else none

/-- What may follow the integer part. -/
def afterInteger (c : UInt16) : Option NumberState :=
  if c = 46 then some .point else afterFraction c

/-- A literal's next unit, or that it cannot be one. -/
def NumberState.next : NumberState → UInt16 → Option NumberState
  | .sign, c =>
      if c = 48 then some .zero
      else if isDigit c then some .integer else none
  | .zero, c => afterInteger c
  | .integer, c => if isDigit c then some .integer else afterInteger c
  | .point, c => if isDigit c then some .fraction else none
  | .fraction, c => if isDigit c then some .fraction else afterFraction c
  | .exponent, c =>
      if c = 43 ∨ c = 45 then some .exponentSign
      else if isDigit c then some .exponentDigits else none
  | .exponentSign, c => if isDigit c then some .exponentDigits else none
  | .exponentDigits, c => if isDigit c then some .exponentDigits else none

/-- The literal may end here. -/
def NumberState.complete : NumberState → Bool
  | .zero | .integer | .fraction | .exponentDigits => true
  | _ => false

/-- A literal's first unit. -/
def firstOfNumber (c : UInt16) : Option NumberState :=
  if c = 45 then some .sign else NumberState.next .sign c

/-- The rest of a literal. -/
def numberFrom : NumberState → Text → Option NumberState
  | s, [] => some s
  | s, c :: rest => (s.next c).bind fun s' => numberFrom s' rest

/-- A number literal. -/
def isNumber : Text → Bool
  | [] => false
  | c :: rest =>
      match (firstOfNumber c).bind fun s => numberFrom s rest with
      | some s => s.complete
      | none => false

-- ============================================================ tokens

/-- A token. -/
inductive Token
  | null
  | bool (b : Bool)
  | number (literal : Text)
  | string (s : Text)
  | openArray | closeArray | openObject | closeObject | comma | colon
  deriving DecidableEq

/-- A hexadecimal digit, in lower case. -/
def hexDigit (n : Nat) : UInt16 :=
  if n < 10 then (48 + n).toUInt16 else (97 + (n - 10)).toUInt16

/-- The value of a hexadecimal digit of either case. -/
def hexValue (c : UInt16) : Option Nat :=
  let n := c.toNat
  if 48 ≤ n ∧ n ≤ 57 then some (n - 48)
  else if 97 ≤ n ∧ n ≤ 102 then some (n - 97 + 10)
  else if 65 ≤ n ∧ n ≤ 70 then some (n - 65 + 10)
  else none

/-- One unit in a quoted string. -/
def escape (u : UInt16) : Text :=
  if u = 8 then [92, 98]
  else if u = 9 then [92, 116]
  else if u = 10 then [92, 110]
  else if u = 12 then [92, 102]
  else if u = 13 then [92, 114]
  else if u = 34 then [92, 34]
  else if u = 92 then [92, 92]
  else if u.toNat < 32 ∨ isLead u ∨ isTrail u then
    [92, 117, hexDigit (u.toNat / 4096), hexDigit (u.toNat / 256 % 16),
      hexDigit (u.toNat / 16 % 16), hexDigit (u.toNat % 16)]
  else [u]

/-- The inside of a quoted string, surrogate pairs kept as they are. -/
def quoted : Text → Text
  | [] => []
  | [u] => escape u
  | u :: v :: rest =>
      if isLead u ∧ isTrail v then u :: v :: quoted rest
      else escape u ++ quoted (v :: rest)

/-- A token's text. -/
def Token.text : Token → Text
  | .null => [110, 117, 108, 108]
  | .bool true => [116, 114, 117, 101]
  | .bool false => [102, 97, 108, 115, 101]
  | .number literal => literal
  | .string s => 34 :: (quoted s ++ [34])
  | .openArray => [91]
  | .closeArray => [93]
  | .openObject => [123]
  | .closeObject => [125]
  | .comma => [44]
  | .colon => [58]

-- ============================================================= lexer

/-- The lexer between two units. -/
inductive LexState
  | between
  /-- Inside `null`, `true` or `false`: what is left of the word. -/
  | word (left : Text) (token : Token)
  | number (read : Text) (state : NumberState)
  | string (read : Text)
  | escape (read : Text)
  /-- After `\u`: how many digits are left, and their value so far. -/
  | unicode (read : Text) (left value : Nat)

/-- A unit that begins a token or is white space. -/
def lexStart (c : UInt16) : Option (List Token × LexState) :=
  if c = 9 ∨ c = 10 ∨ c = 13 ∨ c = 32 then some ([], .between)
  else if c = 91 then some ([.openArray], .between)
  else if c = 93 then some ([.closeArray], .between)
  else if c = 123 then some ([.openObject], .between)
  else if c = 125 then some ([.closeObject], .between)
  else if c = 44 then some ([.comma], .between)
  else if c = 58 then some ([.colon], .between)
  else if c = 34 then some ([], .string [])
  else if c = 110 then some ([], .word [117, 108, 108] .null)
  else if c = 116 then some ([], .word [114, 117, 101] (.bool true))
  else if c = 102 then some ([], .word [97, 108, 115, 101] (.bool false))
  else (firstOfNumber c).map fun s => ([], .number [c] s)

/-- The unit after a backslash. -/
def unescape (c : UInt16) : Option UInt16 :=
  if c = 34 then some 34
  else if c = 92 then some 92
  else if c = 47 then some 47
  else if c = 98 then some 8
  else if c = 102 then some 12
  else if c = 110 then some 10
  else if c = 114 then some 13
  else if c = 116 then some 9
  else none

/-- One unit: the tokens it completes and what follows. -/
def lexStep : LexState → UInt16 → Option (List Token × LexState)
  | .between, c => lexStart c
  | .word left token, c =>
      match left with
      | [] => none
      | [d] => if c = d then some ([token], .between) else none
      | d :: left => if c = d then some ([], .word left token) else none
  | .number read s, c =>
      match s.next c with
      | some s' => some ([], .number (read ++ [c]) s')
      | none =>
          if s.complete then
            (lexStart c).map fun r => (.number read :: r.1, r.2)
          else none
  | .string read, c =>
      if c = 34 then some ([.string read], .between)
      else if c = 92 then some ([], .escape read)
      else if c.toNat < 32 then none
      else some ([], .string (read ++ [c]))
  | .escape read, c =>
      if c = 117 then some ([], .unicode read 4 0)
      else (unescape c).map fun u => ([], .string (read ++ [u]))
  | .unicode read left value, c =>
      (hexValue c).map fun d =>
        if left ≤ 1 then
          ([], .string (read ++ [(value * 16 + d).toUInt16]))
        else ([], .unicode read (left - 1) (value * 16 + d))

/-- The token an end of text completes. -/
def lexEnd : LexState → Option (List Token)
  | .between => some []
  | .number read s => if s.complete then some [.number read] else none
  | _ => none

/-- The tokens of a text. -/
def lex : LexState → Text → Option (List Token)
  | s, [] => lexEnd s
  | s, c :: rest =>
      (lexStep s c).bind fun r => (lex r.2 rest).map fun ts => r.1 ++ ts

-- ============================================================ parser

/-- An open array or object: what it has so far, and the name of the
member being read. -/
inductive Frame
  | array (done : List Json)
  | object (done : List (Text × Json)) (key : Text)

/-- The parser between two tokens. -/
inductive State
  /-- A value comes. -/
  | value (stack : List Frame)
  /-- After `[`: a value or the end. -/
  | element (stack : List Frame)
  /-- After `{`: a name or the end. -/
  | member (stack : List Frame)
  /-- After a comma in an object: a name. -/
  | key (done : List (Text × Json)) (stack : List Frame)
  /-- After a name: the colon. -/
  | colon (done : List (Text × Json)) (key : Text) (stack : List Frame)
  /-- After a value. -/
  | after (v : Json) (stack : List Frame)

/-- A token that begins a value. -/
def begin (stack : List Frame) : Token → Option State
  | .null => some (.after .null stack)
  | .bool b => some (.after (.bool b) stack)
  | .number literal => some (.after (.number literal) stack)
  | .string s => some (.after (.string s) stack)
  | .openArray => some (.element stack)
  | .openObject => some (.member stack)
  | _ => none

/-- One token. -/
def State.step : State → Token → Option State
  | .value stack, t => begin stack t
  | .element stack, .closeArray => some (.after (.array []) stack)
  | .element stack, t => begin (.array [] :: stack) t
  | .member stack, .closeObject => some (.after (.object []) stack)
  | .member stack, .string k => some (.colon [] k stack)
  | .key done stack, .string k => some (.colon done k stack)
  | .colon done k stack, .colon => some (.value (.object done k :: stack))
  | .after v (.array done :: stack), .comma =>
      some (.value (.array (done ++ [v]) :: stack))
  | .after v (.array done :: stack), .closeArray =>
      some (.after (.array (done ++ [v])) stack)
  | .after v (.object done k :: stack), .comma =>
      some (.key (done ++ [(k, v)]) stack)
  | .after v (.object done k :: stack), .closeObject =>
      some (.after (.object (done ++ [(k, v)])) stack)
  | _, _ => none

/-- The value of a token string. -/
def parseTokens : State → List Token → Option Json
  | .after v [], [] => some v
  | _, [] => none
  | s, t :: ts => (s.step t).bind fun s' => parseTokens s' ts

/-- The value of a text. -/
def parse (text : Text) : Option Json :=
  (lex .between text).bind (parseTokens (.value []))

-- =========================================================== printer

mutual

/-- The tokens of a value. -/
def tokens : Json → List Token
  | .null => [.null]
  | .bool b => [.bool b]
  | .number literal => [.number literal]
  | .string s => [.string s]
  | .array [] => [.openArray, .closeArray]
  | .array (e :: es) => .openArray :: (tokens e ++ moreElements es)
  | .object [] => [.openObject, .closeObject]
  | .object ((k, v) :: ms) =>
      .openObject :: .string k :: .colon :: (tokens v ++ moreMembers ms)

/-- The tokens of the elements after the first, and the end. -/
def moreElements : List Json → List Token
  | [] => [.closeArray]
  | e :: es => .comma :: (tokens e ++ moreElements es)

/-- The tokens of the members after the first, and the end. -/
def moreMembers : List (Text × Json) → List Token
  | [] => [.closeObject]
  | (k, v) :: ms =>
      .comma :: .string k :: .colon :: (tokens v ++ moreMembers ms)

end

/-- The text of a token string. -/
def textOf (ts : List Token) : Text := ts.flatMap Token.text

/-- The text of a value. -/
def print (j : Json) : Text := textOf (tokens j)

-- ==================================================== lexing a string

/-- A unit that completes nothing. -/
theorem lex_silent {s s' : LexState} {c : UInt16} (rest : Text)
    (h : lexStep s c = some ([], s')) : lex s (c :: rest) = lex s' rest := by
  rw [lex, h]
  simp

/-- The digit written for a value is read as it. -/
theorem hexValue_hexDigit : ∀ n < 16, hexValue (hexDigit n) = some n := by
  decide +kernel

/-- The digits of a `\u` escape, four of them, come to the unit they were
made of. -/
theorem lex_unicode (read : Text) (u : UInt16) (rest : Text) :
    lex (.unicode read 4 0)
      (hexDigit (u.toNat / 4096) :: hexDigit (u.toNat / 256 % 16)
        :: hexDigit (u.toNat / 16 % 16) :: hexDigit (u.toNat % 16) :: rest)
      = lex (.string (read ++ [u])) rest := by
  have hu := u.toNat_lt
  have hvalue : ((((0 * 16 + u.toNat / 4096) * 16 + u.toNat / 256 % 16) * 16
      + u.toNat / 16 % 16) * 16 + u.toNat % 16).toUInt16 = u := by
    rw [show (((0 * 16 + u.toNat / 4096) * 16 + u.toNat / 256 % 16) * 16
      + u.toNat / 16 % 16) * 16 + u.toNat % 16 = u.toNat from by omega,
      Nat.toUInt16_eq, UInt16.ofNat_toNat]
  rw [lex_silent _ (by
      rw [lexStep, hexValue_hexDigit _ (by omega)]; rfl),
    lex_silent _ (by rw [lexStep, hexValue_hexDigit _ (by omega)]; rfl),
    lex_silent _ (by rw [lexStep, hexValue_hexDigit _ (by omega)]; rfl),
    lex_silent _ (by rw [lexStep, hexValue_hexDigit _ (by omega)]; rfl)]
  rw [hvalue]

/-- A unit of a string that needs no escape. -/
theorem lex_plain {read : Text} {u : UInt16} (rest : Text) (h34 : u ≠ 34)
    (h92 : u ≠ 92) (h32 : ¬u.toNat < 32) :
    lex (.string read) (u :: rest) = lex (.string (read ++ [u])) rest := by
  refine lex_silent rest ?_
  rw [lexStep, if_neg h34, if_neg h92, if_neg h32]

/-- A unit of a string reads back from its escape. The quotation mark, the
backslash and the control characters have escapes of their own, and any
other unit stands for itself. -/
theorem lex_escape (read : Text) (u : UInt16) (rest : Text) :
    lex (.string read) (escape u ++ rest)
      = lex (.string (read ++ [u])) rest := by
  have hshort : ∀ c : UInt16, unescape c = some u → c ≠ 117 →
      lex (.string read) (92 :: c :: rest)
        = lex (.string (read ++ [u])) rest := by
    intro c hc h117
    rw [lex_silent _ (show lexStep (.string read) 92
      = some ([], .escape read) from rfl)]
    refine lex_silent rest ?_
    rw [lexStep, if_neg h117, hc]
    rfl
  unfold escape
  split
  next h => exact hshort 98 (by rw [h]; rfl) (by decide)
  split
  next h => exact hshort 116 (by rw [h]; rfl) (by decide)
  split
  next h => exact hshort 110 (by rw [h]; rfl) (by decide)
  split
  next h => exact hshort 102 (by rw [h]; rfl) (by decide)
  split
  next h => exact hshort 114 (by rw [h]; rfl) (by decide)
  split
  next h => exact hshort 34 (by rw [h]; rfl) (by decide)
  split
  next h => exact hshort 92 (by rw [h]; rfl) (by decide)
  split
  next =>
    simp only [List.cons_append, List.nil_append]
    rw [lex_silent _ (show lexStep (.string read) 92
        = some ([], .escape read) from rfl),
      lex_silent _ (show lexStep (.escape read) 117
        = some ([], .unicode read 4 0) from rfl)]
    exact lex_unicode read u rest
  next h34 h92 h =>
    exact lex_plain rest h34 h92 fun h32 => h (Or.inl h32)

/-- A surrogate is not a unit that needs a short escape. -/
theorem surrogate_plain {u : UInt16} (h : isLead u ∨ isTrail u) :
    u ≠ 34 ∧ u ≠ 92 ∧ ¬u.toNat < 32 := by
  unfold isLead isTrail at h
  refine ⟨?_, ?_, by omega⟩
  · rintro rfl
    revert h
    decide
  · rintro rfl
    revert h
    decide

/-- A string reads back from its quotation, unit by unit, and the quotation
mark at the end is the first that is not escaped. -/
theorem lex_quoted (s : Text) : ∀ (read rest : Text),
    lex (.string read) (quoted s ++ rest)
      = lex (.string (read ++ s)) rest := by
  induction s using quoted.induct with
  | case1 =>
      intro read rest
      rw [quoted, List.nil_append, List.append_nil]
  | case2 u =>
      intro read rest
      rw [quoted, lex_escape]
  | case3 u v s hpair ih =>
      intro read rest
      obtain ⟨hu34, hu92, hu32⟩ := surrogate_plain (Or.inl hpair.1)
      obtain ⟨hv34, hv92, hv32⟩ := surrogate_plain (Or.inr hpair.2)
      rw [quoted, if_pos hpair, List.cons_append, List.cons_append,
        lex_plain _ hu34 hu92 hu32, lex_plain _ hv34 hv92 hv32, ih]
      simp only [List.append_assoc, List.cons_append, List.nil_append]
  | case4 u v s hpair ih =>
      intro read rest
      rw [quoted, if_neg hpair, List.append_assoc, lex_escape, ih]
      simp only [List.append_assoc, List.cons_append, List.nil_append]

-- ===================================================== lexing a token

/-- What may follow a value: nothing, a comma or an end. -/
def Delimited (rest : Text) : Prop :=
  ∀ c ∈ rest.head?, c = 44 ∨ c = 93 ∨ c = 125

/-- No delimiter continues a literal. -/
theorem next_delimiter (s : NumberState) {c : UInt16}
    (hc : c = 44 ∨ c = 93 ∨ c = 125) : s.next c = none := by
  rcases hc with rfl | rfl | rfl <;> cases s <;> decide

/-- Nothing follows that a literal could go on with. -/
def EndsNumber (rest : Text) : Prop :=
  ∀ c ∈ rest.head?, ∀ s : NumberState, s.next c = none

/-- A literal ends in front of a delimiter. -/
theorem Delimited.endsNumber {rest : Text} (h : Delimited rest) :
    EndsNumber rest := fun c hc s => next_delimiter s (h c hc)

/-- A literal that has been read is a token when it ends there: what follows
begins with none of the units that could go on with a number. -/
theorem lex_numberEnd (read : Text) {s : NumberState} (hs : s.complete)
    {rest : Text} (hrest : EndsNumber rest) :
    lex (.number read s) rest
      = (lex .between rest).map (.number read :: ·) := by
  cases rest with
  | nil =>
      rw [lex, lexEnd, if_pos hs]
      rfl
  | cons c rest =>
      have hstep : lexStep (.number read s) c
          = (lexStart c).map fun r => (.number read :: r.1, r.2) := by
        simp only [lexStep, hrest c rfl s, if_pos hs]
      rw [lex, lex, hstep, Option.bind_map, Option.map_bind]
      rw [show lexStep .between c = lexStart c from rfl]
      congr 1
      funext r
      simp only [Function.comp_apply, Option.map_map]
      rfl

/-- The units of a literal are read one by one. -/
theorem lex_numberFrom : ∀ (lit read rest : Text) {s s' : NumberState},
    numberFrom s lit = some s' →
      lex (.number read s) (lit ++ rest)
        = lex (.number (read ++ lit) s') rest
  | [], read, rest, s, s', h => by
      rw [numberFrom] at h
      injection h with h
      rw [h, List.nil_append, List.append_nil]
  | c :: lit, read, rest, s, s', h => by
      rw [numberFrom, Option.bind_eq_some_iff] at h
      obtain ⟨t, ht, h⟩ := h
      have hstep : lexStep (.number read s) c
          = some ([], .number (read ++ [c]) t) := by
        rw [lexStep, ht]
      rw [List.cons_append, lex_silent _ hstep, lex_numberFrom lit _ rest h,
        List.append_assoc]
      rfl

/-- A literal begins with a sign or a digit. -/
theorem firstOfNumber_range {c : UInt16} {s : NumberState}
    (h : firstOfNumber c = some s) :
    c = 45 ∨ 48 ≤ c.toNat ∧ c.toNat ≤ 57 := by
  by_cases h45 : c = 45
  · exact Or.inl h45
  · right
    rw [firstOfNumber, if_neg h45, NumberState.next] at h
    by_cases h48 : c = 48
    · rw [h48]
      decide
    · rw [if_neg h48] at h
      by_cases hd : isDigit c
      · simpa [isDigit] using hd
      · rw [if_neg hd] at h
        cases h

/-- A unit that begins a literal begins nothing else. -/
theorem lexStart_number {c : UInt16} {s : NumberState}
    (h : firstOfNumber c = some s) :
    lexStart c = some ([], .number [c] s) := by
  have hrange := firstOfNumber_range h
  have hne : ∀ d : UInt16, d ≠ 45 → ¬(48 ≤ d.toNat ∧ d.toNat ≤ 57) →
      c ≠ d := by
    rintro d h45 hd rfl
    rcases hrange with h | h
    · exact h45 h
    · exact hd h
  rw [lexStart, h]
  simp only [hne 9 (by decide) (by decide), hne 10 (by decide) (by decide),
    hne 13 (by decide) (by decide), hne 32 (by decide) (by decide),
    hne 91 (by decide) (by decide), hne 93 (by decide) (by decide),
    hne 123 (by decide) (by decide), hne 125 (by decide) (by decide),
    hne 44 (by decide) (by decide), hne 58 (by decide) (by decide),
    hne 34 (by decide) (by decide), hne 110 (by decide) (by decide),
    hne 116 (by decide) (by decide), hne 102 (by decide) (by decide),
    or_false, if_false, Option.map_some]

/-- A literal is one token. -/
theorem lex_number {lit : Text} (hlit : isNumber lit) {rest : Text}
    (hrest : EndsNumber rest) :
    lex .between (lit ++ rest)
      = (lex .between rest).map (.number lit :: ·) := by
  cases lit with
  | nil => cases hlit
  | cons c lit =>
      rw [isNumber] at hlit
      cases hfirst : firstOfNumber c with
      | none =>
          rw [hfirst] at hlit
          cases hlit
      | some s =>
          cases hfrom : numberFrom s lit with
          | none =>
              rw [hfirst, Option.bind_some, hfrom] at hlit
              cases hlit
          | some s' =>
              rw [hfirst, Option.bind_some, hfrom] at hlit
              rw [List.cons_append,
                lex_silent _ (show lexStep .between c = _ from
                  lexStart_number hfirst),
                lex_numberFrom lit _ rest hfrom, lex_numberEnd _ hlit hrest]
              rfl

/-- A unit that completes a token. -/
theorem lex_completes {s : LexState} {c : UInt16} {t : Token} (rest : Text)
    (h : lexStep s c = some ([t], .between)) :
    lex s (c :: rest) = (lex .between rest).map (t :: ·) := by
  rw [lex, h]
  rfl

/-- What is left of a word. -/
theorem lex_word (t : Token) (rest : Text) : ∀ {left : Text}, left ≠ [] →
    lex (.word left t) (left ++ rest) = (lex .between rest).map (t :: ·)
  | [], h => absurd rfl h
  | [c], _ => lex_completes rest (by rw [lexStep, if_pos rfl])
  | c :: d :: left, _ => by
      have hstep : lexStep (.word (c :: d :: left) t) c
          = some ([], .word (d :: left) t) := by
        rw [lexStep, if_pos rfl]
        rintro ⟨⟩
      rw [List.cons_append, lex_silent _ hstep]
      exact lex_word t rest (List.cons_ne_nil d left)

/-- A token that is not a number is read whatever follows: a mark is one
unit, a word ends with its last letter, and a string with its quotation
mark. -/
theorem lex_token {t : Token} (ht : ∀ lit, t ≠ .number lit) (rest : Text) :
    lex .between (t.text ++ rest) = (lex .between rest).map (t :: ·) := by
  have hword : ∀ (c : UInt16) (left : Text), left ≠ [] →
      lexStep .between c = some ([], .word left t) →
      lex .between (c :: (left ++ rest))
        = (lex .between rest).map (t :: ·) := by
    intro c left hleft h
    rw [lex_silent _ h, lex_word t rest hleft]
  cases t with
  | null => exact hword 110 [117, 108, 108] (by simp) rfl
  | bool b =>
      cases b with
      | true => exact hword 116 [114, 117, 101] (by simp) rfl
      | false => exact hword 102 [97, 108, 115, 101] (by simp) rfl
  | number lit => exact absurd rfl (ht lit)
  | string s =>
      rw [Token.text, List.cons_append, List.append_assoc,
        lex_silent _ (show lexStep .between 34 = some ([], .string [])
          from rfl), lex_quoted]
      exact lex_completes rest rfl
  | openArray => exact lex_completes rest rfl
  | closeArray => exact lex_completes rest rfl
  | openObject => exact lex_completes rest rfl
  | closeObject => exact lex_completes rest rfl
  | comma => exact lex_completes rest rfl
  | colon => exact lex_completes rest rfl

-- ======================================================== round trip

/-- Every number of the value is a literal. -/
inductive Valid : Json → Prop
  | null : Valid .null
  | bool (b : Bool) : Valid (.bool b)
  | number {literal : Text} (h : isNumber literal) : Valid (.number literal)
  | string (s : Text) : Valid (.string s)
  | array {elems : List Json} (h : ∀ e ∈ elems, Valid e) :
      Valid (.array elems)
  | object {members : List (Text × Json)} (h : ∀ m ∈ members, Valid m.2) :
      Valid (.object members)

/-- The text of one token more. -/
theorem textOf_cons (t : Token) (ts : List Token) :
    textOf (t :: ts) = t.text ++ textOf ts := by
  rw [textOf, List.flatMap_cons]
  rfl

/-- The text of two token strings. -/
theorem textOf_append (ts us : List Token) :
    textOf (ts ++ us) = textOf ts ++ textOf us := by
  rw [textOf, List.flatMap_append]
  rfl

/-- What lexing gives of the text of some tokens, with more text after
it. -/
def Lexes (ts : List Token) (rest : Text) : Prop :=
  lex .between (textOf ts ++ rest) = (lex .between rest).map (ts ++ ·)

/-- No text has no tokens. -/
theorem Lexes.nil (rest : Text) : Lexes [] rest := by
  unfold Lexes
  simp [textOf]

/-- Two token strings are read one after the other. -/
theorem Lexes.append {ts us : List Token} {rest : Text}
    (ht : Lexes ts (textOf us ++ rest)) (hu : Lexes us rest) :
    Lexes (ts ++ us) rest := by
  unfold Lexes at *
  rw [textOf_append, List.append_assoc, ht, hu, Option.map_map]
  congr 1
  funext more
  exact (List.append_assoc ts us more).symm

/-- A token that is no number is read whatever follows. -/
theorem Lexes.cons {t : Token} (ht : ∀ lit, t ≠ .number lit)
    {ts : List Token} {rest : Text} (h : Lexes ts rest) :
    Lexes (t :: ts) rest := by
  unfold Lexes at *
  rw [textOf_cons, List.append_assoc, lex_token ht, h, Option.map_map]
  rfl

/-- Such a token alone. -/
theorem Lexes.single {t : Token} (ht : ∀ lit, t ≠ .number lit)
    (rest : Text) : Lexes [t] rest := .cons ht (.nil rest)

/-- A comma or an end is a delimiter. -/
private theorem delimited_cons {t : Token} (ts : List Token) (rest : Text)
    (ht : t = .comma ∨ t = .closeArray ∨ t = .closeObject) :
    Delimited (textOf (t :: ts) ++ rest) := by
  intro c hc
  rw [textOf_cons] at hc
  rcases ht with rfl | rfl | rfl
  · exact Or.inl (Option.some.inj hc).symm
  · exact Or.inr (Or.inl (Option.some.inj hc).symm)
  · exact Or.inr (Or.inr (Option.some.inj hc).symm)

/-- What follows an element begins with a delimiter. -/
private theorem delimited_elements (es : List Json) (rest : Text) :
    Delimited (textOf (moreElements es) ++ rest) := by
  cases es with
  | nil => exact delimited_cons [] rest (by simp)
  | cons e es => exact delimited_cons _ rest (by simp)

/-- What follows a member does, too. -/
private theorem delimited_members (ms : List (Text × Json)) (rest : Text) :
    Delimited (textOf (moreMembers ms) ++ rest) := by
  rcases ms with _ | ⟨⟨k, v⟩, ms⟩
  · exact delimited_cons [] rest (by simp)
  · rw [moreMembers]
    exact delimited_cons _ rest (by simp)

/-- The text of the elements after the first is lexed when each of them
is. -/
theorem lexes_elements {es : List Json} (rest : Text)
    (h : ∀ e ∈ es, ∀ rest, Delimited rest → Lexes (tokens e) rest) :
    Lexes (moreElements es) rest := by
  induction es with
  | nil => exact .single (by simp) rest
  | cons e es ih =>
      rw [List.forall_mem_cons] at h
      exact .cons (by simp)
        (.append (h.1 _ (delimited_elements es rest)) (ih h.2))

/-- The members after the first are read as they were written if their
values are. -/
theorem lexes_members {ms : List (Text × Json)} (rest : Text)
    (h : ∀ m ∈ ms, ∀ rest, Delimited rest → Lexes (tokens m.2) rest) :
    Lexes (moreMembers ms) rest := by
  induction ms with
  | nil => exact .single (by simp) rest
  | cons m ms ih =>
      obtain ⟨k, v⟩ := m
      rw [List.forall_mem_cons] at h
      rw [moreMembers]
      exact .cons (by simp) (.cons (by simp) (.cons (by simp)
        (.append (h.1 _ (delimited_members ms rest)) (ih h.2))))

/-- **Lexing undoes printing**, in front of a delimiter. A number would go
on with a digit behind it, which is why the statement speaks of what
follows; inside a value that is a comma or a bracket. -/
theorem lexes_tokens {j : Json} (hj : Valid j) :
    ∀ rest, Delimited rest → Lexes (tokens j) rest := by
  induction hj with
  | null =>
      intro rest _
      rw [tokens]
      exact .single (by simp) rest
  | bool b =>
      intro rest _
      rw [tokens]
      exact .single (by simp) rest
  | @number lit hlit =>
      intro rest hrest
      have hnumber := lex_number hlit hrest.endsNumber
      unfold Lexes
      rw [tokens, textOf_cons, List.append_assoc]
      exact hnumber
  | string s =>
      intro rest _
      rw [tokens]
      exact .single (by simp) rest
  | @array es _ ih =>
      intro rest _
      cases es with
      | nil =>
          rw [tokens]
          exact .cons (by simp) (.single (by simp) rest)
      | cons e es =>
          rw [List.forall_mem_cons] at ih
          rw [tokens]
          exact .cons (by simp) (.append (ih.1 _ (delimited_elements es rest))
            (lexes_elements rest ih.2))
  | @object ms _ ih =>
      intro rest _
      rcases ms with _ | ⟨⟨k, v⟩, ms⟩
      · rw [tokens]
        exact .cons (by simp) (.single (by simp) rest)
      · rw [List.forall_mem_cons] at ih
        rw [tokens]
        exact .cons (by simp) (.cons (by simp) (.cons (by simp)
          (.append (ih.1 _ (delimited_members ms rest))
            (lexes_members rest ih.2))))

/-- One token of a run of the parser. -/
theorem parseTokens_step {s s' : State} {t : Token} (ts : List Token)
    (h : s.step t = some s') :
    parseTokens s (t :: ts) = parseTokens s' ts := by
  rw [parseTokens, h]
  rfl

/-- No value begins with an end. -/
theorem tokens_head (j : Json) :
    ∃ t ts, tokens j = t :: ts ∧ t ≠ .closeArray := by
  match j with
  | .null | .bool _ | .number _ | .string _ | .array [] | .array (_ :: _)
  | .object [] | .object ((_, _) :: _) =>
      rw [tokens]
      exact ⟨_, _, rfl, by simp⟩

/-- Before its first element an array is open. -/
theorem parseTokens_element (stack : List Frame) (j : Json)
    (ts : List Token) :
    parseTokens (.element stack) (tokens j ++ ts)
      = parseTokens (.value (.array [] :: stack)) (tokens j ++ ts) := by
  obtain ⟨t, us, htokens, ht⟩ := tokens_head j
  have hstep : State.step (.element stack) t
      = State.step (.value (.array [] :: stack)) t := by
    cases t <;> first | rfl | exact absurd rfl ht
  rw [htokens, List.cons_append, parseTokens, parseTokens, hstep]

/-- What the parser does with the tokens of a value. -/
def Parses (j : Json) : Prop :=
  ∀ stack ts, parseTokens (.value stack) (tokens j ++ ts)
    = parseTokens (.after j stack) ts

/-- The elements after the first are gathered in order if each is parsed. By
induction over them, with those that have been read on the stack. -/
theorem parses_elements {es : List Json} (h : ∀ e ∈ es, Parses e)
    (stack : List Frame) (ts : List Token) :
    ∀ (v : Json) (done : List Json),
      parseTokens (.after v (.array done :: stack)) (moreElements es ++ ts)
        = parseTokens (.after (.array (done ++ v :: es)) stack) ts := by
  induction es with
  | nil =>
      intro v done
      exact parseTokens_step ts rfl
  | cons e es ih =>
      intro v done
      rw [List.forall_mem_cons] at h
      rw [moreElements, List.cons_append, List.append_assoc,
        parseTokens_step _ (show State.step _ .comma = some _ from rfl),
        h.1, ih h.2, List.append_assoc]
      rfl

/-- The members after the first likewise. -/
theorem parses_members {ms : List (Text × Json)}
    (h : ∀ m ∈ ms, Parses m.2) (stack : List Frame) (ts : List Token) :
    ∀ (k : Text) (v : Json) (done : List (Text × Json)),
      parseTokens (.after v (.object done k :: stack))
          (moreMembers ms ++ ts)
        = parseTokens (.after (.object (done ++ (k, v) :: ms)) stack) ts := by
  induction ms with
  | nil =>
      intro k v done
      exact parseTokens_step ts rfl
  | cons m ms ih =>
      intro k v done
      obtain ⟨l, w⟩ := m
      rw [List.forall_mem_cons] at h
      rw [moreMembers, List.cons_append, List.cons_append,
        List.cons_append, List.append_assoc,
        parseTokens_step _ (show State.step _ .comma = some _ from rfl),
        parseTokens_step _ (show State.step _ (.string l) = some _ from rfl),
        parseTokens_step _ (show State.step _ .colon = some _ from rfl),
        h.1, ih h.2, List.append_assoc]
      rfl

/-- **Parsing undoes tokenizing**, whatever is open. By induction over the
value, with the stack of what is open and the tokens behind the value left
arbitrary. -/
theorem parses_tokens {j : Json} (hj : Valid j) : Parses j := by
  induction hj with
  | null =>
      intro stack ts
      rw [tokens]
      exact parseTokens_step ts rfl
  | bool b =>
      intro stack ts
      rw [tokens]
      exact parseTokens_step ts rfl
  | number _ =>
      intro stack ts
      rw [tokens]
      exact parseTokens_step ts rfl
  | string s =>
      intro stack ts
      rw [tokens]
      exact parseTokens_step ts rfl
  | @array es _ ih =>
      intro stack ts
      cases es with
      | nil =>
          rw [tokens, List.cons_append, parseTokens_step _ (show
            State.step _ .openArray = some (.element stack) from rfl)]
          exact parseTokens_step ts rfl
      | cons e es =>
          rw [List.forall_mem_cons] at ih
          rw [tokens, List.cons_append, List.append_assoc,
            parseTokens_step _ (show
              State.step _ .openArray = some (.element stack) from rfl),
            parseTokens_element, ih.1, parses_elements ih.2]
          rfl
  | @object ms _ ih =>
      intro stack ts
      rcases ms with _ | ⟨⟨k, v⟩, ms⟩
      · rw [tokens, List.cons_append, parseTokens_step _ (show
          State.step _ .openObject = some (.member stack) from rfl)]
        exact parseTokens_step ts rfl
      · rw [List.forall_mem_cons] at ih
        rw [tokens, List.cons_append, List.cons_append, List.cons_append,
          List.append_assoc,
          parseTokens_step _ (show
            State.step _ .openObject = some (.member stack) from rfl),
          parseTokens_step _ (show
            State.step _ (.string k) = some (.colon [] k stack) from rfl),
          parseTokens_step _ (show State.step _ .colon
            = some (.value (.object [] k :: stack)) from rfl),
          ih.1, parses_members ih.2]
        rfl

/-- **Round trip.** -/
theorem parse_print {j : Json} (hj : Valid j) : parse (print j) = some j := by
  have hlex := lexes_tokens hj [] (by intro c hc; cases hc)
  have hparse := parses_tokens hj [] []
  unfold Lexes at hlex
  rw [List.append_nil] at hlex hparse
  rw [parse, print, hlex, lex, lexEnd, Option.map_some, Option.bind_some,
    List.append_nil, hparse]
  rfl

/-- A text whose first unit is outside ASCII is not JSON, for no token
begins with such a unit, nor is it white space. -/
theorem parse_nonAscii {u : UInt16} (hu : 0x80 ≤ u.toNat) (rest : Text) :
    parse (u :: rest) = none := by
  have hne : ∀ d : UInt16, d.toNat < 0x80 → u ≠ d := by
    rintro d hd rfl
    omega
  have hstart : lexStart u = none := by
    have hfirst : firstOfNumber u = none := by
      cases h : firstOfNumber u with
      | none => rfl
      | some s =>
          rcases firstOfNumber_range h with h | h
          · exact absurd h (hne 45 (by decide))
          · omega
    rw [lexStart, hfirst]
    simp only [hne 9 (by decide), hne 10 (by decide), hne 13 (by decide),
      hne 32 (by decide), hne 91 (by decide), hne 93 (by decide),
      hne 123 (by decide), hne 125 (by decide), hne 44 (by decide),
      hne 58 (by decide), hne 34 (by decide), hne 110 (by decide),
      hne 116 (by decide), hne 102 (by decide), or_false, if_false,
      Option.map_none]
  rw [parse, lex, lexStep, hstart]
  rfl

-- ==================================================== text that prints

/-- ASCII is well formed. -/
theorem wellFormed_ascii {s : Text} (hs : ∀ c ∈ s, c.toNat < 0x80) :
    WellFormed s := by
  induction s with
  | nil => exact .nil
  | cons c s ih =>
      rw [List.forall_mem_cons] at hs
      refine .unit ?_ ?_ (ih hs.2)
      · unfold isLead
        omega
      · unfold isTrail
        omega

/-- A given text is ASCII by evaluation. -/
theorem wellFormed_of_all {s : Text}
    (hs : (s.all fun c => c.toNat < 0x80) = true) : WellFormed s :=
  wellFormed_ascii fun c hc => of_decide_eq_true (List.all_eq_true.mp hs c hc)

/-- A digit is ASCII. -/
theorem hexDigit_ascii : ∀ n < 16, (hexDigit n).toNat < 0x80 := by
  decide +kernel

/-- One unit in a quoted string is well-formed whatever it is: lone
surrogates are escaped. -/
theorem escape_wellFormed (u : UInt16) : WellFormed (escape u) := by
  have hu := u.toNat_lt
  unfold escape
  split
  next => exact wellFormed_of_all (by decide)
  split
  next => exact wellFormed_of_all (by decide)
  split
  next => exact wellFormed_of_all (by decide)
  split
  next => exact wellFormed_of_all (by decide)
  split
  next => exact wellFormed_of_all (by decide)
  split
  next => exact wellFormed_of_all (by decide)
  split
  next => exact wellFormed_of_all (by decide)
  split
  next =>
    refine wellFormed_ascii ?_
    simp only [List.forall_mem_cons]
    exact ⟨by decide, by decide, hexDigit_ascii _ (by omega),
      hexDigit_ascii _ (by omega), hexDigit_ascii _ (by omega),
      hexDigit_ascii _ (by omega), by simp⟩
  next h =>
    exact .unit (fun hl => h (Or.inr (Or.inl hl)))
      (fun ht => h (Or.inr (Or.inr ht))) .nil

/-- The inside of a quoted string is well-formed: a lone surrogate is
written as an escape, which is ASCII. -/
theorem quoted_wellFormed (s : Text) : WellFormed (quoted s) := by
  induction s using quoted.induct with
  | case1 =>
      rw [quoted]
      exact .nil
  | case2 u =>
      rw [quoted]
      exact escape_wellFormed u
  | case3 u v s hpair ih =>
      rw [quoted, if_pos hpair]
      exact .pair hpair.1 hpair.2 ih
  | case4 u v s hpair ih =>
      rw [quoted, if_neg hpair]
      exact (escape_wellFormed u).append ih

/-- A literal's units are ASCII. -/
theorem next_ascii {s s' : NumberState} {c : UInt16}
    (h : s.next c = some s') : c.toNat < 0x80 := by
  by_contra hc
  have hne : ∀ d : UInt16, d.toNat < 0x80 → c ≠ d := by
    rintro d hd rfl
    exact hc hd
  have hdigit : isDigit c = false := by
    simp [isDigit]
    omega
  have h' : s.next c = none := by
    cases s <;> simp [NumberState.next, afterInteger, afterFraction, hdigit,
      hne 48 (by decide), hne 46 (by decide), hne 101 (by decide),
      hne 69 (by decide), hne 43 (by decide), hne 45 (by decide)]
  rw [h'] at h
  cases h

/-- A literal's units are ASCII, from any state of its reading. -/
theorem numberFrom_ascii : ∀ {lit : Text} {s s' : NumberState},
    numberFrom s lit = some s' → ∀ c ∈ lit, c.toNat < 0x80
  | [], _, _, _, c, hc => nomatch hc
  | d :: lit, s, s', h, c, hc => by
      rw [numberFrom, Option.bind_eq_some_iff] at h
      obtain ⟨t, ht, h⟩ := h
      rcases List.mem_cons.mp hc with rfl | hc
      · exact next_ascii ht
      · exact numberFrom_ascii h c hc

/-- A literal's units are ASCII. -/
theorem isNumber_ascii {lit : Text} (h : isNumber lit) :
    ∀ c ∈ lit, c.toNat < 0x80 := by
  cases lit with
  | nil => cases h
  | cons c lit =>
      rw [isNumber] at h
      cases hbind : (firstOfNumber c).bind fun s => numberFrom s lit with
      | none =>
          rw [hbind] at h
          cases h
      | some s =>
          obtain ⟨t, ht, hfrom⟩ := Option.bind_eq_some_iff.mp hbind
          intro d hd
          rcases List.mem_cons.mp hd with rfl | hd
          · rcases firstOfNumber_range ht with rfl | hr
            · decide
            · omega
          · exact numberFrom_ascii hfrom d hd

/-- Every number among the tokens is a literal. -/
def ValidTokens (ts : List Token) : Prop :=
  ∀ lit, .number lit ∈ ts → isNumber lit

/-- The text of a token is well-formed, if a number's literal is one. -/
theorem text_wellFormed {t : Token}
    (ht : ∀ lit, t = .number lit → isNumber lit) : WellFormed t.text := by
  cases t with
  | number lit => exact wellFormed_ascii (isNumber_ascii (ht lit rfl))
  | string s =>
      exact WellFormed.append (s := [34])
        (wellFormed_of_all (by decide))
        ((quoted_wellFormed s).append (wellFormed_of_all (by decide)))
  | bool b => cases b <;> exact wellFormed_of_all (by decide)
  | _ => exact wellFormed_of_all (by decide)

/-- So is that of a token string. -/
theorem textOf_wellFormed {ts : List Token} (hts : ValidTokens ts) :
    WellFormed (textOf ts) := by
  induction ts with
  | nil => exact .nil
  | cons t ts ih =>
      rw [textOf_cons]
      refine (text_wellFormed fun lit hl => ?_).append
        (ih fun lit hl => hts lit (List.mem_cons_of_mem t hl))
      exact hts lit (hl ▸ List.mem_cons_self)

/-- The numbers among the elements after the first are literals if those of
each element are. -/
theorem validTokens_elements {es : List Json}
    (h : ∀ e ∈ es, ValidTokens (tokens e)) :
    ValidTokens (moreElements es) := by
  induction es with
  | nil =>
      intro lit hl
      simp [moreElements] at hl
  | cons e es ih =>
      rw [List.forall_mem_cons] at h
      intro lit hl
      simp only [moreElements, List.mem_cons, List.mem_append] at hl
      rcases hl with hl | hl | hl
      · cases hl
      · exact h.1 lit hl
      · exact ih h.2 lit hl

/-- Those among the members after the first likewise. -/
theorem validTokens_members {ms : List (Text × Json)}
    (h : ∀ m ∈ ms, ValidTokens (tokens m.2)) :
    ValidTokens (moreMembers ms) := by
  induction ms with
  | nil =>
      intro lit hl
      simp [moreMembers] at hl
  | cons m ms ih =>
      obtain ⟨k, v⟩ := m
      rw [List.forall_mem_cons] at h
      intro lit hl
      simp only [moreMembers, List.mem_cons, List.mem_append] at hl
      rcases hl with hl | hl | hl | hl | hl
      · cases hl
      · cases hl
      · cases hl
      · exact h.1 lit hl
      · exact ih h.2 lit hl

/-- The numbers among the tokens of a valid value are literals, by induction
over the value; the other tokens are valid whatever they are. -/
theorem validTokens_tokens {j : Json} (hj : Valid j) :
    ValidTokens (tokens j) := by
  induction hj with
  | null =>
      intro lit hl
      simp [tokens] at hl
  | bool b =>
      intro lit hl
      simp [tokens] at hl
  | number h =>
      intro lit hl
      simp only [tokens, List.mem_singleton, Token.number.injEq] at hl
      rw [hl]
      exact h
  | string s =>
      intro lit hl
      simp [tokens] at hl
  | @array es _ ih =>
      intro lit hl
      cases es with
      | nil => simp [tokens] at hl
      | cons e es =>
          rw [List.forall_mem_cons] at ih
          simp only [tokens, List.mem_cons, List.mem_append] at hl
          rcases hl with hl | hl | hl
          · cases hl
          · exact ih.1 lit hl
          · exact validTokens_elements ih.2 lit hl
  | @object ms _ ih =>
      intro lit hl
      rcases ms with _ | ⟨⟨k, v⟩, ms⟩
      · simp [tokens] at hl
      · rw [List.forall_mem_cons] at ih
        simp only [tokens, List.mem_cons, List.mem_append] at hl
        rcases hl with hl | hl | hl | hl | hl
        · cases hl
        · cases hl
        · cases hl
        · exact ih.1 lit hl
        · exact validTokens_members ih.2 lit hl

/-- A printed text has no lone surrogate. -/
theorem print_wellFormed {j : Json} (hj : Valid j) :
    WellFormed (print j) :=
  textOf_wellFormed (validTokens_tokens hj)

/-- A text begins with an ASCII unit. -/
theorem print_head {j : Json} (hj : Valid j) :
    ∃ c rest, print j = c :: rest ∧ c.toNat < 0x80 := by
  cases hj with
  | null => exact ⟨110, _, rfl, by decide⟩
  | bool b => cases b <;> exact ⟨_, _, rfl, by decide⟩
  | @number lit h =>
      have hprint : print (.number lit) = lit := by
        rw [print, tokens, textOf_cons]
        exact List.append_nil lit
      rw [hprint]
      cases lit with
      | nil => cases h
      | cons c lit =>
          exact ⟨c, lit, rfl, isNumber_ascii h c List.mem_cons_self⟩
  | string s => exact ⟨34, _, rfl, by decide⟩
  | @array es _ =>
      cases es with
      | nil => exact ⟨91, _, rfl, by decide⟩
      | cons e es =>
          rw [print, tokens, textOf_cons]
          exact ⟨91, _, rfl, by decide⟩
  | @object ms _ =>
      rcases ms with _ | ⟨⟨k, v⟩, ms⟩
      · exact ⟨123, _, rfl, by decide⟩
      · rw [print, tokens, textOf_cons]
        exact ⟨123, _, rfl, by decide⟩

/-- **Round trip** through UTF-8. -/
theorem textDecode_print {j : Json} (hj : Valid j) :
    textDecode (textEncode (print j)) = print j := by
  obtain ⟨c, rest, hprint, hc⟩ := print_head hj
  refine textDecode_textEncode (print_wellFormed hj) ?_
  rw [hprint]
  rintro ⟨⟩
  exact absurd hc (by decide)

/-- Printed data reads back, through UTF-8 too. -/
theorem parse_textDecode_print {j : Json} (hj : Valid j) :
    parse (textDecode (textEncode (print j))) = some j := by
  rw [textDecode_print hj, parse_print hj]

end Json
end Lib
