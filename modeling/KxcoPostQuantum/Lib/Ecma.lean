/-
The lexical grammar of ECMAScript modules.

# Tokens

A text is cut into `Token`s: comments, string literals, the parts of
templates, regular expression literals, words (names, key words, numbers)
and single units, which are white space, line terminators and the units of
punctuators. `Token.Valid` says what each kind looks like, `Token.Follows`
what may stand behind it, and `Lexes` puts them together.

# What is left open

Whether a slash that begins no comment divides or begins a regular
expression, and whether a brace closes a block or the substitution of a
template, is decided by the syntactic grammar. `Lexes` allows both, so
that what is shown of every cutting holds of the one a parser makes.
-/
import Mathlib.Data.List.Infix

namespace Lib.Ecma

abbrev Text : Type := List UInt16

-- ============================================================== units

def lineFeed : UInt16 := 10
def slash : UInt16 := 47
def star : UInt16 := 42
def backslash : UInt16 := 92
def backquote : UInt16 := 96
def leftBrace : UInt16 := 123
def rightBrace : UInt16 := 125

/-- The end of a line. -/
def isLineTerminator (c : UInt16) : Bool :=
  c = 10 || c = 13 || c = 0x2028 || c = 0x2029

/-- White space or the end of a line: what `\s` matches. -/
def isSpace (c : UInt16) : Bool :=
  let n := c.toNat
  9 ≤ n && n ≤ 13 || n = 0x20 || n = 0xA0 || n = 0x1680
    || 0x2000 ≤ n && n ≤ 0x200A || n = 0x2028 || n = 0x2029 || n = 0x202F
    || n = 0x205F || n = 0x3000 || n = 0xFEFF

/-- What `\w` matches. -/
def isWord (c : UInt16) : Bool :=
  let n := c.toNat
  48 ≤ n && n ≤ 57 || 65 ≤ n && n ≤ 90 || 97 ≤ n && n ≤ 122 || n = 95

/-- A unit of a name or a number. Every unit beyond ASCII that is not
white space counts as one. -/
def isNameUnit (c : UInt16) : Bool :=
  isWord c || c = 36 || 0x80 ≤ c.toNat && !isSpace c

-- ============================================================= bodies

/-- What may stand between the quotes of a string literal. -/
def stringBody (quote : UInt16) : Text → Bool
  | 92 :: 13 :: 10 :: rest => stringBody quote rest
  | 92 :: _ :: rest => stringBody quote rest
  | c :: rest =>
      c ≠ quote && c ≠ backslash && c ≠ 10 && c ≠ 13
        && stringBody quote rest
  | [] => true

/-- What may stand in a part of a template. -/
def templateBody : Text → Bool
  | 92 :: _ :: rest => templateBody rest
  | 36 :: 123 :: _ => false
  | c :: rest => c ≠ backquote && c ≠ backslash && templateBody rest
  | [] => true

/-- What may stand between the slashes of a regular expression. -/
def regexBody : (inClass : Bool) → Text → Bool
  | inClass, 92 :: c :: rest => !isLineTerminator c && regexBody inClass rest
  | inClass, c :: rest =>
      !isLineTerminator c && c ≠ backslash
        && bif inClass then regexBody (c ≠ 93) rest
          else c ≠ slash && regexBody (c = 91) rest
  | inClass, [] => !inClass

/-- What may stand in a block comment. -/
def blockBody : Text → Bool
  | 42 :: 47 :: _ => false
  | _ :: rest => blockBody rest
  | [] => true

-- ============================================================= tokens

inductive Token
  /-- White space, a line terminator, or a unit of a punctuator. -/
  | unit (c : UInt16)
  /-- A name, a key word, or the letters and digits of a number. -/
  | word (s : Text)
  | lineComment (body : Text)
  | blockComment (body : Text)
  /-- The first line of a script that a shell can run. -/
  | hashbang (body : Text)
  | string (quote : UInt16) (body : Text)
  /-- A part of a template: it is the first one or follows a substitution,
  and it is the last one or stands in front of one. -/
  | template (isFirst : Bool) (body : Text) (isLast : Bool)
  | regex (body : Text)
  deriving DecidableEq

namespace Token

def text : Token → Text
  | unit c => [c]
  | word s => s
  | lineComment body => slash :: slash :: body
  | blockComment body => slash :: star :: (body ++ [star, slash])
  | hashbang body => 35 :: 33 :: body
  | string quote body => quote :: (body ++ [quote])
  | template isFirst body isLast =>
      (bif isFirst then backquote else rightBrace) ::
        (body ++ bif isLast then [backquote] else [36, leftBrace])
  | regex body => slash :: (body ++ [slash])

def isComment : Token → Bool
  | lineComment _ | blockComment _ => true
  | _ => false

/-- What a token of each kind looks like. -/
def Valid : Token → Prop
  | unit c => isNameUnit c = false ∧ c ≠ 34 ∧ c ≠ 39 ∧ c ≠ backquote
  | word s => s ≠ [] ∧ ∀ c ∈ s, isNameUnit c = true
  | lineComment body | hashbang body =>
      ∀ c ∈ body, isLineTerminator c = false
  | blockComment body => blockBody body = true
  | string quote body =>
      (quote = 34 ∨ quote = 39) ∧ stringBody quote body = true
  | template _ body _ => templateBody body = true
  | regex body =>
      body ≠ [] ∧ body.head? ≠ some star ∧ regexBody false body = true

/-- What may stand behind it: a word and a comment to the end of the line
are as long as they can be, and two slashes, or a slash and a star, begin
a comment. -/
def Follows (next : Option UInt16) : Token → Prop
  | unit c => c = slash → next ≠ some slash ∧ next ≠ some star
  | word _ => ∀ c, next = some c → isNameUnit c = false
  | lineComment _ | hashbang _ =>
      ∀ c, next = some c → isLineTerminator c = true
  | _ => True

instance decidableValid : (t : Token) → Decidable t.Valid
  | unit c => inferInstanceAs (Decidable (isNameUnit c = false ∧ _))
  | word s => @instDecidableAnd _ _ inferInstance (List.decidableBAll _ s)
  | lineComment body | hashbang body => List.decidableBAll _ body
  | blockComment _ | template _ _ _ => inferInstanceAs (Decidable (_ = true))
  | string quote _ => inferInstanceAs (Decidable ((quote = 34 ∨ _) ∧ _))
  | regex body => inferInstanceAs (Decidable (body ≠ [] ∧ _))

instance decidableFollows (next : Option UInt16) :
    (t : Token) → Decidable (t.Follows next)
  | unit c => inferInstanceAs (Decidable (c = slash → _))
  | word _ =>
      show Decidable (∀ c ∈ next, isNameUnit c = false) from
        Option.decidableForallMem next
  | lineComment _ | hashbang _ =>
      show Decidable (∀ c ∈ next, isLineTerminator c = true) from
        Option.decidableForallMem next
  | blockComment _ | string _ _ | template _ _ _ | regex _ =>
      inferInstanceAs (Decidable True)

end Token

-- ============================================================== texts

def textOf (ts : List Token) : Text := ts.flatMap Token.text

/-- Each token is valid and followed by what may follow it. -/
def Lexed : List Token → Prop
  | [] => True
  | t :: ts => t.Valid ∧ t.Follows (textOf ts).head? ∧ Lexed ts

instance decidableLexed : (ts : List Token) → Decidable (Lexed ts)
  | [] => inferInstanceAs (Decidable True)
  | t :: ts =>
      have := decidableLexed ts
      inferInstanceAs (Decidable (t.Valid ∧ t.Follows _ ∧ Lexed ts))

/-- The tokens are those of the text. -/
structure Lexes (text : Text) (ts : List Token) : Prop where
  text_eq : textOf ts = text
  lexed : Lexed ts
  /-- A shell's line is the first one only. -/
  hashbang : ∀ t ∈ ts.tail, ∀ body, t ≠ .hashbang body

variable {t : Token} {ts ts' : List Token}

@[simp] theorem textOf_nil : textOf [] = [] := rfl

@[simp] theorem textOf_cons : textOf (t :: ts) = t.text ++ textOf ts :=
  List.flatMap_cons

@[simp] theorem textOf_append :
    textOf (ts ++ ts') = textOf ts ++ textOf ts' :=
  List.flatMap_append

/-- What a body without an escape may not have: the quotation mark that
would end it, and a line break. -/
theorem stringBody_iff {quote : UInt16} {s : Text} (h : backslash ∉ s) :
    stringBody quote s = true ↔ ∀ c ∈ s, c ≠ quote ∧ c ≠ 10 ∧ c ≠ 13 := by
  induction s with
  | nil => simp [stringBody]
  | cons c s ih =>
      rw [List.mem_cons, not_or] at h
      have hc : c ≠ backslash := Ne.symm h.1
      have hcons : stringBody quote (c :: s)
          = (c ≠ quote && c ≠ backslash && c ≠ 10 && c ≠ 13
            && stringBody quote s) := by
        rw [stringBody.eq_3]
        · intro rest hc'
          exact absurd hc' hc
        · intro d rest hc'
          exact absurd hc' hc
      rw [hcons, List.forall_mem_cons, ← ih h.2]
      simp [hc, and_assoc]

end Lib.Ecma
