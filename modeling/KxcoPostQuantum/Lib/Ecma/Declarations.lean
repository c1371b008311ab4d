/-
The import and re-export declarations of an ECMAScript module.

# Reading

`Mode` is where in a module the next token stands, and `Mode.next` goes on
by a token. Declarations stand in the body outside all brackets. They begin
with `import`, unless that is a member or begins a call or `import.meta`,
or with `export` and a star or names in braces; the string behind `from`,
or directly behind `import`, is the specifier.

# Renaming

The mode depends on no string's body, so putting other specifiers in the
place of a module's leaves its declarations where they are (`lexed_rename`,
`specifiers_rename`). `Part` cuts a module into its specifiers and single
units, and filling other specifiers in gives the text of the renamed
module (`fill_parts`).
-/
import KxcoPostQuantum.Lib.Ecma
import KxcoPostQuantum.Lib.Utf8

namespace Lib.Ecma

-- =============================================================== modes

def importWord : Text := [105, 109, 112, 111, 114, 116]
def exportWord : Text := [101, 120, 112, 111, 114, 116]
def fromWord : Text := [102, 114, 111, 109]

/-- What is directly in front of a token of the body. -/
inductive Front
  | other
  /-- A member's name follows. -/
  | dot
  /-- A dot that follows belongs to the number. -/
  | digits
  deriving DecidableEq

inductive Mode
  | body (depth : Nat) (front : Front)
  /-- Behind `import`. -/
  | imported
  /-- Behind `export`. -/
  | exported
  /-- Between the braces of an export. -/
  | names
  /-- Behind these braces. -/
  | namesEnd
  /-- In the clause of an import or a re-export, directly behind `from` or
  not. -/
  | clause (depth : Nat) (isFrom : Bool)
  deriving DecidableEq

namespace Token

/-- White space and comments. -/
def isBlank : Token → Bool
  | unit c => isSpace c
  | lineComment _ | blockComment _ | hashbang _ => true
  | _ => false

/-- How many brackets are open behind a token. -/
def nest (depth : Nat) : Token → Nat
  | unit c =>
      if c = 40 ∨ c = 91 ∨ c = leftBrace then depth + 1
      else if c = 41 ∨ c = 93 ∨ c = rightBrace then depth - 1
      else depth
  | template true _ false => depth + 1
  | template false _ true => depth - 1
  | _ => depth

end Token

namespace Mode

/-- The body from its start. -/
def start : Mode := body 0 .other

/-- A token of the body. -/
def inBody (depth : Nat) (front : Front) (t : Token) : Mode :=
  match t with
  | .word s =>
      if depth = 0 ∧ front ≠ .dot then
        if s = importWord then imported
        else if s = exportWord then exported
        else if s.all (fun c => 48 ≤ c && c ≤ 57 || c = 95) then
          body 0 .digits
        else body 0 .other
      else body depth .other
  | .unit 46 => body depth (if front = .digits then .other else .dot)
  | t => body (t.nest depth) .other

def next : Mode → Token → Mode
  | m, t =>
      if t.isBlank then
        match m with
        | body depth .digits => body depth .other
        | m => m
      else match m, t with
        | body depth front, t => inBody depth front t
        | imported, .string _ _ => start
        | imported, .unit 40 => body 1 .other
        | imported, .unit 46 => body 0 .dot
        | imported, t => clause (t.nest 0) false
        | exported, .unit 42 => clause 0 false
        | exported, .unit 123 => names
        | exported, t => inBody 0 .other t
        | names, .unit 125 => namesEnd
        | names, _ => names
        | namesEnd, .word s =>
            if s = fromWord then clause 0 true else inBody 0 .other (.word s)
        | namesEnd, t => inBody 0 .other t
        | clause 0 true, .string _ _ => start
        | clause depth _, .word s => clause depth (s = fromWord)
        | clause depth _, t => clause (t.nest depth) false

/-- The token is the specifier of a declaration. -/
def isSpecifier : Mode → Token → Bool
  | imported, .string _ _ => true
  | clause 0 true, .string _ _ => true
  | _, _ => false

end Mode

-- ========================================================== specifiers

/-- The specifier that a token is, or none. -/
def Token.specifier (isSpecifier : Bool) : Token → List Text
  | .string _ s => if isSpecifier then [s] else []
  | _ => []

/-- The specifiers of the declarations, in the order of the text. -/
def specifiers : Mode → List Token → List Text
  | _, [] => []
  | m, t :: ts =>
      t.specifier (m.isSpecifier t) ++ specifiers (m.next t) ts

/-- The token with another body, if it is a string. -/
def Token.rename (f : Text → Text) : Token → Token
  | .string quote s => .string quote (f s)
  | t => t

/-- The tokens with other specifiers. -/
def rename (f : Text → Text) : Mode → List Token → List Token
  | _, [] => []
  | m, t :: ts =>
      (if m.isSpecifier t then t.rename f else t) :: rename f (m.next t) ts

/-- What a text is cut into: the specifiers, and single units. -/
inductive Part
  | unit (c : UInt16)
  | specifier (s : Text)
  deriving DecidableEq

/-- The parts of a token, if it is a specifier or if not. -/
def Token.parts (isSpecifier : Bool) : Token → List Part
  | .string quote s =>
      if isSpecifier then [.unit quote, .specifier s, .unit quote]
      else (Token.string quote s).text.map .unit
  | t => t.text.map .unit

def parts : Mode → List Token → List Part
  | _, [] => []
  | m, t :: ts => t.parts (m.isSpecifier t) ++ parts (m.next t) ts

/-- The text of a part, with another specifier. -/
def Part.fill (f : Text → Text) : Part → Text
  | unit c => [c]
  | specifier s => f s

example : specifiers .start [.word importWord, .unit 32, .string 39 [97],
    .unit 59, .word exportWord, .unit 42, .word fromWord, .string 34 [98],
    .word importWord, .unit 40, .string 39 [99], .unit 41]
      = [[97], [98]] := by
  decide

-- ============================================================ renaming

section

variable {f : Text → Text} {m : Mode} {t : Token} {ts : List Token}

@[simp] theorem next_rename : m.next (t.rename f) = m.next t := by
  cases t with
  | string quote s =>
      cases m with
      | clause depth isFrom => cases depth <;> cases isFrom <;> rfl
      | _ => rfl
  | _ => rfl

@[simp] theorem isSpecifier_rename :
    m.isSpecifier (t.rename f) = m.isSpecifier t := by
  cases t with
  | string quote s =>
      cases m with
      | clause depth isFrom => cases depth <;> cases isFrom <;> rfl
      | _ => rfl
  | _ => rfl

/-- Only a string is a specifier. -/
theorem string_of_isSpecifier (h : m.isSpecifier t = true) :
    ∃ quote s, t = .string quote s := by
  unfold Mode.isSpecifier at h
  split at h
  next quote s => exact ⟨quote, s, rfl⟩
  next quote s => exact ⟨quote, s, rfl⟩
  next => cases h

/-- The first token of the renamed ones, as what it was or as a string. -/
theorem rename_cases {P : Token → Prop} (ht : m.isSpecifier t = false → P t)
    (hstring : ∀ quote s, t = .string quote s → m.isSpecifier t = true →
      P (.string quote (f s))) :
    P (if m.isSpecifier t then t.rename f else t) := by
  cases h : m.isSpecifier t with
  | false => exact ht h
  | true =>
      obtain ⟨quote, s, rfl⟩ := string_of_isSpecifier h
      exact hstring quote s rfl h

theorem next_renamed :
    m.next (if m.isSpecifier t then t.rename f else t) = m.next t := by
  split
  next => exact next_rename
  next => rfl

theorem specifiers_rename :
    specifiers m (rename f m ts) = (specifiers m ts).map f := by
  induction ts generalizing m with
  | nil => rfl
  | cons t ts ih =>
      rw [rename, specifiers, specifiers, next_renamed, ih, List.map_append]
      congr 1
      cases h : m.isSpecifier t with
      | false => cases t <;> simp [Token.specifier, h]
      | true =>
          obtain ⟨quote, s, rfl⟩ := string_of_isSpecifier h
          rw [if_pos rfl, isSpecifier_rename, h]
          rfl

theorem fill_units (s : Text) :
    (s.map Part.unit).flatMap (Part.fill f) = s := by
  induction s with
  | nil => rfl
  | cons c s ih => rw [List.map_cons, List.flatMap_cons, ih]; rfl

/-- Filling the parts gives the text of the renamed tokens. -/
theorem fill_parts :
    (parts m ts).flatMap (Part.fill f) = textOf (rename f m ts) := by
  induction ts generalizing m with
  | nil => rfl
  | cons t ts ih =>
      rw [parts, List.flatMap_append, ih, rename, textOf_cons]
      congr 1
      cases h : m.isSpecifier t with
      | false =>
          have hunits : t.parts false = t.text.map .unit := by cases t <;> rfl
          rw [hunits, fill_units]
          rfl
      | true =>
          obtain ⟨quote, s, rfl⟩ := string_of_isSpecifier h
          rfl

theorem mem_parts {s : Text} :
    .specifier s ∈ parts m ts ↔ s ∈ specifiers m ts := by
  induction ts generalizing m with
  | nil => exact iff_of_false List.not_mem_nil List.not_mem_nil
  | cons t ts ih =>
      rw [parts, specifiers, List.mem_append, List.mem_append, ih]
      refine or_congr_left ?_
      cases t with
      | string quote s' =>
          cases m.isSpecifier (.string quote s') <;>
            simp [Token.parts, Token.specifier]
      | _ => simp [Token.parts, Token.specifier]

/-- A specifier is the body of a string. -/
theorem stringBody_of_mem {s : Text} (hlexed : Lexed ts)
    (h : s ∈ specifiers m ts) :
    ∃ quote, stringBody quote s = true := by
  induction ts generalizing m with
  | nil => cases h
  | cons t ts ih =>
      rw [specifiers, List.mem_append] at h
      rcases h with h | h
      · cases t with
        | string quote s' =>
            rw [Token.specifier] at h
            split at h
            next =>
              rw [List.mem_singleton.mp h]
              exact ⟨quote, hlexed.1.2⟩
            next => cases h
        | _ => cases h
      · exact ih hlexed.2.2 h

/-- A string that is a specifier is one of the specifiers. -/
theorem mem_specifiers {quote : UInt16} {s : Text}
    (h : m.isSpecifier (.string quote s) = true) :
    s ∈ specifiers m (.string quote s :: ts) := by
  rw [specifiers, h]
  exact List.mem_cons_self

theorem head?_rename :
    (textOf (rename f m ts)).head? = (textOf ts).head? := by
  induction ts generalizing m with
  | nil => rfl
  | cons t ts ih =>
      rw [rename, textOf_cons, textOf_cons, List.head?_append,
        List.head?_append, ih]
      congr 1
      refine rename_cases (P := fun t' => t'.text.head? = t.text.head?)
        (fun _ => rfl) fun quote s ht _ => ?_
      rw [ht]
      rfl

/-- Other specifiers, where none is unfit for a string, leave the other
tokens what they are. -/
theorem lexed_rename (h : Lexed ts)
    (hf : ∀ s ∈ specifiers m ts, ∀ quote, quote = 34 ∨ quote = 39 →
      stringBody quote (f s) = true) : Lexed (rename f m ts) := by
  induction ts generalizing m with
  | nil => trivial
  | cons t ts ih =>
      obtain ⟨hvalid, hfollows, hlexed⟩ := h
      have htail := ih hlexed (m := m.next t) fun s hs =>
        hf s (by rw [specifiers]; exact List.mem_append_right _ hs)
      rw [rename]
      refine ⟨?_, ?_, htail⟩
      · refine rename_cases (P := Token.Valid) (fun _ => hvalid)
          fun quote s ht hs => ?_
        subst ht
        exact ⟨hvalid.1, hf s (mem_specifiers hs) quote hvalid.1⟩
      · rw [head?_rename]
        exact rename_cases (P := Token.Follows (textOf ts).head?)
          (fun _ => hfollows) fun quote s ht hs => trivial

theorem mem_rename {t' : Token} (h : t' ∈ rename f m ts) :
    t' ∈ ts ∨ ∃ quote s, t' = .string quote s := by
  induction ts generalizing m with
  | nil => cases h
  | cons t ts ih =>
      rw [rename, List.mem_cons] at h
      rcases h with rfl | h
      · exact rename_cases (P := fun t' => t' ∈ t :: ts
            ∨ ∃ quote s, t' = .string quote s)
          (fun _ => Or.inl List.mem_cons_self)
          fun quote s _ _ => Or.inr ⟨quote, f s, rfl⟩
      · exact (ih h).imp_left (List.mem_cons_of_mem _)

/-- **Renaming** the specifiers of a module gives a module with the same
tokens otherwise. -/
theorem Lexes.rename {text : Text} (h : Lexes text ts)
    (hf : ∀ s ∈ specifiers m ts, ∀ quote, quote = 34 ∨ quote = 39 →
      stringBody quote (f s) = true) :
    Lexes (textOf (rename f m ts)) (rename f m ts) where
  text_eq := rfl
  lexed := lexed_rename h.lexed hf
  hashbang := by
    intro t ht body hbody
    cases ts with
    | nil => cases ht
    | cons t' ts =>
        rcases mem_rename ht with ht | ⟨quote, s, rfl⟩
        · exact h.hashbang t ht body hbody
        · cases hbody

-- ======================================================= well-formed text

open Utf8

/-- The text of a string token, cut at its quotes. -/
theorem wellFormed_string {quote : UInt16} {x s u : Text}
    (hquote : quote = 34 ∨ quote = 39) :
    WellFormed (x ++ ((Token.string quote s).text ++ u))
      ↔ WellFormed x ∧ WellFormed s ∧ WellFormed u := by
  have hl : ¬isLead quote := by rcases hquote with rfl | rfl <;> decide
  have ht : ¬isTrail quote := by rcases hquote with rfl | rfl <;> decide
  have htext : x ++ ((Token.string quote s).text ++ u)
      = x ++ quote :: (s ++ quote :: u) := by
    simp [Token.text]
  rw [htext]
  constructor
  · intro h
    obtain ⟨hx, h⟩ := h.split hl ht
    exact ⟨hx, h.split hl ht⟩
  · intro h
    obtain ⟨hx, hs, hu⟩ := h
    exact hx.append (.unit hl ht (hs.append (.unit hl ht hu)))

/-- Specifiers of well-formed text are well-formed: quotation marks are no
surrogates, and stand on both sides of each. -/
theorem wellFormed_specifier {x s : Text} (hlexed : Lexed ts)
    (h : WellFormed (x ++ textOf ts)) (hs : s ∈ specifiers m ts) :
    WellFormed s := by
  induction ts generalizing m x with
  | nil => cases hs
  | cons t ts ih =>
      rw [specifiers, List.mem_append] at hs
      rw [textOf_cons] at h
      rcases hs with hs | hs
      · cases t with
        | string quote s' =>
            rw [Token.specifier] at hs
            split at hs
            next =>
              rw [List.mem_singleton.mp hs]
              exact ((wellFormed_string hlexed.1.1).mp h).2.1
            next => cases hs
        | _ => cases hs
      · rw [← List.append_assoc] at h
        exact ih hlexed.2.2 h hs

/-- Well-formed specifiers leave well-formed text well-formed. What is put
in stands between two quotation marks, so it cannot make a pair with what is
around it. -/
theorem wellFormed_rename {x : Text} (hlexed : Lexed ts)
    (h : WellFormed (x ++ textOf ts))
    (hf : ∀ s ∈ specifiers m ts, WellFormed (f s)) :
    WellFormed (x ++ textOf (rename f m ts)) := by
  induction ts generalizing m x with
  | nil => exact h
  | cons t ts ih =>
      rw [textOf_cons] at h
      rw [rename, textOf_cons]
      have htail : ∀ s ∈ specifiers (m.next t) ts, WellFormed (f s) :=
        fun s hs => hf s (by rw [specifiers]; exact List.mem_append_right _ hs)
      refine rename_cases (P := fun t' => WellFormed (x ++ (t'.text
        ++ textOf (rename f (m.next t) ts)))) (fun _ => ?_)
        fun quote s ht hs => ?_
      · rw [← List.append_assoc] at h ⊢
        exact ih hlexed.2.2 h htail
      · subst ht
        obtain ⟨hx, -, hu⟩ := (wellFormed_string hlexed.1.1).mp h
        rw [wellFormed_string hlexed.1.1]
        exact ⟨hx, hf s (mem_specifiers hs),
          ih (x := []) hlexed.2.2 hu htail⟩

end

end Lib.Ecma
