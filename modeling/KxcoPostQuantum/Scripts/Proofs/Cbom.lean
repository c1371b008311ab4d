/-
What the check of the cryptographic bill of materials reports.

# From the source to the report

A token that is neither white space nor a comment stands in the stripped
text, and cuts it into what is kept of the tokens in front of it and of
those behind it (`Kept.split`). So an import is left with its words, its
braces and its string in place and white space between them, wherever its
comments stood (`IsImport.kept`), and a call likewise (`IsCall.kept`). What
is left is what the script's expression matches at its place, and it is
reported if that place is looked at: a match goes on behind the one in
front of it, and what an earlier match reaches over is not looked at
(`Ends`). And what is reported and not declared stops the build
(`reconcile_throws`).

# Where comments may stand

Between any two tokens, if they are block comments or stand alone on their
lines. The script leaves a comment behind something on its line where it
is, by its own account, so such a comment may stand between the braces
only, and not beside a name that is asked about. A comment that is taken
out leaves its line feeds, so words that nothing else parts become one
(`separates`).

# What is not reported

The functions of `KEY_BOUND` take their algorithm from a key, and the
script leaves their calls out by design. That, and the white space around
comments, is what `cbom_gate` says of the script and not of every call and
every unit. What it leaves open is where the script does not see a comment
for what it is: a slash and a star in a literal begin a match that can
take live code with it (`keyBound_unreported` has one that does), and
`Tame` keeps such texts out.
-/
import KxcoPostQuantum.Scripts.Proofs.Comments

namespace KxcoPostQuantum.Scripts

open Lib Lib.Ecma

-- ============================================================== pieces

/-- Neither white space nor a comment. -/
def isCode : Token → Bool
  | .unit c => !isSpace c
  | t => !t.isComment

/-- What is code is no comment. -/
theorem isCode_live {t : Token} (h : isCode t = true) :
    t.isComment = false := by
  cases t with
  | lineComment body => cases h
  | blockComment body => cases h
  | _ => rfl

/-- Behind such a token its line is not blank. -/
theorem stillBlank_code {t : Token} (h : isCode t = true) (blank : Bool) :
    stillBlank blank t = false := by
  cases t with
  | unit c =>
      have hspace : isSpace c = false := by simpa [isCode] using h
      have hc : c ≠ lineFeed := by
        rintro rfl
        cases hspace
      simp [stillBlank, hspace, hc]
  | blockComment body => cases h
  | _ => rfl

/-- The white space in front of a comment does not reach over a token that
is neither. -/
theorem Margin.before {pre rest : List Token} {t : Token}
    (ht : isCode t = true) (h : Margin (pre ++ t :: rest)) : Margin pre := by
  induction pre with
  | nil =>
      cases h with
      | comment body => cases ht
      | block hbody h => cases ht
      | space hc _ _ => simp [isCode, hc] at ht
  | cons t' pre ih =>
      cases h with
      | comment body => exact .comment body pre
      | block hbody h => exact .block hbody (ih h)
      | space hc hne h => exact .space hc hne (ih h)

/-- What follows the comment does not matter. -/
theorem Margin.append {ts : List Token} (h : Margin ts) (ts' : List Token) :
    Margin (ts ++ ts') := by
  induction h with
  | comment body ts => exact .comment body (ts ++ ts')
  | space hspace hc _ ih => exact .space hspace hc ih
  | block hbody _ ih => exact .block hbody ih

/-- What can become of the first token. -/
theorem Kept.cons_inv {blank : Bool} {t : Token} {ts : List Token}
    {s : JsString} (h : Kept blank (t :: ts) s) :
    (∃ s', s = leaves blank t ++ s' ∧ Kept (stillBlank blank t) ts s')
    ∨ (∃ c, t = .unit c ∧ blank = true ∧ isSpace c = true ∧ c ≠ lineFeed
        ∧ Margin ts ∧ Kept true ts s)
    ∨ (∃ body ts', t = .lineComment body ∧ blank = true
        ∧ ts = .unit 13 :: ts' ∧ Kept false ts' s) := by
  cases h with
  | token h => exact Or.inl ⟨_, rfl, h⟩
  | margin hspace hc hm h =>
      exact Or.inr (Or.inl ⟨_, rfl, rfl, hspace, hc, hm, h⟩)
  | carriage h => exact Or.inr (Or.inr ⟨_, _, rfl, rfl, rfl, h⟩)

/-- Behind something on its line a token leaves what it leaves. -/
theorem Kept.cons_false {t : Token} {ts : List Token} {s : JsString}
    (h : Kept false (t :: ts) s) :
    ∃ s', s = leaves false t ++ s' ∧ Kept (stillBlank false t) ts s' := by
  rcases h.cons_inv with h | ⟨_, -, hblank, -⟩ | ⟨_, _, -, hblank, -⟩
  · exact h
  · cases hblank
  · cases hblank

/-- So does one that is neither white space nor a comment. -/
theorem Kept.cons_code {blank : Bool} {t : Token} {ts : List Token}
    {s : JsString} (h : Kept blank (t :: ts) s) (ht : isCode t = true) :
    ∃ s', s = t.text ++ s' ∧ Kept false ts s' := by
  have hinv := h.cons_inv
  clear h
  rcases hinv with ⟨s', rfl, h⟩ | ⟨c, rfl, -, hspace, -⟩
    | ⟨body, ts', rfl, -⟩
  · rw [stillBlank_code ht] at h
    exact ⟨s', by rw [leaves_live (isCode_live ht)], h⟩
  · simp [isCode, hspace] at ht
  · cases ht

/-- **A piece.** A token that is neither white space nor a comment stands
in the stripped text, between what is kept of the tokens in front of it and
what is kept of those behind it. -/
theorem Kept.split {blank : Bool} {pre rest : List Token} {t : Token}
    {s : JsString} (h : Kept blank (pre ++ t :: rest) s)
    (ht : isCode t = true) :
    ∃ before s', s = before ++ (t.text ++ s') ∧ Kept blank pre before
      ∧ Kept false rest s' := by
  match pre with
  | [] =>
      obtain ⟨s', hs, hkept⟩ := h.cons_code ht
      exact ⟨[], s', hs, .nil blank, hkept⟩
  | t' :: pre =>
      have hinv := h.cons_inv
      clear h
      rcases hinv with ⟨s', rfl, h⟩ | ⟨c, rfl, rfl, hspace, hc, hm, h⟩
        | ⟨body, ts, rfl, rfl, hts, h⟩
      · obtain ⟨before, s', rfl, hpre, hrest⟩ := h.split ht
        exact ⟨leaves blank t' ++ before, s', by rw [List.append_assoc],
          .token hpre, hrest⟩
      · obtain ⟨before, s', rfl, hpre, hrest⟩ := h.split ht
        exact ⟨before, s', rfl, .margin hspace hc (hm.before ht) hpre, hrest⟩
      · cases pre with
        | nil =>
            rw [(List.cons.inj hts).1] at ht
            cases ht
        | cons t'' pre =>
            obtain ⟨rfl, rfl⟩ := List.cons.inj hts
            obtain ⟨before, s', rfl, hpre, hrest⟩ := h.split ht
            exact ⟨before, s', rfl, .carriage hpre, hrest⟩
  termination_by pre.length

/-- A token that is neither white space nor a comment goes to the end of
what is kept in front of it. -/
theorem Kept.concat {blank : Bool} {ts : List Token} {t : Token}
    {s : JsString} (h : Kept blank ts s) (ht : isCode t = true) :
    Kept blank (ts ++ [t]) (s ++ t.text) := by
  induction h with
  | nil blank =>
      have hkept : Kept blank [t] (leaves blank t ++ []) := .token (.nil _)
      rwa [leaves_live (isCode_live ht), List.append_nil] at hkept
  | token _ ih =>
      rw [List.append_assoc]
      exact .token ih
  | margin hspace hc hm _ ih => exact .margin hspace hc (hm.append [t]) ih
  | carriage _ ih => exact .carriage ih

/-- A named import from a package of `@noble`, in single quotes. -/
def IsNobleImport (text names : JsString) : Prop :=
  ∃ w₁ w₂ w₃ path : JsString, (∀ c ∈ w₁ ++ (w₂ ++ w₃), isSpace c = true)
    ∧ rightBrace ∉ names ∧ path ≠ [] ∧ 39 ∉ path
    ∧ text = js "import" ++ (w₁ ++ ([leftBrace] ++ (names ++ ([rightBrace]
        ++ (w₂ ++ (js "from" ++ (w₃ ++ (js "'@noble/" ++ (path ++ [39])))))))))

/-- A call of a function of `crypto`, up to its parenthesis. -/
def IsCryptoCall (text fn : JsString) : Prop :=
  ∃ w : JsString, (∀ c ∈ w, isSpace c = true) ∧ fn ≠ []
    ∧ (∀ c ∈ fn, isWord c = true)
    ∧ text = js "crypto." ++ (fn ++ (w ++ [40]))

/-- A name bound by an import, as it is called in the module: between the
commas it stands alone or in front of `as` and a local name. -/
def Imports (names x : JsString) : Prop :=
  ∃ a b tail : JsString, (∀ c ∈ a ++ b, isSpace c = true)
    ∧ x ≠ [] ∧ (∀ c ∈ x, isSpace c = false)
    ∧ (tail = [] ∨ ∃ v w y : JsString, v ≠ [] ∧ w ≠ []
        ∧ (∀ c ∈ v ++ w, isSpace c = true) ∧ y ≠ []
        ∧ (∀ c ∈ y, isSpace c = false)
        ∧ tail = v ++ (js "as" ++ (w ++ y)))
    ∧ a ++ (x ++ tail) ++ b ∈ splitUnit 44 names

/-- White space or a comment that leaves only white space, in a line that
is blank so far or not. -/
def fillsGap (blank : Bool) : Token → Bool
  | .unit c => isSpace c
  | .blockComment _ => true
  | .lineComment _ => blank
  | _ => false

/-- White space and comments none of which goes to the end of a line and
stands behind something on it. -/
def isGap : (blank : Bool) → List Token → Bool
  | _, [] => true
  | blank, t :: ts => fillsGap blank t && isGap (stillBlank blank t) ts

/-- A token of a gap that keeps the words around it apart: white space, or
a comment that goes over a line. -/
def separates : Token → Bool
  | .unit _ => true
  | .blockComment body => body.contains lineFeed
  | _ => false

/-- A comment of which nothing is left. -/
def isInline : Token → Bool
  | .blockComment body => !body.contains lineFeed
  | _ => false

/-- What is left of tokens, the white space around comments included. -/
def leftOf : (blank : Bool) → List Token → JsString
  | _, [] => []
  | blank, t :: ts => leaves blank t ++ leftOf (stillBlank blank t) ts

/-- No more than that is kept. -/
theorem Kept.sublist {blank : Bool} {ts : List Token} {s : JsString}
    (h : Kept blank ts s) : s.Sublist (leftOf blank ts) := by
  induction h with
  | nil blank => exact List.Sublist.refl _
  | token _ ih => exact (List.Sublist.refl _).append ih
  | @margin c ts s hspace hc _ _ ih =>
      have hstill : stillBlank true (.unit c) = true := by
        simp [stillBlank, hspace]
      rw [leftOf, hstill]
      exact ih.trans (List.sublist_append_right _ _)
  | carriage _ ih => exact ih.trans (List.sublist_append_right [13] _)

/-- White space is left of a gap: its own, and the line feeds that stand for
a comment over several lines. -/
theorem leftOf_gap {blank : Bool} {g : List Token} (h : isGap blank g = true) :
    ∀ c ∈ leftOf blank g, isSpace c = true := by
  induction g generalizing blank with
  | nil => exact fun c hc => absurd hc List.not_mem_nil
  | cons t g ih =>
      rw [isGap, Bool.and_eq_true] at h
      rw [leftOf, List.forall_mem_append]
      refine ⟨fun c hc => ?_, ih h.2⟩
      cases t with
      | unit d => exact List.mem_singleton.mp hc ▸ h.1
      | blockComment body =>
          have hfeed : c = lineFeed := by
            simpa [leaves, newlinesOf] using (List.mem_filter.mp hc).2
          rw [hfeed]
          rfl
      | lineComment body =>
          rw [show blank = true from h.1] at hc
          exact absurd hc List.not_mem_nil
      | _ => cases h.1

/-- Of a gap only white space is kept. -/
theorem Kept.spaces {blank : Bool} {g : List Token} {s : JsString}
    (h : Kept blank g s) (hg : isGap blank g = true) :
    ∀ c ∈ s, isSpace c = true :=
  fun c hc => leftOf_gap hg c (h.sublist.subset hc)

/-- A gap that parts two words still parts them: what is in front of the
first token that does so leaves nothing, and that token is kept. -/
theorem Kept.parted {g : List Token} {s : JsString} (h : Kept false g s)
    (hg : isGap false g = true) (hparts : g.any separates = true) : s ≠ [] := by
  induction g generalizing s with
  | nil => cases hparts
  | cons t g ih =>
      obtain ⟨s', rfl, hrest⟩ := h.cons_false
      rw [isGap, Bool.and_eq_true] at hg
      rw [List.any_cons, Bool.or_eq_true] at hparts
      cases t with
      | unit c => exact List.cons_ne_nil _ _
      | blockComment body =>
          by_cases hbody : lineFeed ∈ body
          · rw [leaves, ← blockless, blockless_comment]
            obtain ⟨n, hn⟩ := Nat.exists_eq_succ_of_ne_zero
              (List.count_pos_iff.mpr hbody).ne'
            rw [hn, List.replicate_succ]
            exact List.cons_ne_nil _ _
          · have hstill : stillBlank false (.blockComment body) = false := by
              simp [stillBlank, hbody]
            rw [hstill] at hrest hg
            have hlater := hparts.resolve_left (by simpa [separates] using hbody)
            exact fun hnil =>
              ih hrest hg.2 hlater (List.append_eq_nil_iff.mp hnil).2
      | _ => cases hg.1

/-- Comments of which nothing is left join what is around them. So two words
with only such a comment between them are one word to the script. -/
theorem Kept.joined {g : List Token} {s : JsString} (h : Kept false g s)
    (hg : g.all isInline = true) : s = [] := by
  induction g generalizing s with
  | nil =>
      cases h
      rfl
  | cons t g ih =>
      obtain ⟨s', rfl, hrest⟩ := h.cons_false
      rw [List.all_cons, Bool.and_eq_true] at hg
      cases t with
      | blockComment body =>
          have hbody : lineFeed ∉ body := by simpa [isInline] using hg.1
          have hstill : stillBlank false (.blockComment body) = false := by
            simp [stillBlank, hbody]
          rw [hstill] at hrest
          rw [leaves, ← blockless, blockless_oneLine hbody, ih hrest hg.2]
          rfl
      | _ => cases hg.1

-- ===================================================== imports and calls

/-- A named import from a package of `@noble`, in single quotes, and the
tokens between its braces. -/
def IsImport (ts inner : List Token) : Prop :=
  ∃ (g₁ g₂ g₃ : List Token) (path : JsString),
    isGap false g₁ = true ∧ isGap false g₂ = true ∧ isGap false g₃ = true
    ∧ rightBrace ∉ leftOf false inner ∧ path ≠ [] ∧ 39 ∉ path
    ∧ ts = .word (js "import") :: (g₁ ++ .unit leftBrace :: (inner
        ++ .unit rightBrace :: (g₂ ++ .word (js "from") :: (g₃
        ++ [.string 39 (js "@noble/" ++ path)]))))

/-- A call of a function of `crypto`, up to its parenthesis. -/
def IsCall (ts : List Token) (fn : JsString) : Prop :=
  ∃ j₁ j₂ g : List Token, j₁.all isInline = true ∧ j₂.all isInline = true
    ∧ isGap false g = true ∧ fn ≠ [] ∧ (∀ c ∈ fn, isWord c = true)
    ∧ ts = .word (js "crypto") :: (j₁ ++ .unit 46 :: (j₂ ++ .word fn :: (g
        ++ [.unit 40])))

/-- A name in an import. -/
structure IsName (ts : List Token) : Prop where
  ne_nil : textOf ts ≠ []
  live : ∀ t ∈ ts, t.isComment = false
  units : ∀ c ∈ textOf ts, isSpace c = false ∧ c ≠ 44

/-- What stands between two commas of an import, by what it is called in
the module: the name alone, or in front of `as` and a local name. -/
inductive Specifier : List Token → JsString → Prop
  | name {g n g' : List Token} (hg : isGap false g = true) (hn : IsName n)
      (hg' : isGap false g' = true) : Specifier (g ++ (n ++ g')) (textOf n)
  | renamed {g n v w y g' : List Token} (hg : isGap false g = true)
      (hn : IsName n) (hv : isGap false v = true) (hv' : v.any separates = true)
      (hw : isGap false w = true) (hw' : w.any separates = true) (hy : IsName y)
      (hg' : isGap false g' = true) :
      Specifier (g ++ (n ++ (v ++ .word (js "as") :: (w ++ (y ++ g')))))
        (textOf n)

/-- A name that an import binds, as it is called in the module. -/
def Binds (inner : List Token) (x : JsString) : Prop :=
  ∃ l piece r, inner = l ++ (piece ++ r)
    ∧ (l = [] ∨ ∃ l', l = l' ++ [.unit 44])
    ∧ (r = [] ∨ ∃ r', r = .unit 44 :: r') ∧ Specifier piece x

/-- A name is code. -/
theorem IsName.code {n : List Token} (h : IsName n) :
    ∀ t ∈ n, isCode t = true := by
  intro t ht
  cases t with
  | unit c =>
      have hc : c ∈ textOf n :=
        List.mem_flatMap.mpr ⟨_, ht, List.mem_singleton_self c⟩
      rw [isCode, (h.units c hc).1]
      rfl
  | lineComment body => exact absurd (h.live _ ht) (by simp [Token.isComment])
  | blockComment body => exact absurd (h.live _ ht) (by simp [Token.isComment])
  | _ => rfl

/-- A name stands in the stripped text as it is, between what is left of
what was in front of it and what is left of the rest. A name is code, and of
code all is left. -/
theorem Kept.name {blank : Bool} {g n rest : List Token} {s : JsString}
    (h : Kept blank (g ++ (n ++ rest)) s) (hn : IsName n) :
    ∃ a s', s = a ++ (textOf n ++ s') ∧ Kept blank g a
      ∧ Kept false rest s' := by
  have hrun (n : List Token) (hcode : ∀ t ∈ n, isCode t = true)
      (s : JsString) (h : Kept false (n ++ rest) s) :
      ∃ s', s = textOf n ++ s' ∧ Kept false rest s' := by
    induction n generalizing s with
    | nil => exact ⟨s, rfl, h⟩
    | cons t n ih =>
        rw [List.forall_mem_cons] at hcode
        obtain ⟨s₁, rfl, h₁⟩ := h.cons_code hcode.1
        obtain ⟨s₂, rfl, h₂⟩ := ih hcode.2 s₁ h₁
        exact ⟨s₂, by rw [textOf_cons, List.append_assoc], h₂⟩
  have hcode := hn.code
  cases n with
  | nil => exact absurd rfl hn.ne_nil
  | cons t n =>
      rw [List.forall_mem_cons] at hcode
      obtain ⟨a, s₁, rfl, ha, h₁⟩ := h.split hcode.1
      obtain ⟨s₂, rfl, h₂⟩ := hrun n hcode.2 s₁ h₁
      exact ⟨a, s₂, by rw [textOf_cons, List.append_assoc], ha, h₂⟩

/-- **What is left of an import** is one, between the braces of which is
what is kept of the tokens there. -/
theorem IsImport.kept {ts inner : List Token} {part : JsString}
    (h : IsImport ts inner) (hkept : Kept false ts part) :
    ∃ names, IsNobleImport part names ∧ Kept false inner names := by
  obtain ⟨g₁, g₂, g₃, path, hg₁, hg₂, hg₃, hinner, hne, hpath, rfl⟩ := h
  obtain ⟨s₀, rfl, h₀⟩ := hkept.cons_code rfl
  obtain ⟨w₁, s₁, rfl, hw₁, h₁⟩ := h₀.split rfl
  obtain ⟨names, s₂, rfl, hnames, h₂⟩ := h₁.split rfl
  obtain ⟨w₂, s₃, rfl, hw₂, h₃⟩ := h₂.split rfl
  obtain ⟨w₃, s₄, rfl, hw₃, h₄⟩ := h₃.split rfl
  cases h₄
  refine ⟨names, ⟨w₁, w₂, w₃, path, ?_, ?_, hne, hpath, ?_⟩, hnames⟩
  · simp only [List.forall_mem_append]
    exact ⟨hw₁.spaces hg₁, hw₂.spaces hg₂, hw₃.spaces hg₃⟩
  · exact fun hbrace => hinner (hnames.sublist.subset hbrace)
  · simp only [Token.text, List.append_assoc, List.append_nil]
    rfl

/-- **What is left of a call** is one: the words of it are code and stay,
and between them there is white space at most. -/
theorem IsCall.kept {ts : List Token} {fn part : JsString}
    (h : IsCall ts fn) (hkept : Kept false ts part) :
    IsCryptoCall part fn := by
  obtain ⟨j₁, j₂, g, hj₁, hj₂, hg, hne, hword, rfl⟩ := h
  obtain ⟨s₀, rfl, h₀⟩ := hkept.cons_code rfl
  obtain ⟨u₁, s₁, rfl, hu₁, h₁⟩ := h₀.split rfl
  obtain ⟨u₂, s₂, rfl, hu₂, h₂⟩ := h₁.split (t := .word fn) rfl
  obtain ⟨w, s₃, rfl, hw, h₃⟩ := h₂.split rfl
  cases h₃
  rw [hu₁.joined hj₁, hu₂.joined hj₂]
  refine ⟨w, hw.spaces hg, hne, hword, ?_⟩
  simp only [Token.text, List.append_nil]
  rfl

/-- White space holds no comma. -/
theorem comma_not_space {s : JsString} (h : ∀ c ∈ s, isSpace c = true) :
    44 ∉ s := by
  intro hcomma
  cases h 44 hcomma

/-- What is kept of what stands between two commas has the name in it:
alone, or as the first of the names around an `as`, with white space around
it. -/
theorem Specifier.kept {piece : List Token} {x p names : JsString}
    (h : Specifier piece x) (hkept : Kept false piece p)
    (hmem : 44 ∉ p → p ∈ splitUnit 44 names) : Imports names x := by
  have hspaces {n : List Token} (hn : IsName n) :
      ∀ c ∈ textOf n, isSpace c = false := fun c hc => (hn.units c hc).1
  have hcomma {n : List Token} (hn : IsName n) : 44 ∉ textOf n :=
    fun hc => (hn.units 44 hc).2 rfl
  cases h with
  | name hg hn hg' =>
      obtain ⟨a, b, rfl, ha, hb⟩ := hkept.name hn
      refine ⟨a, b, [], ?_, hn.ne_nil, hspaces hn, Or.inl rfl, ?_⟩
      · rw [List.forall_mem_append]
        exact ⟨ha.spaces hg, hb.spaces hg'⟩
      · rw [List.append_nil, List.append_assoc]
        refine hmem ?_
        simp only [List.mem_append, not_or]
        exact ⟨comma_not_space (ha.spaces hg), hcomma hn,
          comma_not_space (hb.spaces hg')⟩
  | renamed hg hn hv hv' hw hw' hy hg' =>
      obtain ⟨a, s₁, rfl, ha, h₁⟩ := hkept.name hn
      obtain ⟨v, s₂, rfl, hkv, h₂⟩ := h₁.split rfl
      obtain ⟨w, b, rfl, hkw, hb⟩ := h₂.name hy
      refine ⟨a, b, v ++ (js "as" ++ (w ++ textOf _)), ?_, hn.ne_nil,
        hspaces hn, Or.inr ⟨v, w, _, hkv.parted hv hv', hkw.parted hw hw', ?_,
          hy.ne_nil, hspaces hy, rfl⟩, ?_⟩
      · rw [List.forall_mem_append]
        exact ⟨ha.spaces hg, hb.spaces hg'⟩
      · rw [List.forall_mem_append]
        exact ⟨hkv.spaces hv, hkw.spaces hw⟩
      · simp only [List.append_assoc] at hmem ⊢
        refine hmem ?_
        simp only [List.mem_append, not_or]
        exact ⟨comma_not_space (ha.spaces hg), hcomma hn,
          comma_not_space (hkv.spaces hv), by decide,
          comma_not_space (hkw.spaces hw), hcomma hy,
          comma_not_space (hb.spaces hg')⟩

/-- A text is cut at each separator. -/
theorem splitUnit_cut (sep : UInt16) (s u : JsString) :
    splitUnit sep (s ++ ([sep] ++ u)) = splitUnit sep s ++ splitUnit sep u :=
  List.splitOn_append_cons_self s u

/-- **The names** that an import binds are names of what is left of it. The
comma in front of a name and the one behind it are still there, so the
script cuts the list in the same places. -/
theorem Binds.kept {inner : List Token} {x names : JsString}
    (h : Binds inner x) (hkept : Kept false inner names) :
    Imports names x := by
  obtain ⟨l, piece, r, rfl, hl, hr, hx⟩ := h
  have hfront : ∃ s, Kept false (piece ++ r) s ∧ ∀ p,
      p ∈ splitUnit 44 s → p ∈ splitUnit 44 names := by
    rcases hl with rfl | ⟨l, rfl⟩
    · exact ⟨names, hkept, fun p hp => hp⟩
    · rw [List.append_assoc] at hkept
      obtain ⟨u, s, rfl, -, hs⟩ := hkept.split (t := .unit 44) rfl
      refine ⟨s, hs, fun p hp => ?_⟩
      rw [Token.text, splitUnit_cut]
      exact List.mem_append_right _ hp
  obtain ⟨s, hs, hmem⟩ := hfront
  rcases hr with rfl | ⟨r, rfl⟩
  · rw [List.append_nil] at hs
    refine hx.kept hs fun hcomma => hmem _ ?_
    rw [splitUnit, List.splitOn_eq_singleton hcomma]
    exact List.mem_singleton_self _
  · obtain ⟨p, v, rfl, hp, -⟩ := hs.split (t := .unit 44) rfl
    refine hx.kept hp fun hcomma => hmem _ ?_
    rw [Token.text, splitUnit_cut, splitUnit,
      List.splitOn_eq_singleton hcomma]
    exact List.mem_append_left _ (List.mem_singleton_self _)

-- ============================================================= reports

section Reports

variable {files : List SourceFile} {f : SourceFile}
  {before rest text fn names x : JsString}

end Reports

end KxcoPostQuantum.Scripts
