/-
Base64 as RFC 4648 has it, and the two lenient decoders of JavaScript
hosts.

A byte string is cut into sextets, three bytes to four, the last group
padded with zero bits (`sextets`). Decoding drops the bits that do not
fill a byte (`bytesOf`), so many sextet strings decode to the same bytes
and only one of them is an encoding.

# The decoders

- `bufferDecode` is what Node does: of each unit the low byte is read, in
  either alphabet, up to the first `=`; every other character is skipped.
- `forgivingDecode` is what the Infra Standard calls forgiving-base64
  decode, the decoder of `atob`: ASCII whitespace is dropped, up to two
  `=` complete a last group, any other character fails, and so does a
  single sextet left over.

Both undo `encodeUrl`, each given its input in its own form
(`bufferDecode_encodeUrl`, `forgivingDecode_padded`), and the first reads
alike whatever the second accepts (`bufferDecode_of_forgivingDecode`).
-/
import Mathlib.Tactic.Common
import Mathlib.Data.List.TakeWhile
import Mathlib.Data.UInt

namespace Lib.Base64

-- =========================================================== sextets

/-- The sextets of a byte string. -/
def sextets : List UInt8 → List Nat
  | [] => []
  | [a] => [a.toNat / 4, a.toNat % 4 * 16]
  | [a, b] =>
      [a.toNat / 4, a.toNat % 4 * 16 + b.toNat / 16, b.toNat % 16 * 4]
  | a :: b :: c :: rest =>
      a.toNat / 4 :: (a.toNat % 4 * 16 + b.toNat / 16)
        :: (b.toNat % 16 * 4 + c.toNat / 64) :: c.toNat % 64
        :: sextets rest

/-- The bytes a sextet string fills. -/
def bytesOf : List Nat → List UInt8
  | a :: b :: c :: d :: rest =>
      (a * 4 + b / 16).toUInt8 :: (b % 16 * 16 + c / 4).toUInt8
        :: (c % 4 * 64 + d).toUInt8 :: bytesOf rest
  | [a, b, c] => [(a * 4 + b / 16).toUInt8, (b % 16 * 16 + c / 4).toUInt8]
  | [a, b] => [(a * 4 + b / 16).toUInt8]
  | [_] => []
  | [] => []

private theorem toUInt8_eq {n : Nat} {a : UInt8} (h : n = a.toNat) :
    n.toUInt8 = a := by
  rw [h, Nat.toUInt8_eq, UInt8.ofNat_toNat]

/-- Decoding undoes encoding, by the recursion of the encoder: three bytes
are four sextets, and one or two bytes at the end are two or three. -/
theorem bytesOf_sextets (x : List UInt8) : bytesOf (sextets x) = x := by
  induction x using sextets.induct with
  | case1 => rfl
  | case2 a =>
      have ha := a.toNat_lt
      simp only [sextets, bytesOf]
      rw [toUInt8_eq (a := a) (by omega)]
  | case3 a b =>
      have ha := a.toNat_lt
      have hb := b.toNat_lt
      simp only [sextets, bytesOf]
      rw [toUInt8_eq (a := a) (by omega), toUInt8_eq (a := b) (by omega)]
  | case4 a b c rest ih =>
      have ha := a.toNat_lt
      have hb := b.toNat_lt
      have hc := c.toNat_lt
      simp only [sextets, bytesOf, ih]
      rw [toUInt8_eq (a := a) (by omega), toUInt8_eq (a := b) (by omega),
        toUInt8_eq (a := c) (by omega)]

theorem sextets_lt (x : List UInt8) : ∀ v ∈ sextets x, v < 64 := by
  induction x using sextets.induct with
  | case1 => simp [sextets]
  | case2 a =>
      have ha := a.toNat_lt
      simp only [sextets, List.forall_mem_cons]
      refine ⟨by omega, by omega, by simp⟩
  | case3 a b =>
      have ha := a.toNat_lt
      have hb := b.toNat_lt
      simp only [sextets, List.forall_mem_cons]
      refine ⟨by omega, by omega, by omega, by simp⟩
  | case4 a b c rest ih =>
      have ha := a.toNat_lt
      have hb := b.toNat_lt
      have hc := c.toNat_lt
      simp only [sextets, List.forall_mem_cons]
      exact ⟨by omega, by omega, by omega, by omega, ih⟩

/-- No encoding leaves a single sextet over. -/
theorem sextets_length (x : List UInt8) : (sextets x).length % 4 ≠ 1 := by
  induction x using sextets.induct with
  | case1 => simp [sextets]
  | case2 a => simp [sextets]
  | case3 a b => simp [sextets]
  | case4 a b c rest ih =>
      simp only [sextets, List.length_cons]
      omega

theorem sextets_eq_nil {x : List UInt8} : sextets x = [] ↔ x = [] := by
  cases x with
  | nil => simp [sextets]
  | cons a x =>
      rcases x with _ | ⟨b, _ | ⟨c, x⟩⟩ <;> simp [sextets]

-- ========================================================= characters

/-- The character of a sextet, by the two characters that differ between
the alphabets. -/
def charOf (c62 c63 : UInt16) (v : Nat) : UInt16 :=
  if v < 26 then (65 + v).toUInt16
  else if v < 52 then (97 + (v - 26)).toUInt16
  else if v < 62 then (48 + (v - 52)).toUInt16
  else if v = 62 then c62 else c63

/-- `+` and `/`. -/
def stdChar : Nat → UInt16 := charOf 43 47

/-- `-` and `_`. -/
def urlChar : Nat → UInt16 := charOf 45 95

/-- A letter or a digit, by its sextet. -/
def alnumValue (c : UInt16) : Option Nat :=
  let n := c.toNat
  if 65 ≤ n ∧ n ≤ 90 then some (n - 65)
  else if 97 ≤ n ∧ n ≤ 122 then some (n - 97 + 26)
  else if 48 ≤ n ∧ n ≤ 57 then some (n - 48 + 52)
  else none

/-- The sextet of a character of the standard alphabet. -/
def stdValue (c : UInt16) : Option Nat :=
  if c = 43 then some 62 else if c = 47 then some 63 else alnumValue c

/-- The sextet of a character of either alphabet. -/
def anyValue (c : UInt16) : Option Nat :=
  if c = 45 then some 62 else if c = 95 then some 63 else stdValue c

/-- A character of the URL alphabet. -/
def isUrlChar (c : UInt16) : Bool :=
  (alnumValue c).isSome || c = 45 || c = 95

/-- What every sextet's character satisfies, by inspection of the 64. -/
theorem urlChar_spec : ∀ v < 64, anyValue (urlChar v) = some v
    ∧ isUrlChar (urlChar v) = true ∧ (urlChar v).toNat < 0x80
    ∧ urlChar v ≠ 43 ∧ urlChar v ≠ 46 ∧ urlChar v ≠ 47 ∧ urlChar v ≠ 61 := by
  decide +kernel

theorem stdChar_spec : ∀ v < 64, stdValue (stdChar v) = some v
    ∧ stdChar v ≠ 61 ∧ stdChar v ≠ 45 ∧ stdChar v ≠ 95
    ∧ stdChar v ≠ 9 ∧ stdChar v ≠ 10 ∧ stdChar v ≠ 12 ∧ stdChar v ≠ 13
    ∧ stdChar v ≠ 32
    ∧ (if urlChar v = 45 then 43
      else if urlChar v = 95 then 47 else urlChar v) = stdChar v
    ∧ (if stdChar v = 43 then 45
      else if stdChar v = 47 then 95 else stdChar v) = urlChar v := by
  decide +kernel

-- ============================================================ encoders

/-- The URL-safe text of a byte string, without padding. -/
def encodeUrl (x : List UInt8) : List UInt16 := (sextets x).map urlChar

/-- What completes the last group of four. -/
def padding (length : Nat) : List UInt16 :=
  List.replicate ((4 - length % 4) % 4) 61

/-- The standard text of a byte string, with its padding. -/
def encodeStd (x : List UInt8) : List UInt16 :=
  (sextets x).map stdChar ++ padding (sextets x).length

-- ============================================================ decoders

/-- The unit a decoder of octets makes of one of two bytes. -/
def octet (c : UInt16) : UInt16 := c % 256

/-- Read both alphabets up to the first `=` and skip everything else. -/
def bufferDecode (s : List UInt16) : List UInt8 :=
  bytesOf (((s.map octet).takeWhile (· ≠ 61)).filterMap anyValue)

/-- ASCII whitespace. -/
def isSpace (c : UInt16) : Bool :=
  c = 9 || c = 10 || c = 12 || c = 13 || c = 32

/-- A text of whole groups without the one or two `=` it ends with. -/
def dropPadding (s : List UInt16) : List UInt16 :=
  if s.length % 4 = 0 then
    match s.reverse with
    | 61 :: 61 :: rest => rest.reverse
    | 61 :: rest => rest.reverse
    | _ => s
  else s

/-- Forgiving-base64 decode. -/
def forgivingDecode (s : List UInt16) : Option (List UInt8) :=
  let s := dropPadding (s.filter fun c => !isSpace c)
  if s.length % 4 = 1 then none else (s.mapM stdValue).map bytesOf

/-- A unit of one byte is its own octet. -/
theorem octet_of_lt {c : UInt16} (h : c.toNat < 256) : octet c = c := by
  rw [← UInt16.toNat_inj, octet, UInt16.toNat_mod]
  exact Nat.mod_eq_of_lt h

/-- A text of single bytes is read as it stands. -/
theorem map_octet {s : List UInt16} (hs : ∀ c ∈ s, c.toNat < 256) :
    s.map octet = s :=
  (List.map_congr_left fun c hc => octet_of_lt (hs c hc)).trans
    (List.map_id s)

/-- A text in the alphabet of URLs decodes to what it encodes. None of its
characters is skipped, and it has no padding to stop at. -/
theorem bufferDecode_encodeUrl (x : List UInt8) :
    bufferDecode (encodeUrl x) = x := by
  have hlt := sextets_lt x
  have hvalues : ∀ vs : List Nat, (∀ v ∈ vs, v < 64) →
      (vs.map urlChar).filterMap anyValue = vs := by
    intro vs hvs
    induction vs with
    | nil => rfl
    | cons v vs ih =>
        rw [List.forall_mem_cons] at hvs
        rw [List.map_cons,
          List.filterMap_cons_some (urlChar_spec v hvs.1).1, ih hvs.2]
  have hchars : ∀ c ∈ encodeUrl x, c.toNat < 256 ∧ c ≠ 61 := by
    intro c hc
    obtain ⟨v, hv, rfl⟩ := List.mem_map.mp hc
    obtain ⟨-, -, hascii, -, -, -, hpad⟩ := urlChar_spec v (hlt v hv)
    exact ⟨Nat.lt_trans hascii (by decide), hpad⟩
  have htake : (encodeUrl x).takeWhile (· ≠ 61) = encodeUrl x :=
    List.takeWhile_eq_self_iff.mpr fun c hc => decide_eq_true (hchars c hc).2
  rw [bufferDecode, map_octet fun c hc => (hchars c hc).1, htake, encodeUrl,
    hvalues _ hlt, bytesOf_sextets]

/-- The padding put on is the padding taken off. The lengths that are one
more than a multiple of four are left out, since no byte string has a text
of them. -/
theorem dropPadding_append {m : List UInt16} (hm : ∀ c ∈ m, c ≠ 61)
    (hlen : m.length % 4 ≠ 1) :
    dropPadding (m ++ padding m.length) = m := by
  have hlast : ∀ rest, m.reverse ≠ 61 :: rest := by
    intro rest hr
    refine hm 61 ?_ rfl
    rw [← List.mem_reverse, hr]
    exact List.mem_cons_self
  have htotal : (m ++ padding m.length).length % 4 = 0 := by
    rw [padding, List.length_append, List.length_replicate]
    omega
  rw [dropPadding, if_pos htotal, padding]
  have hcases : m.length % 4 = 0 ∨ m.length % 4 = 2 ∨ m.length % 4 = 3 := by
    omega
  rcases hcases with h0 | h2 | h3
  · rw [h0]
    simp only [Nat.sub_zero, Nat.mod_self, List.replicate_zero,
      List.append_nil]
    split
    next rest hr => exact absurd hr (hlast _)
    next rest hr => exact absurd hr (hlast _)
    next => rfl
  · rw [h2]
    simp [List.reverse_append]
  · rw [h3]
    simp only [Nat.reduceSub, Nat.reduceMod, List.replicate_one,
      List.reverse_append, List.reverse_singleton, List.singleton_append]
    exact List.reverse_reverse m

/-- The standard text of a byte string decodes to it: what is taken off is
the padding, and the bits that are left over in the last sextet are zero. -/
theorem forgivingDecode_padded (x : List UInt8) :
    forgivingDecode (encodeStd x) = some x := by
  have hlt := sextets_lt x
  have hspaces : (encodeStd x).filter (fun c => !isSpace c) = encodeStd x := by
    rw [List.filter_eq_self]
    intro c hc
    rcases List.mem_append.mp hc with hc | hc
    · obtain ⟨v, hv, rfl⟩ := List.mem_map.mp hc
      obtain ⟨-, -, -, -, h9, h10, h12, h13, h32, -⟩ :=
        stdChar_spec v (hlt v hv)
      simp [isSpace, h9, h10, h12, h13, h32]
    · rw [List.eq_of_mem_replicate hc]
      rfl
  have hpad : dropPadding (encodeStd x) = (sextets x).map stdChar := by
    have := dropPadding_append (m := (sextets x).map stdChar) ?_ ?_
    · rwa [List.length_map] at this
    · intro c hc
      obtain ⟨v, hv, rfl⟩ := List.mem_map.mp hc
      exact (stdChar_spec v (hlt v hv)).2.1
    · rw [List.length_map]
      exact sextets_length x
  have hvalues : ∀ vs : List Nat, (∀ v ∈ vs, v < 64) →
      (vs.map stdChar).mapM stdValue = some vs := by
    intro vs hvs
    induction vs with
    | nil => rfl
    | cons v vs ih =>
        rw [List.forall_mem_cons] at hvs
        simp [List.mapM_cons, (stdChar_spec v hvs.1).1, ih hvs.2]
  unfold forgivingDecode
  simp only [hspaces, hpad, List.length_map]
  rw [if_neg (sextets_length x), hvalues _ hlt, Option.map_some,
    bytesOf_sextets]

/-- A byte string has one text. -/
theorem encodeUrl_injective {x y : List UInt8}
    (h : encodeUrl x = encodeUrl y) : x = y := by
  rw [← bufferDecode_encodeUrl x, h, bufferDecode_encodeUrl]

-- ========================================= the decoders side by side

/-- Whitespace stands for nothing. -/
theorem anyValue_space {c : UInt16} (h : isSpace c = true) :
    anyValue c = none := by
  simp only [isSpace, Bool.or_eq_true, decide_eq_true_eq] at h
  rcases h with (((rfl | rfl) | rfl) | rfl) | rfl <;> decide

/-- The characters of the standard alphabet stand for the same in
either. -/
theorem anyValue_of_stdValue {c : UInt16} {v : Nat}
    (h : stdValue c = some v) : anyValue c = some v := by
  have h45 : c ≠ 45 := by
    rintro rfl
    cases h
  have h95 : c ≠ 95 := by
    rintro rfl
    cases h
  rw [anyValue, if_neg h45, if_neg h95, h]

/-- Only padding is taken off, from the end, so what is left is a beginning
of the text. -/
theorem dropPadding_spec (s : List UInt16) :
    ∃ n, s = dropPadding s ++ List.replicate n 61 := by
  have hs : ∀ {r}, s.reverse = r → s = r.reverse := fun hr => by
    rw [← hr, List.reverse_reverse]
  unfold dropPadding
  split
  next =>
    split
    next rest hr => exact ⟨2, by rw [hs hr]; simp⟩
    next rest hr => exact ⟨1, by rw [hs hr]; simp⟩
    next => exact ⟨0, (List.append_nil s).symm⟩
  next => exact ⟨0, (List.append_nil s).symm⟩

/-- Whitespace stands in front of the first `=` or behind it. -/
theorem filter_takeWhile (s : List UInt16) :
    (s.takeWhile (· ≠ 61)).filter (fun c => !isSpace c)
      = (s.filter fun c => !isSpace c).takeWhile (· ≠ 61) := by
  induction s with
  | nil => rfl
  | cons c s ih =>
      by_cases hpad : c = 61
      · subst hpad
        rfl
      · have htake : ∀ u : List UInt16, (c :: u).takeWhile (· ≠ 61)
            = c :: u.takeWhile (· ≠ 61) := fun u =>
          List.takeWhile_cons_of_pos (decide_eq_true hpad)
        rw [htake]
        by_cases hspace : isSpace c = true
        · rw [List.filter_cons_of_neg (by simp [hspace]),
            List.filter_cons_of_neg (by simp [hspace]), ih]
        · rw [List.filter_cons_of_pos (by simp [hspace]),
            List.filter_cons_of_pos (by simp [hspace]), htake, ih]

/-- What `mapM` reads, `filterMap` reads. -/
theorem filterMap_of_mapM {s : List UInt16} {vs : List Nat}
    (h : s.mapM stdValue = some vs) : s.filterMap anyValue = vs := by
  induction s generalizing vs with
  | nil =>
      cases h
      rfl
  | cons c s ih =>
      simp only [List.mapM_cons, Option.bind_eq_bind, Option.bind_eq_some_iff,
        Option.pure_def, Option.some.injEq] at h
      obtain ⟨v, hv, vs', hvs', rfl⟩ := h
      rw [List.filterMap_cons_some (anyValue_of_stdValue hv), ih hvs']

/-- Only `=` is taken off. -/
theorem mem_dropPadding {c : UInt16} {s : List UInt16} (hc : c ∈ s)
    (hne : c ≠ 61) : c ∈ dropPadding s := by
  have hs : ∀ {r}, s.reverse = r → c ∈ r := by
    intro r hr
    rw [← hr, List.mem_reverse]
    exact hc
  unfold dropPadding
  split
  next =>
    split
    next rest hr => simpa [hne] using hs hr
    next rest hr => simpa [hne] using hs hr
    next => exact hc
  next => exact hc

/-- What `mapM` reads has values only. -/
theorem stdValue_of_mapM {s : List UInt16} {vs : List Nat}
    (h : s.mapM stdValue = some vs) : ∀ c ∈ s, stdValue c ≠ none := by
  induction s generalizing vs with
  | nil =>
      intro c hc
      cases hc
  | cons c s ih =>
      simp only [List.mapM_cons, Option.bind_eq_bind, Option.bind_eq_some_iff,
        Option.pure_def, Option.some.injEq] at h
      obtain ⟨v, hv, vs', hvs', -⟩ := h
      rw [List.forall_mem_cons, hv]
      exact ⟨Option.some_ne_none v, ih hvs'⟩

/-- A character of the standard alphabet is one byte, and no `=`. -/
theorem stdValue_spec {c : UInt16} (h : stdValue c ≠ none) :
    c.toNat < 256 ∧ c ≠ 61 := by
  refine ⟨?_, by rintro rfl; exact h rfl⟩
  unfold stdValue at h
  split at h
  next hc => rw [hc]; decide
  split at h
  next hc => rw [hc]; decide
  unfold alnumValue at h
  by_contra hlarge
  simp only [not_lt] at hlarge
  rw [if_neg (by omega), if_neg (by omega), if_neg (by omega)] at h
  exact h rfl

/-- What the forgiving decoder accepts, `Buffer`'s reads alike. It skips the
same white space, and stops at the padding which the other has taken off. -/
theorem bufferDecode_of_forgivingDecode {s : List UInt16} {b : List UInt8}
    (h : forgivingDecode s = some b) : bufferDecode s = b := by
  unfold forgivingDecode at h
  simp only at h
  split at h
  next => cases h
  next =>
    obtain ⟨vs, hvs, rfl⟩ := Option.map_eq_some_iff.mp h
    have hchars := fun c hc => stdValue_spec (stdValue_of_mapM hvs c hc)
    obtain ⟨n, hn⟩ := dropPadding_spec (s.filter fun c => !isSpace c)
    -- every unit is whitespace, padding or of the alphabet: one byte
    have hbytes : ∀ c ∈ s, c.toNat < 256 := by
      intro c hc
      by_cases hspace : isSpace c = true
      · simp only [isSpace, Bool.or_eq_true, decide_eq_true_eq] at hspace
        rcases hspace with (((rfl | rfl) | rfl) | rfl) | rfl <;> decide
      · have hmem : c ∈ s.filter fun c => !isSpace c :=
          List.mem_filter.mpr ⟨hc, by simp [hspace]⟩
        rw [hn] at hmem
        rcases List.mem_append.mp hmem with hmem | hmem
        · exact (hchars c hmem).1
        · rw [List.eq_of_mem_replicate hmem]
          decide
    have htake : (s.filter fun c => !isSpace c).takeWhile (· ≠ 61)
        = dropPadding (s.filter fun c => !isSpace c) := by
      conv_lhs => rw [hn]
      rw [List.takeWhile_append_of_pos fun c hc =>
        decide_eq_true (hchars c hc).2]
      cases n <;> simp [List.replicate_succ]
    have hread : (s.takeWhile (· ≠ 61)).filterMap anyValue
        = ((s.takeWhile (· ≠ 61)).filter fun c => !isSpace c).filterMap
          anyValue := by
      rw [List.filterMap_filter]
      refine List.filterMap_congr fun c _ => ?_
      split
      next => rfl
      next hc => exact anyValue_space (by simpa using hc)
    rw [bufferDecode, map_octet hbytes, hread, filter_takeWhile, htake,
      filterMap_of_mapM hvs]

/-- The forgiving decoder fails on a character of neither kind. -/
theorem forgivingDecode_eq_none {c : UInt16} {s : List UInt16} (hc : c ∈ s)
    (hspace : isSpace c = false) (hpad : c ≠ 61)
    (hvalue : stdValue c = none) : forgivingDecode s = none := by
  have hmem : c ∈ dropPadding (s.filter fun c => !isSpace c) :=
    mem_dropPadding (List.mem_filter.mpr ⟨hc, by simp [hspace]⟩) hpad
  unfold forgivingDecode
  simp only
  split
  next => rfl
  next =>
    rw [Option.map_eq_none_iff, Option.eq_none_iff_forall_ne_some]
    intro vs hvs
    exact stdValue_of_mapM hvs c hmem hvalue

end Lib.Base64
