/-
The segments of a token and the bytes they encode.

# One text for some bytes

Both codecs write the same text (`b64url_eq`) and both read it back
(`fromB64url_encodeUrl`), so what the strict decoder accepts does not
depend on the runtime: exactly the texts of non-empty byte strings
(`strictB64url_iff`).

# One token for three byte strings

No text in the alphabet has a dot, so a token is cut at its two dots
(`splitOn_token`) and the pair a signature covers is cut at its one dot
(`append_dot_inj`). `segments_canonical` puts both together.
-/
import KxcoPostQuantum.Jws.Index

namespace KxcoPostQuantum.Jws

open Lib.Base64 Lib.Utf8

variable (rt : Runtime)

-- ============================================================ codecs

theorem encodeUrl_eq_nil {x : Bytes} : encodeUrl x = [] ↔ x = [] := by
  rw [encodeUrl, List.map_eq_nil_iff, sextets_eq_nil]

/-- The characters of an encoding. -/
theorem encodeUrl_spec (x : Bytes) : ∀ c ∈ encodeUrl x,
    isUrlChar c = true ∧ c.toNat < 0x80 ∧ c ≠ 46 ∧ c ≠ 61 := by
  intro c hc
  obtain ⟨v, hv, rfl⟩ := List.mem_map.mp hc
  obtain ⟨-, hurl, hascii, -, h46, -, h61⟩ :=
    urlChar_spec v (sextets_lt x v hv)
  exact ⟨hurl, hascii, h46, h61⟩

/-- Dropping a character from the end drops every copy that was put
there. -/
theorem rdropWhile_replicate (l : JsString) (c : UInt16) (n : Nat) :
    (l ++ List.replicate n c).rdropWhile (· = c)
      = l.rdropWhile (· = c) := by
  induction n with
  | zero => rw [List.replicate_zero, List.append_nil]
  | succ n ih =>
      rw [List.replicate_succ', ← List.append_assoc,
        List.rdropWhile_concat_pos _ _ _ (by simp), ih]

/-- The codec of a runtime without `Buffer` writes the same text: it takes
the standard one, with the two characters replaced and the padding taken
off. -/
theorem b64url_eq (x : Bytes) : b64url rt x = encodeUrl x := by
  unfold b64url
  split
  next => rfl
  next =>
    have hchars : replaceAll 47 95 (replaceAll 43 45 (encodeStd x))
        = encodeUrl x ++ padding (sextets x).length := by
      rw [encodeStd, replaceAll, replaceAll, List.map_append,
        List.map_append, List.map_map, List.map_map]
      congr 1
      · refine List.map_congr_left fun v hv => ?_
        have hspec := (stdChar_spec v (sextets_lt x v hv)).2.2.2.2.2.2.2.2.2.2
        rw [← hspec]
        simp only [Function.comp_apply]
        split
        next => rfl
        next => rfl
      · rw [padding, List.map_replicate, List.map_replicate]
        rfl
    rw [hchars, padding, rdropWhile_replicate, List.rdropWhile_eq_self_iff]
    intro hne
    simpa using (encodeUrl_spec x _ (List.getLast_mem hne)).2.2.2

/-- Both codecs read what they write, each by its own way: the one directly,
the other through the alphabet with padding. -/
theorem fromB64url_encodeUrl (x : Bytes) :
    fromB64url rt (encodeUrl x) = .ok x := by
  unfold fromB64url
  split
  next => rw [bufferDecode_encodeUrl]
  next =>
    have hchars : replaceAll 95 47 (replaceAll 45 43 (encodeUrl x))
        = (sextets x).map stdChar := by
      rw [encodeUrl, replaceAll, replaceAll, List.map_map, List.map_map]
      refine List.map_congr_left fun v hv => ?_
      have hspec := (stdChar_spec v (sextets_lt x v hv)).2.2.2.2.2.2.2.2.2.1
      rw [← hspec]
      simp only [Function.comp_apply]
      split
      next => rfl
      next => rfl
    have hpadded : (sextets x).map stdChar ++ List.replicate
        ((4 - ((sextets x).map stdChar).length % 4) % 4) 61
          = encodeStd x := by
      rw [List.length_map, encodeStd, padding]
    simp only [hchars, hpadded, atob, forgivingDecode_padded]

/-- Replacing a character by one that stands for the same sextet changes
nothing that is decoded, as long as neither of the two is the `=` at which
decoding stops. -/
theorem bufferDecode_replaceAll {c d : UInt16} (hc : octet c = c)
    (hd : octet d = d) (hcpad : c ≠ 61) (hdpad : d ≠ 61)
    (h : anyValue d = anyValue c) (s : JsString) :
    bufferDecode (replaceAll c d s) = bufferDecode s := by
  have hunit : ∀ u, (octet (if u = c then d else u) ≠ 61 ↔ octet u ≠ 61)
      ∧ anyValue (octet (if u = c then d else u)) = anyValue (octet u) := by
    intro u
    split
    next hu =>
      rw [hu, hc, hd]
      exact ⟨iff_of_true hdpad hcpad, h⟩
    next => exact ⟨Iff.rfl, rfl⟩
  rw [bufferDecode, bufferDecode, replaceAll]
  congr 1
  induction s with
  | nil => rfl
  | cons u s ih =>
      obtain ⟨hpad, hvalue⟩ := hunit u
      simp only [List.map_cons, List.takeWhile_cons, hpad]
      split
      next => rw [List.filterMap_cons, List.filterMap_cons, hvalue, ih]
      next => rfl

/-- What stands behind a text as padding is not read. -/
theorem bufferDecode_padded (s : JsString) (n : Nat) :
    bufferDecode (s ++ List.replicate n 61) = bufferDecode s := by
  have hpad : (List.replicate n (octet 61)).takeWhile (· ≠ 61) = [] := by
    cases n <;> rfl
  rw [bufferDecode, bufferDecode, List.map_append, List.map_replicate,
    List.takeWhile_append, hpad, List.append_nil]
  split
  next h => rw [(List.takeWhile_prefix _).eq_of_length h]
  next => rfl

/-- What either codec reads is what `Buffer` reads: the one is `Buffer`'s
own, and what `atob` takes is read alike by the other. -/
theorem bufferDecode_of_fromB64url {s : JsString} {b : Bytes}
    (h : fromB64url rt s = .ok b) : bufferDecode s = b := by
  unfold fromB64url at h
  split at h
  next => exact Except.ok.inj h
  next =>
    simp only [atob] at h
    split at h
    next b' hb =>
      cases h
      rw [← bufferDecode_of_forgivingDecode hb, bufferDecode_padded,
        bufferDecode_replaceAll (by decide) (by decide) (by decide)
          (by decide) (by decide),
        bufferDecode_replaceAll (by decide) (by decide) (by decide)
          (by decide) (by decide)]
    next => cases h

/-- **The strict decoder** takes exactly the texts of the non-empty byte
strings, and returns the bytes. -/
theorem strictB64url_iff {s what : JsString} {x : Bytes} :
    strictB64url rt (.string s) what = .ok x
      ↔ s ≠ [] ∧ s = encodeUrl x := by
  constructor
  · intro h
    unfold strictB64url at h
    simp only at h
    split at h
    next => cases h
    next htext =>
      cases hbytes : fromB64url rt s with
      | error e =>
          rw [hbytes] at h
          cases h
      | ok bytes =>
          rw [hbytes] at h
          change (if b64url rt bytes ≠ s then Except.error _
            else Except.ok bytes) = Except.ok x at h
          split at h
          next => cases h
          next hsame =>
            cases h
            rw [b64url_eq, ne_eq, not_not] at hsame
            refine ⟨?_, hsame.symm⟩
            rintro rfl
            exact htext (Or.inl rfl)
  · intro hx
    obtain ⟨hne, rfl⟩ := hx
    have htext : isB64urlText (encodeUrl x) = true := by
      rw [isB64urlText, Bool.and_eq_true, Bool.not_eq_true',
        List.isEmpty_eq_false_iff, List.all_eq_true]
      exact ⟨hne, fun c hc => (encodeUrl_spec x c hc).1⟩
    unfold strictB64url
    simp only
    rw [if_neg (by simp [htext, hne]), fromB64url_encodeUrl]
    change (if b64url rt x ≠ encodeUrl x then Except.error _
      else Except.ok x) = Except.ok x
    rw [if_neg (by rw [b64url_eq]; simp)]

-- ============================================================ tokens

/-- The text of a byte string has no dot. -/
theorem dot_notMem (x : Bytes) : (46 : UInt16) ∉ encodeUrl x :=
  fun h => (encodeUrl_spec x 46 h).2.2.1 rfl

/-- The three segments as one token. -/
def tokenOf (header payload signature : Bytes) : JsString :=
  encodeUrl header ++ js "." ++ encodeUrl payload ++ js "."
    ++ encodeUrl signature

theorem splitOn_token (header payload signature : Bytes) :
    (tokenOf header payload signature).splitOn 46
      = [encodeUrl header, encodeUrl payload, encodeUrl signature] := by
  have hjoin : tokenOf header payload signature
      = List.intercalate [46]
        [encodeUrl header, encodeUrl payload, encodeUrl signature] := by
    simp [tokenOf, List.intercalate, js]
  rw [hjoin, List.splitOn_intercalate]
  · intro l hl
    simp only [List.mem_cons, List.not_mem_nil, or_false] at hl
    rcases hl with rfl | rfl | rfl
    · exact dot_notMem header
    · exact dot_notMem payload
    · exact dot_notMem signature
  · exact List.cons_ne_nil _ _

/-- A token whose segments are such texts is the token of these bytes. -/
theorem eq_tokenOf {token : JsString} {header payload signature : Bytes}
    (h : token.splitOn 46
      = [encodeUrl header, encodeUrl payload, encodeUrl signature]) :
    token = tokenOf header payload signature := by
  have hjoin : List.intercalate [46] (token.splitOn 46) = token :=
    List.intercalate_splitOn 46
  rw [← hjoin, h]
  simp [tokenOf, List.intercalate, js]

/-- What stands before the first separator is determined, and so is what
stands behind it. This is all that a text of segments without a separator in
them has to give. -/
theorem append_dot_inj {α : Type} {dot : α} {a a' b b' : List α}
    (ha : dot ∉ a) (ha' : dot ∉ a') (h : a ++ dot :: b = a' ++ dot :: b') :
    a = a' ∧ b = b' := by
  induction a generalizing a' with
  | nil =>
      cases a' with
      | nil => exact ⟨rfl, (List.cons.inj h).2⟩
      | cons c a' =>
          exact absurd (List.cons.inj h).1
            fun hc => ha' (hc ▸ List.mem_cons_self)
  | cons c a ih =>
      cases a' with
      | nil =>
          exact absurd (List.cons.inj h).1.symm
            fun hc => ha (hc ▸ List.mem_cons_self)
      | cons c' a' =>
          obtain ⟨hc, htail⟩ := List.cons.inj h
          obtain ⟨hs, hb⟩ := ih (fun hm => ha (List.mem_cons_of_mem _ hm))
            (fun hm => ha' (List.mem_cons_of_mem _ hm)) htail
          exact ⟨by rw [hc, hs], hb⟩

/-- The bytes of ASCII text. -/
def asciiBytes (s : JsString) : Bytes := s.map fun u => u.toNat.toUInt8

/-- ASCII texts with the same bytes are the same. -/
theorem textEncode_inj {s t : JsString} (hs : ∀ c ∈ s, c.toNat < 0x80)
    (ht : ∀ c ∈ t, c.toNat < 0x80) (h : textEncode s = textEncode t) :
    s = t := by
  have hbom : ∀ s : JsString, (∀ c ∈ s, c.toNat < 0x80) →
      s.head? ≠ some 0xFEFF := by
    intro s hs hhead
    have := hs _ (List.mem_of_mem_head? hhead)
    exact absurd this (by decide)
  rw [← textDecode_textEncode (Lib.Json.wellFormed_ascii hs) (hbom s hs),
    ← textDecode_textEncode (Lib.Json.wellFormed_ascii ht) (hbom t ht), h]

theorem segments_ascii (header payload : Bytes) :
    ∀ c ∈ encodeUrl header ++ js "." ++ encodeUrl payload,
      c.toNat < 0x80 := by
  intro c hc
  rcases List.mem_append.mp hc with hc | hc
  · rcases List.mem_append.mp hc with hc | hc
    · exact (encodeUrl_spec header c hc).2.1
    · rw [List.mem_singleton.mp hc]
      decide
  · exact (encodeUrl_spec payload c hc).2.1

/-- What is signed determines the header and payload bytes. -/
theorem signingInput_encodeUrl_inj {header payload header' payload' : Bytes}
    (h : signingInput (encodeUrl header) (encodeUrl payload)
      = signingInput (encodeUrl header') (encodeUrl payload')) :
    header = header' ∧ payload = payload' := by
  have htext := textEncode_inj (segments_ascii header payload)
    (segments_ascii header' payload') h
  rw [List.append_assoc, List.append_assoc] at htext
  obtain ⟨hp, hq⟩ := append_dot_inj (dot_notMem header) (dot_notMem header')
    htext
  exact ⟨encodeUrl_injective hp, encodeUrl_injective hq⟩

-- ========================================================= decoding

/-- What the segments of a token decode to. -/
theorem decodeSegments_ok {p q r : JsString} {d : Decoded} :
    decodeSegments rt p q r = .ok d
      ↔ ∃ header, strictB64url rt (.string p) (js "header") = .ok header
        ∧ jsonParse rt (textDecode header) = .ok d.header
        ∧ strictB64url rt (.string q) (js "payload") = .ok d.payload
        ∧ strictB64url rt (.string r) (js "signature") = .ok d.signature := by
  simp only [decodeSegments, decodeHeader, bind_eq_ok, pure_eq_ok]
  constructor
  · intro h
    obtain ⟨v, ⟨header, hp, hj⟩, payload, hq, signature, hr, rfl⟩ := h
    exact ⟨header, hp, hj, hq, hr⟩
  · intro h
    obtain ⟨header, hp, hj, hq, hr⟩ := h
    exact ⟨_, ⟨header, hp, hj⟩, _, hq, _, hr, rfl⟩

/-- A token that gets past the decoding step of `verifyJws`, and the
bytes of its segments. -/
def PastDecoding (token : JsString) (header payload signature : Bytes) :
    Prop :=
  ∃ p q r d, token.splitOn 46 = [p, q, r]
    ∧ decodeSegments rt p q r = .ok d
    ∧ strictB64url rt (.string p) (js "header") = .ok header
    ∧ d.payload = payload ∧ d.signature = signature

/-- Past the decoding step a token is the token of its bytes. -/
theorem PastDecoding.eq_tokenOf {rt : Runtime} {token : JsString}
    {header payload signature : Bytes}
    (h : PastDecoding rt token header payload signature) :
    token = tokenOf header payload signature := by
  obtain ⟨p, q, r, d, hsplit, hd, hp, rfl, rfl⟩ := h
  obtain ⟨_, -, -, hq, hr⟩ := (decodeSegments_ok rt).mp hd
  obtain ⟨-, rfl⟩ := (strictB64url_iff rt).mp hp
  obtain ⟨-, rfl⟩ := (strictB64url_iff rt).mp hq
  obtain ⟨-, rfl⟩ := (strictB64url_iff rt).mp hr
  exact Jws.eq_tokenOf hsplit

/-- **Canonical tokens.** In every runtime the strict decoder takes a
string exactly when it is the text of a non-empty byte string, and
returns these bytes; tokens past the decoding step with the same bytes
are the same token; and what is signed determines the header and the
payload. -/
theorem segments_canonical :
    (∀ s what x, strictB64url rt (.string s) what = .ok x
      ↔ s ≠ [] ∧ s = b64url rt x)
    ∧ (∀ rt' token token' header payload signature,
      PastDecoding rt token header payload signature →
      PastDecoding rt' token' header payload signature → token = token')
    ∧ ∀ header payload header' payload',
      signingInput (b64url rt header) (b64url rt payload)
          = signingInput (b64url rt header') (b64url rt payload') →
        header = header' ∧ payload = payload' := by
  refine ⟨?_, ?_, ?_⟩
  · intro s what x
    rw [b64url_eq]
    exact strictB64url_iff rt
  · intro rt' token token' header payload signature h h'
    rw [h.eq_tokenOf, h'.eq_tokenOf]
  · intro header payload header' payload' h
    rw [b64url_eq, b64url_eq, b64url_eq, b64url_eq] at h
    exact signingInput_encodeUrl_inj h

end KxcoPostQuantum.Jws
