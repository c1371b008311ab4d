/-
The DER encoders of _native.node.js against a strict reader.

# Lengths

`derLength` keeps sixteen bits of a length: below 65536 its octets are the
shortest text of the length, and from there on those of the length modulo
65536 (`derLength_octets`). Lengths are nested, and the outermost is the
longest, so an encoding is faithful exactly where the outermost length is
below 65536 (`spkiForm_iff`, `pkcs8Form_iff`).

# Faithful

The encodings of two keys are `Faithful` if each is of its form, a strict
reader reads it whole, and their first elements tell the keys apart. Where
a length overflows a text is that of a shorter key with more bytes behind
it (`toSpki_append`, `toPkcs8_append`): no reader could do better.
-/
import Mathlib.Data.Nat.Bitwise
import KxcoPostQuantum.Lib.Der
import KxcoPostQuantum.Signature.Native

namespace KxcoPostQuantum.Signature

open Lib.Ber Lib.Der

-- ============================================================ formats

/-- A SEQUENCE whose length has one octet. -/
def ShortSequence (algid : Bytes) : Prop :=
  ∃ content, content.length < 128
    ∧ algid = 0x30 :: content.length.toUInt8 :: content

/-- A SubjectPublicKeyInfo. -/
def SpkiForm (algid key text : Bytes) : Prop :=
  ∃ bits, Distinguished 0x30 (algid ++ bits) text
    ∧ Distinguished 0x03 (0x00 :: key) bits

/-- A PrivateKeyInfo whose key is in expanded form. -/
def Pkcs8Form (algid key text : Bytes) : Prop :=
  ∃ version outer inner,
    Distinguished 0x30 (version ++ (algid ++ outer)) text
      ∧ Distinguished 0x02 [0x00] version
      ∧ Distinguished 0x04 inner outer ∧ Distinguished 0x04 key inner

/-- Read a SubjectPublicKeyInfo strictly. -/
def readSpki (text : Bytes) : Option (Bytes × Bytes) := do
  let (tag, body, rest) ← readElement text
  let (algTag, _, afterAlg) ← readElement body
  let (bitTag, bits, afterBits) ← readElement afterAlg
  if tag = 0x30 ∧ rest = [] ∧ algTag = 0x30 ∧ bitTag = 0x03
      ∧ afterBits = [] ∧ bits.head? = some 0x00 then
    some (body.take (body.length - afterAlg.length), bits.tail)
  else none

/-- Read a PrivateKeyInfo with an expanded key strictly. -/
def readPkcs8 (text : Bytes) : Option (Bytes × Bytes) := do
  let (tag, body, rest) ← readElement text
  let (versionTag, version, afterVersion) ← readElement body
  let (algTag, _, afterAlg) ← readElement afterVersion
  let (keyTag, inner, afterKey) ← readElement afterAlg
  let (innerTag, key, afterInner) ← readElement inner
  if tag = 0x30 ∧ rest = [] ∧ versionTag = 0x02 ∧ version = [0x00]
      ∧ algTag = 0x30 ∧ keyTag = 0x04 ∧ afterKey = [] ∧ innerTag = 0x04
      ∧ afterInner = [] then
    some (afterVersion.take (afterVersion.length - afterAlg.length), key)
  else none

/-- What the encodings of two keys are to a strict reader: of the form,
read whole, and with different first elements. -/
structure Faithful (Form : Bytes → Bytes → Bytes → Prop)
    (read : Bytes → Option (Bytes × Bytes)) (encode : Bytes → Bytes → Bytes)
    (algid k k' : Bytes) : Prop where
  form : ∀ x ∈ [k, k'], Form algid x (encode algid x)
  read : ∀ x ∈ [k, k'], read (encode algid x) = some (algid, x)
  distinct : ∀ e, firstElement (encode algid k) = some e →
    firstElement (encode algid k') = some e → k = k'

-- ============================================================ lengths

/-- The two octets of a long length. -/
theorem octetsValue_pair (n : Nat) :
    octetsValue [(n / 256).toUInt8, (n % 256).toUInt8] = n % 65536 := by
  have hhigh : (n / 256).toUInt8.toNat = n / 256 % 256 := rfl
  have hlow : (n % 256).toUInt8.toNat = n % 256 % 256 := rfl
  rw [octetsValue, List.foldl_cons, List.foldl_cons, List.foldl_nil, hhigh,
    hlow]
  omega

/-- **Sixteen bits.** The octets of any length are those of the length
modulo 65536. -/
theorem derLength_octets (n : Nat) :
    LengthOctets (derLength n) (n % 65536) := by
  rw [derLength]
  split
  next h =>
    rw [Nat.mod_eq_of_lt (by omega)]
    exact .short h
  next h =>
    split
    next h' =>
      have hvalue : octetsValue [n.toUInt8] = n % 65536 := by
        have hoctet : n.toUInt8.toNat = n % 256 := rfl
        rw [octetsValue, List.foldl_cons, List.foldl_nil, hoctet]
        omega
      have hlong := @LengthOctets.long [n.toUInt8] (by simp) (by simp)
      rwa [hvalue] at hlong
    next h' =>
      have hlong := @LengthOctets.long
        [(n / 256).toUInt8, (n % 256).toUInt8] (by simp) (by simp)
      rwa [octetsValue_pair] at hlong

/-- Below that they are the shortest: one octet below 128, one more up to
255, and two more from there on, none of them zero in front. -/
theorem derLength_shortest {n : Nat} (hn : n < 65536) :
    Shortest (derLength n) n := by
  rw [derLength]
  split
  next h => exact .short h
  next h =>
    split
    next h' =>
      have hoctet : n.toUInt8.toNat = n := by
        rw [Nat.toUInt8_eq, UInt8.toNat_ofNat']
        omega
      have hvalue : octetsValue [n.toUInt8] = n := by
        rw [octetsValue, List.foldl_cons, List.foldl_nil, hoctet]
        omega
      have hne : n.toUInt8 ≠ 0 := by
        intro hzero
        rw [hzero] at hoctet
        exact h (hoctet ▸ by decide)
      have hlong := @Shortest.long n.toUInt8 [] hne (by simp) (by omega)
      rwa [hvalue] at hlong
    next h' =>
      have hvalue := octetsValue_pair n
      rw [Nat.mod_eq_of_lt hn] at hvalue
      have hhigh : (n / 256).toUInt8.toNat = n / 256 := by
        rw [Nat.toUInt8_eq, UInt8.toNat_ofNat']
        omega
      have hne : (n / 256).toUInt8 ≠ 0 := by
        intro hzero
        rw [hzero] at hhigh
        have hquotient : 0 = n / 256 := hhigh
        omega
      have hlong := @Shortest.long (n / 256).toUInt8 [(n % 256).toUInt8] hne
        (by simp) (by omega)
      rwa [hvalue] at hlong

-- =========================================================== elements

section

variable {tag : UInt8} {payload : Bytes}

/-- The header of an element has at most four octets. -/
theorem der_length_le : (der tag payload).length ≤ payload.length + 4 := by
  rw [der, derLength]
  split
  · simp
  · split <;> simp

/-- And four from 256 on. -/
theorem der_length_long (h : 256 ≤ payload.length) :
    (der tag payload).length = payload.length + 4 := by
  rw [der, derLength, if_neg (by omega), if_neg (by omega)]
  simp

end

/-- `der` is an element exactly below 65536. From there on the length that
it writes is not that of what follows. -/
theorem der_distinguished_iff {tag : UInt8} {c payload : Bytes} :
    Distinguished tag c (der tag payload)
      ↔ c = payload ∧ payload.length < 65536 := by
  constructor
  · intro h
    obtain ⟨octets, hoctets, heq⟩ := h
    obtain ⟨-, hlength, rfl⟩ := (derLength_octets payload.length).append_inj
      hoctets.lengthOctets (List.cons.inj heq).2
    exact ⟨rfl, by omega⟩
  · intro h
    obtain ⟨rfl, hlength⟩ := h
    exact ⟨_, derLength_shortest hlength, rfl⟩

/-- A SEQUENCE with one length octet is an element. -/
theorem ShortSequence.distinguished {algid : Bytes}
    (h : ShortSequence algid) :
    ∃ content, Distinguished 0x30 content algid := by
  obtain ⟨content, hlength, rfl⟩ := h
  exact ⟨content, [content.length.toUInt8], .short hlength, rfl⟩

theorem SpkiForm.read {algid key text : Bytes} (h : SpkiForm algid key text)
    (halgid : ShortSequence algid) : readSpki text = some (algid, key) := by
  obtain ⟨bits, htext, hbits⟩ := h
  obtain ⟨content, hcontent⟩ := halgid.distinguished
  have htextRead := htext.read []
  have hbitsRead := hbits.read []
  rw [List.append_nil] at htextRead hbitsRead
  rw [readSpki, htextRead]
  simp [hcontent.read, hbitsRead]

theorem Pkcs8Form.read {algid key text : Bytes}
    (h : Pkcs8Form algid key text) (halgid : ShortSequence algid) :
    readPkcs8 text = some (algid, key) := by
  obtain ⟨version, outer, inner, htext, hversion, houter, hinner⟩ := h
  obtain ⟨content, hcontent⟩ := halgid.distinguished
  have htextRead := htext.read []
  have houterRead := houter.read []
  have hinnerRead := hinner.read []
  rw [List.append_nil] at htextRead houterRead hinnerRead
  rw [readPkcs8, htextRead]
  simp [hversion.read, hcontent.read, houterRead, hinnerRead]

-- =========================================================== encoders

theorem ShortSequence.length_lt {algid : Bytes} (h : ShortSequence algid) :
    algid.length < 130 := by
  obtain ⟨content, hlength, rfl⟩ := h
  rw [List.length_cons, List.length_cons]
  omega

/-- A key is in form where the outermost length has sixteen bits. -/
theorem spkiForm_iff {algid k : Bytes} (h : ShortSequence algid) :
    SpkiForm algid k (toSpki algid k) ↔ algid.length + k.length ≤ 65530 := by
  have halgid := h.length_lt
  have hbits : (0x00 :: k : Bytes).length = k.length + 1 := List.length_cons
  have hle := @der_length_le 0x03 (0x00 :: k)
  simp only [SpkiForm, toSpki, der_distinguished_iff, List.length_append]
  constructor
  · intro hx
    obtain ⟨bits, ⟨-, hlength⟩, -⟩ := hx
    by_cases hk : k.length < 256
    · omega
    · rw [der_length_long (by omega)] at hlength
      omega
  · intro hk
    exact ⟨_, ⟨rfl, by omega⟩, der_distinguished_iff.mpr ⟨rfl, by omega⟩⟩

theorem pkcs8Form_iff {algid k : Bytes} (h : ShortSequence algid) :
    Pkcs8Form algid k (toPkcs8 algid k)
      ↔ algid.length + k.length ≤ 65524 := by
  have halgid := h.length_lt
  have hinner := @der_length_le 0x04 k
  have houter := @der_length_le 0x04 (der 0x04 k)
  have hversion : Distinguished 0x02 [0x00] [0x02, 0x01, 0x00] :=
    ⟨[0x01], .short (by decide), rfl⟩
  have hthree : ([0x02, 0x01, 0x00] : Bytes).length = 3 := rfl
  constructor
  · intro hx
    obtain ⟨version, outer, inner, htext, -⟩ := hx
    obtain ⟨-, hlength⟩ := der_distinguished_iff.mp htext
    rw [List.length_append, List.length_append, hthree] at hlength
    by_cases hk : k.length < 256
    · omega
    · have hinner := @der_length_long 0x04 k (by omega)
      rw [der_length_long (by omega)] at hlength
      omega
  · intro hk
    refine ⟨_, _, _, ?_, hversion,
      der_distinguished_iff.mpr ⟨rfl, by omega⟩,
      der_distinguished_iff.mpr ⟨rfl, by omega⟩⟩
    rw [toPkcs8, List.append_assoc]
    refine der_distinguished_iff.mpr ⟨rfl, ?_⟩
    rw [List.length_append, List.length_append, hthree]
    omega

/-- The form, where it is one element that is read whole, is all that
matters. -/
theorem faithful_iff {Form : Bytes → Bytes → Bytes → Prop}
    {read : Bytes → Option (Bytes × Bytes)} {encode : Bytes → Bytes → Bytes}
    {algid : Bytes} (k k' : Bytes)
    (hread : ∀ {key text}, Form algid key text →
      read text = some (algid, key))
    (helement : ∀ {key text}, Form algid key text →
      ∃ c, Distinguished 0x30 c text) :
    Faithful Form read encode algid k k'
      ↔ ∀ x ∈ [k, k'], Form algid x (encode algid x) := by
  constructor
  · intro h
    exact h.form
  · intro h
    refine ⟨h, fun x hx => hread (h x hx), ?_⟩
    intro e he he'
    have hform := h k (by simp)
    have hform' := h k' (by simp)
    have hfirst : ∀ {key text}, Form algid key text →
        firstElement text = some text := by
      intro key text hf
      obtain ⟨c, hc⟩ := helement hf
      rw [← List.append_nil text, hc.firstElement [], List.append_nil]
    rw [hfirst hform, Option.some_inj] at he
    rw [hfirst hform', Option.some_inj] at he'
    have hk := hread hform
    rw [he, ← he', hread hform', Option.some_inj] at hk
    exact (Prod.mk.inj hk).2.symm

-- ================================================ AlgorithmIdentifier

/-- The first octet of a length says how many follow. -/
theorem derLength_header (n : Nat) :
    ∃ o octets, derLength n = o :: octets
      ∧ (if o &&& 0x80 ≠ 0 then 2 + (o &&& 0x7f).toNat else 2)
        = 2 + octets.length := by
  rw [derLength]
  split
  next h =>
    refine ⟨_, [], rfl, ?_⟩
    have hbit : n.toUInt8 &&& 0x80 = 0 := by
      have hoctet : n.toUInt8.toNat = n := short_toNat h
      have htop : n &&& 2 ^ 7 = 0 := by
        rw [Nat.and_two_pow, Nat.testBit_lt_two_pow h]
        rfl
      rw [← UInt8.toNat_inj, UInt8.toNat_and, hoctet]
      exact htop
    rw [if_neg (not_not.mpr hbit)]
    rfl
  next h =>
    split
    · exact ⟨0x81, [n.toUInt8], rfl, rfl⟩
    · exact ⟨0x82, [(n / 256).toUInt8, (n % 256).toUInt8], rfl, rfl⟩

/-- The identifier is behind the header and the three octets of the
version. -/
theorem algorithmIdentifier_eq {content octets r : Bytes} {o : UInt8}
    (hcontent : content.length < 128)
    (hheader : (if o &&& 0x80 ≠ 0 then 2 + (o &&& 0x7f).toNat else 2)
      = 2 + octets.length) :
    algorithmIdentifier (0x30 :: o :: (octets ++ [0x02, 0x01, 0x00])
      ++ 0x30 :: content.length.toUInt8 :: (content ++ r))
        = 0x30 :: content.length.toUInt8 :: content := by
  have hstart : (0x30 :: o :: (octets ++ [0x02, 0x01, 0x00]) : Bytes).length
      = 2 + octets.length + 3 := by
    simp
    omega
  rw [algorithmIdentifier]
  have hsecond : (0x30 :: o :: (octets ++ [0x02, 0x01, 0x00])
      ++ 0x30 :: content.length.toUInt8 :: (content ++ r))[1]?.getD 0 = o :=
    rfl
  simp only [hsecond, hheader]
  rw [← hstart, List.getElem?_append_right (by omega),
    Nat.add_sub_cancel_left, List.drop_left]
  simp only [List.getElem?_cons_succ, List.getElem?_cons_zero,
    short_toNat hcontent]
  rw [Nat.add_comm, List.take_succ_cons, List.take_succ_cons,
    List.take_left]

/-- The AlgorithmIdentifier is found in every encoding. -/
theorem algorithmIdentifier_toPkcs8 {algid : Bytes}
    (h : ShortSequence algid) (k : Bytes) :
    algorithmIdentifier (toPkcs8 algid k) = algid := by
  obtain ⟨content, hcontent, rfl⟩ := h
  obtain ⟨o, octets, hlength, hheader⟩ := derLength_header ([0x02, 0x01, 0x00]
    ++ (0x30 :: content.length.toUInt8 :: content)
    ++ der 0x04 (der 0x04 k)).length
  have heq := algorithmIdentifier_eq (r := der 0x04 (der 0x04 k)) hcontent
    hheader
  rw [toPkcs8, der, hlength]
  simpa only [List.cons_append, List.append_assoc, List.nil_append] using heq

-- =========================================================== faithful

theorem SpkiForm.element {algid key text : Bytes}
    (h : SpkiForm algid key text) : ∃ c, Distinguished 0x30 c text := by
  obtain ⟨_, htext, -⟩ := h
  exact ⟨_, htext⟩

theorem Pkcs8Form.element {algid key text : Bytes}
    (h : Pkcs8Form algid key text) : ∃ c, Distinguished 0x30 c text := by
  obtain ⟨_, _, _, htext, -⟩ := h
  exact ⟨_, htext⟩

/-- **The encoders, exactly.** For keys of any lengths the encodings are
faithful if and only if the outermost length, the identifier and the key
and the headers between, is below 65536; the identifier is found whatever
the length. -/
theorem encoders_faithful_iff (algid k k' : Bytes) (h : ShortSequence algid) :
    (Faithful SpkiForm readSpki toSpki algid k k'
        ↔ ∀ x ∈ [k, k'], algid.length + x.length ≤ 65530)
      ∧ (Faithful Pkcs8Form readPkcs8 toPkcs8 algid k k'
        ↔ ∀ x ∈ [k, k'], algid.length + x.length ≤ 65524)
      ∧ algorithmIdentifier (toPkcs8 algid k) = algid := by
  refine ⟨?_, ?_, algorithmIdentifier_toPkcs8 h k⟩
  · rw [faithful_iff k k' (fun hf => hf.read h) SpkiForm.element]
    exact forall₂_congr fun _ _ => spkiForm_iff h
  · rw [faithful_iff k k' (fun hf => hf.read h) Pkcs8Form.element]
    exact forall₂_congr fun _ _ => pkcs8Form_iff h

/-- What OpenSSL puts in front of an ML-DSA-65 key. -/
def mlDsa65Algid : Bytes :=
  [0x30, 0x0b, 0x06, 0x09, 0x60, 0x86, 0x48, 0x01, 0x65, 0x03, 0x04, 0x03,
    0x12]

theorem mlDsa65Algid_shortSequence : ShortSequence mlDsa65Algid :=
  ⟨[0x06, 0x09, 0x60, 0x86, 0x48, 0x01, 0x65, 0x03, 0x04, 0x03, 0x12],
    by decide, rfl⟩

/-- The encoders at the identifier of ML-DSA-65, for two keys of one
byte. -/
theorem encoders_faithful_iff_mlDsa65 :
    Faithful SpkiForm readSpki toSpki mlDsa65Algid [1] [2]
      ∧ Faithful Pkcs8Form readPkcs8 toPkcs8 mlDsa65Algid [1] [2]
      ∧ algorithmIdentifier (toPkcs8 mlDsa65Algid [1]) = mlDsa65Algid := by
  obtain ⟨hspki, hpkcs8, halgid⟩ := encoders_faithful_iff mlDsa65Algid [1] [2]
    mlDsa65Algid_shortSequence
  exact ⟨hspki.mpr (by decide), hpkcs8.mpr (by decide), halgid⟩

-- =========================================================== overlong

/-- 65536 octets more leave no trace in a long length. -/
theorem derLength_add {n : Nat} (h : 256 ≤ n) :
    derLength (n + 65536) = derLength n := by
  have hhigh : ((n + 65536) / 256).toUInt8 = (n / 256).toUInt8 := by
    rw [← UInt8.toNat_inj, Nat.toUInt8_eq, Nat.toUInt8_eq,
      UInt8.toNat_ofNat', UInt8.toNat_ofNat']
    omega
  have hlow : (n + 65536) % 256 = n % 256 := by omega
  rw [derLength, derLength, if_neg (by omega), if_neg (by omega),
    if_neg (by omega), if_neg (by omega), hhigh, hlow]

/-- They end up behind the element. -/
theorem der_append {tag : UInt8} {payload r : Bytes}
    (h : 256 ≤ payload.length) (hr : r.length = 65536) :
    der tag (payload ++ r) = der tag payload ++ r := by
  rw [der, List.length_append, hr, derLength_add h, der]
  simp

theorem toSpki_append (algid : Bytes) {k r : Bytes} (h : 256 ≤ k.length)
    (hr : r.length = 65536) : toSpki algid (k ++ r) = toSpki algid k ++ r := by
  have hbits : 256 ≤ (0x00 :: k : Bytes).length := by
    rw [List.length_cons]
    omega
  have hbody : 256 ≤ (algid ++ der 0x03 (0x00 :: k)).length := by
    rw [List.length_append, der_length_long hbits]
    omega
  rw [toSpki, ← List.cons_append, der_append hbits hr, ← List.append_assoc,
    der_append hbody hr, toSpki]

theorem toPkcs8_append (algid : Bytes) {k r : Bytes}
    (h : 256 ≤ k.length) (hr : r.length = 65536) :
    toPkcs8 algid (k ++ r) = toPkcs8 algid k ++ r := by
  have hinner : 256 ≤ (der 0x04 k).length := by
    rw [der_length_long h]
    omega
  have hbody : 256 ≤ ([0x02, 0x01, 0x00] ++ algid
      ++ der 0x04 (der 0x04 k)).length := by
    rw [List.length_append, der_length_long hinner]
    omega
  rw [toPkcs8, der_append h hr, der_append hinner hr, ← List.append_assoc,
    der_append hbody hr, toPkcs8]

/-- Two keys that differ behind an element are confused: a reader takes the
element, and the rest of the key is not in it. -/
theorem not_faithful_of_append {Form : Bytes → Bytes → Bytes → Prop}
    {read : Bytes → Option (Bytes × Bytes)} {encode : Bytes → Bytes → Bytes}
    {algid k r c : Bytes} (h : Distinguished 0x30 c (encode algid k))
    (happend : encode algid (k ++ r) = encode algid k ++ r) (hr : r ≠ []) :
    ¬Faithful Form read encode algid k (k ++ r) := by
  intro hf
  have hshort := h.firstElement []
  have hlong := h.firstElement r
  rw [List.append_nil] at hshort
  rw [← happend] at hlong
  have hkeys := hf.distinct _ hshort hlong
  exact hr (List.self_eq_append_right.mp hkeys)

/-- With 65536 octets more, an ML-DSA-65 public key and an expanded private
key have the first elements they had. -/
theorem overlong_reads_as_short :
    firstElement (toSpki mlDsa65Algid
        (List.replicate 1952 7 ++ List.replicate 65536 7))
      = some (toSpki mlDsa65Algid (List.replicate 1952 7))
      ∧ ¬Faithful SpkiForm readSpki toSpki mlDsa65Algid
        (List.replicate 1952 7)
        (List.replicate 1952 7 ++ List.replicate 65536 7)
      ∧ ¬Faithful Pkcs8Form readPkcs8 toPkcs8 mlDsa65Algid
        (List.replicate 4032 7)
        (List.replicate 4032 7 ++ List.replicate 65536 7) := by
  have hpublic : (List.replicate 1952 7 : Bytes).length = 1952 :=
    List.length_replicate
  have hprivate : (List.replicate 4032 7 : Bytes).length = 4032 :=
    List.length_replicate
  have hmore : (List.replicate 65536 7 : Bytes) ≠ [] :=
    List.ne_nil_of_length_pos (by rw [List.length_replicate]; decide)
  have halgid : mlDsa65Algid.length = 13 := rfl
  obtain ⟨_, hspki⟩ := ((spkiForm_iff (k := List.replicate 1952 7)
    mlDsa65Algid_shortSequence).mpr (by omega)).element
  obtain ⟨_, hpkcs8⟩ := ((pkcs8Form_iff (k := List.replicate 4032 7)
    mlDsa65Algid_shortSequence).mpr (by omega)).element
  have hspkiAppend := toSpki_append mlDsa65Algid
    (k := List.replicate 1952 7) (r := List.replicate 65536 7) (by omega)
    List.length_replicate
  have hpkcs8Append := toPkcs8_append mlDsa65Algid
    (k := List.replicate 4032 7) (r := List.replicate 65536 7) (by omega)
    List.length_replicate
  refine ⟨?_, not_faithful_of_append hspki hspkiAppend hmore,
    not_faithful_of_append hpkcs8 hpkcs8Append hmore⟩
  rw [hspkiAppend]
  exact hspki.firstElement _

end KxcoPostQuantum.Signature
