/-
What `importSeedPkcs8` accepts, and when it is sound.

`Nested` is the format: elements inside elements, each as long as it says
(`Lib.Ber`), nothing said about a reader. `Reading` is what the reader
sees: six headers, each where the one before it points. The reader
compares none of the lengths it reads with another or with the buffer,
save the seed's with the set's, so it accepts every `Reading`; the
readings that are `Nested` are those that pass the four comparisons of
`Reading.Consistent`.

# How the proof goes

A header whose element fits in the buffer is an element
(`Header.element`), and where an element stands a header reads its length
(`Header.of_element`). The two directions of `importSeedPkcs8_sound_iff`
apply these to the six headers in the order they are read.
-/
import KxcoPostQuantum.Lib.Ber
import KxcoPostQuantum.Seed.Pkcs8

namespace KxcoPostQuantum.Seed

open Lib.Ber

-- ========================================================== statement

/-- `b` is a seed-form private key of `alg`: every element is where its
parent says and as long as it says itself. -/
def Nested (b : Bytes) (alg : JsString) (seed : Bytes) : Prop :=
  ∃ p version parameters attributes V A O K S,
    (alg, p) ∈ PARAMS ∧ seed.length = p.seedBytes
      ∧ Element DER_SEQUENCE (V ++ A ++ K ++ attributes) b
      ∧ Element DER_INTEGER version V
      ∧ Element DER_SEQUENCE (O ++ parameters) A
      ∧ Element DER_OID p.oid O
      ∧ Element DER_OCTET_STRING S K
      ∧ Element DER_SEED_CHOICE seed S

/-- What is returned for `b` is what `b` encodes. -/
def Sound (rt : Runtime) (b : Bytes) : Prop :=
  ∀ alg seed, importSeedPkcs8 rt (.uint8Array b) = .ok (alg, seed) →
    Nested b alg seed

/-- Where a header says the content of its element is. -/
structure Span where
  start : Nat
  length : Nat

/-- Where the content ends. -/
def Span.stop (s : Span) : Nat := s.start + s.length

/-- At `i` there is a tag, then a length. -/
def Header (b : Bytes) (i : Nat) (tag : UInt8) (s : Span) : Prop :=
  b[i]? = some tag ∧ readLength b (i + 1) = .ok (s.length, s.start)

/-- The headers `importSeedPkcs8` reads. -/
structure Reading (b : Bytes) where
  alg : JsString
  params : Params
  listed : (alg, params) ∈ PARAMS
  outer : Span
  version : Span
  algId : Span
  oid : Span
  key : Span
  seed : Span
  outer_header : Header b 0 DER_SEQUENCE outer
  version_header : Header b outer.start DER_INTEGER version
  algId_header : Header b version.stop DER_SEQUENCE algId
  oid_header : Header b algId.start DER_OID oid
  oid_eq : subarray b oid.start oid.stop = params.oid
  key_header : Header b algId.stop DER_OCTET_STRING key
  seed_header : Header b key.start DER_SEED_CHOICE seed
  seed_length : seed.length = params.seedBytes

/-- The comparisons the reader does not make. -/
structure Reading.Consistent {b : Bytes} (r : Reading b) : Prop where
  outer : r.outer.stop = b.length
  oid : r.oid.stop ≤ r.algId.stop
  key : r.key.stop = r.seed.stop
  seed : r.seed.stop ≤ b.length

-- ========================================================== subarrays

section

variable {b : Bytes} {i j k : Nat}

theorem subarray_append (hij : i ≤ j) (hjk : j ≤ k) :
    subarray b i j ++ subarray b j k = subarray b i k := by
  have hj : b.drop j = (b.drop i).drop (j - i) := by
    rw [List.drop_drop, Nat.add_sub_cancel' hij]
  have hk : k - i = (j - i) + (k - j) := by omega
  rw [subarray, subarray, subarray, hj, hk, List.take_add]

theorem subarray_all : subarray b 0 b.length = b := by
  rw [subarray, List.drop_zero, Nat.sub_zero, List.take_length]

theorem subarray_length (hk : k ≤ b.length) :
    (subarray b i k).length = k - i := by
  rw [subarray, List.length_take, List.length_drop]
  omega

theorem subarray_single {o : UInt8} (h : b[i]? = some o) :
    subarray b i (i + 1) = [o] := by
  obtain ⟨hi, ho⟩ := List.getElem?_eq_some_iff.mp h
  rw [subarray, Nat.add_sub_cancel_left, List.drop_eq_getElem_cons hi, ho]
  rfl

theorem subarray_cons {o : UInt8} (h : b[i]? = some o) (hk : i + 1 ≤ k) :
    subarray b i k = o :: subarray b (i + 1) k := by
  rw [← subarray_append (Nat.le_succ i) hk, subarray_single h]
  rfl

/-- The part between two others. -/
theorem subarray_middle (x y z : Bytes) :
    subarray (x ++ y ++ z) x.length (x.length + y.length) = y := by
  rw [subarray, List.append_assoc, List.drop_left, Nat.add_sub_cancel_left,
    List.take_left]

theorem getElem?_middle (x z : Bytes) (o : UInt8) :
    (x ++ o :: z)[x.length]? = some o := by
  rw [List.getElem?_append_right (Nat.le_refl _), Nat.sub_self]
  rfl

end

-- ====================================================== length octets

section

variable {b : Bytes} {i length start : Nat}

/-- Octets that are there are read as a number, to the base 256. Where the
buffer ends before them the loop goes on with what is not there as zeros. -/
theorem lengthLoop_eq {count : Nat} (h : i + count ≤ b.length) :
    lengthLoop b count i length
      = (subarray b i (i + count)).foldl (fun n o => n * 256 + o.toNat)
        length := by
  induction count generalizing i length with
  | zero =>
      rw [subarray, Nat.add_zero, Nat.sub_self]
      rfl
  | succ n ih =>
      have hi : b[i]? = some b[i] := List.getElem?_eq_getElem (by omega)
      have hshift : length <<< 8 ||| b[i].toNat
          = length * 256 + b[i].toNat := by
        rw [← Nat.shiftLeft_add_eq_or_of_lt b[i].toNat_lt,
          Nat.shiftLeft_eq]
      rw [lengthLoop, ih (by omega), subarray_cons hi (by omega),
        List.foldl_cons, hi, Option.elim_some, hshift]
      congr 2
      omega

/-- The count of octets in the first of a long length. -/
theorem count_toNat (first : UInt8) :
    (first &&& 0x7f).toNat = first.toNat % 128 := by
  rw [UInt8.toNat_and]
  exact Nat.and_two_pow_sub_one_eq_mod first.toNat 7

/-- A length that is read: one octet below 128, or an octet that says how
many follow, at most three. Neither zeros in front nor a length that one
octet could hold are refused. -/
theorem readLength_ok :
    readLength b i = .ok (length, start)
      ↔ ∃ first, b[i]? = some first
        ∧ (first.toNat < 128 ∧ length = first.toNat ∧ start = i + 1
          ∨ ∃ count, first.toNat = 128 + count ∧ count ≠ 0 ∧ count ≤ 3
            ∧ length = lengthLoop b count (i + 1) 0
            ∧ start = i + 1 + count) := by
  unfold readLength
  cases hfirst : b[i]? with
  | none => exact iff_of_false nofun nofun
  | some first =>
      have hlt : first < 0x80 ↔ first.toNat < 128 := UInt8.lt_iff_toNat_lt
      have hbound := first.toNat_lt
      simp only [Option.some_inj, exists_eq_left', hlt, count_toNat]
      split
      next hshort =>
        constructor
        · intro h
          cases h
          exact Or.inl ⟨hshort, rfl, rfl⟩
        · intro hx
          rcases hx with ⟨-, rfl, rfl⟩ | ⟨count, hlong, -⟩
          · rfl
          · omega
      next hlong =>
        split
        next hcount =>
          refine iff_of_false nofun ?_
          intro hx
          rcases hx with ⟨hshort, -⟩ | ⟨count, hvalue, hne, hle, -⟩
          · exact hlong hshort
          · omega
        next hcount =>
          have hvalue : first.toNat = 128 + first.toNat % 128 := by omega
          constructor
          · intro h
            cases h
            exact Or.inr ⟨first.toNat % 128, hvalue, by omega, by omega,
              rfl, rfl⟩
          · intro hx
            rcases hx with ⟨hshort, -⟩ | ⟨count, hcount', -, -, rfl, rfl⟩
            · exact absurd hshort hlong
            · rw [show first.toNat % 128 = count by omega]

theorem readLength_lt (h : readLength b i = .ok (length, start)) :
    i < start := by
  obtain ⟨_, -, ⟨-, -, rfl⟩ | ⟨_, -, -, -, -, rfl⟩⟩ := readLength_ok.mp h
  · omega
  · omega

/-- A length inside the buffer is its octets. -/
theorem readLength_octets (h : readLength b i = .ok (length, start))
    (hstart : start ≤ b.length) :
    LengthOctets (subarray b i start) length := by
  obtain ⟨first, hfirst, ⟨hshort, rfl, rfl⟩ | ⟨count, hlong, hne, hle, rfl,
    rfl⟩⟩ := readLength_ok.mp h
  · rw [subarray_single hfirst]
    have hoctets := LengthOctets.short hshort
    rwa [Nat.toUInt8_eq, UInt8.ofNat_toNat] at hoctets
  · have hcount : (subarray b (i + 1) (i + 1 + count)).length = count := by
      rw [subarray_length hstart, Nat.add_sub_cancel_left]
    have hoctets := @LengthOctets.long (subarray b (i + 1) (i + 1 + count))
      (List.ne_nil_of_length_pos (by omega)) (by omega)
    rwa [hcount, ← hlong, Nat.toUInt8_eq, UInt8.ofNat_toNat, octetsValue,
      ← lengthLoop_eq hstart, ← subarray_cons hfirst (by omega)] at hoctets

/-- Where the octets of a length stand, that length is read, and the reading
goes on behind them. -/
theorem readLength_of_octets {x l y : Bytes} {n : Nat}
    (hl : LengthOctets l n)
    (h : readLength (x ++ l ++ y) x.length = .ok (length, start)) :
    length = n ∧ start = x.length + l.length := by
  obtain ⟨first, hfirst, hcases⟩ := readLength_ok.mp h
  cases hl with
  | short hn =>
      rw [List.append_assoc, List.singleton_append, getElem?_middle,
        Option.some_inj] at hfirst
      subst hfirst
      rw [short_toNat hn] at hcases
      obtain ⟨-, rfl, rfl⟩ | ⟨count, hlong, -⟩ := hcases
      · exact ⟨rfl, rfl⟩
      · omega
  | @long octets _ hk =>
      rw [List.append_assoc, List.cons_append, getElem?_middle,
        Option.some_inj] at hfirst
      subst hfirst
      rw [long_toNat hk] at hcases
      obtain ⟨hshort, -⟩ | ⟨count, hlong, -, -, rfl, rfl⟩ := hcases
      · omega
      · obtain rfl : octets.length = count := by omega
        have hsplit : x ++ (128 + octets.length).toUInt8 :: octets ++ y
            = (x ++ [(128 + octets.length).toUInt8]) ++ octets ++ y := by
          simp
        have hmiddle := subarray_middle
          (x ++ [(128 + octets.length).toUInt8]) octets y
        rw [List.length_append, List.length_singleton] at hmiddle
        rw [hsplit, lengthLoop_eq (by simp; omega), hmiddle, octetsValue,
          List.length_cons]
        exact ⟨rfl, by omega⟩

end

-- ============================================================ headers

section

variable {b : Bytes} {i : Nat} {tag : UInt8} {s : Span}

theorem Header.lt_length (h : Header b i tag s) : i < b.length :=
  (List.getElem?_eq_some_iff.mp h.1).1

theorem Header.lt_start (h : Header b i tag s) : i < s.start :=
  Nat.lt_of_succ_lt (readLength_lt h.2)

/-- A header whose content is inside the buffer is an element's. -/
theorem Header.element (h : Header b i tag s) (hstop : s.stop ≤ b.length) :
    Element tag (subarray b s.start s.stop) (subarray b i s.stop) := by
  have hlt := readLength_lt h.2
  have hle : s.start ≤ s.stop := Nat.le_add_right _ _
  refine ⟨subarray b (i + 1) s.start, ?_, ?_⟩
  · rw [subarray_length hstop, Span.stop, Nat.add_sub_cancel_left]
    exact readLength_octets h.2 (hle.trans hstop)
  · rw [subarray_append hlt.le hle]
    exact subarray_cons h.1 (hlt.le.trans hle)

/-- Where an element stands, its header is read, with the length of what the
element holds. -/
theorem Header.of_element {x e y c : Bytes} {tag' : UInt8}
    (h : Header b i tag' s) (he : Element tag c e) (hb : b = x ++ e ++ y)
    (hi : i = x.length) :
    ∃ d, e = d ++ c ∧ s.start = (x ++ d).length ∧ s.length = c.length := by
  obtain ⟨octets, hoctets, rfl⟩ := he
  subst hi
  have hsplit : b = (x ++ [tag]) ++ octets ++ (c ++ y) := by
    simp [hb]
  have hread := h.2
  rw [hsplit, show x.length + 1 = (x ++ [tag]).length by simp] at hread
  obtain ⟨hlength, hstart⟩ := readLength_of_octets hoctets hread
  refine ⟨tag :: octets, rfl, ?_, hlength⟩
  rw [hstart]
  simp
  omega

end

-- ============================================================= reading

theorem expectTag_ok {buf : Bytes} {i j : Nat} {tag : UInt8}
    {what : JsString} :
    expectTag buf i tag what = .ok j ↔ buf[i]? = some tag ∧ j = i + 1 := by
  rw [expectTag]
  split
  next h => simp [h, eq_comm]
  next h => exact iff_of_false nofun fun h' => h h'.1

/-- A tag and a length are a header. -/
theorem header_ok {α : Type} {buf : Bytes} {i : Nat} {tag : UInt8}
    {what : JsString} {f : Nat × Nat → Except JsError α} {a : α} :
    (do let j ← expectTag buf i tag what; let l ← readLength buf j; f l)
        = .ok a
      ↔ ∃ s : Span, Header buf i tag s ∧ f (s.length, s.start) = .ok a := by
  simp only [bind_eq_ok, expectTag_ok]
  constructor
  · intro hx
    obtain ⟨_, ⟨htag, rfl⟩, ⟨length, start⟩, hlength, h⟩ := hx
    exact ⟨⟨start, length⟩, ⟨htag, hlength⟩, h⟩
  · intro hx
    obtain ⟨s, ⟨htag, hlength⟩, h⟩ := hx
    exact ⟨_, ⟨htag, rfl⟩, _, hlength, h⟩

/-- The row of an OID. -/
theorem find_oid {oid : Bytes} {row : JsString × Params} :
    PARAMS.find? (fun row => bytesEqual row.2.oid oid) = some row
      ↔ row ∈ PARAMS ∧ row.2.oid = oid := by
  rw [find_iff_of_unique, bytesEqual_iff]
  intro a ha b hb hoid hoid'
  exact params_unique a ha b hb
    ((bytesEqual_iff.mp hoid).trans (bytesEqual_iff.mp hoid').symm)

theorem readPrivateKey_ok {buf : Bytes} {alg : JsString} {p : Params}
    {i : Nat} {r : JsString × Bytes} :
    readPrivateKey buf alg p i = .ok r
      ↔ ∃ key seed : Span, Header buf i DER_OCTET_STRING key
        ∧ Header buf key.start DER_SEED_CHOICE seed
        ∧ seed.length = p.seedBytes
        ∧ r = (alg, subarray buf seed.start seed.stop) := by
  unfold readPrivateKey
  rw [header_ok]
  refine exists_congr fun key => ?_
  rw [exists_and_left]
  refine and_congr_right fun _ => ?_
  dsimp only
  split
  next hinner =>
    refine iff_of_false nofun fun ⟨s, hs, _⟩ => ?_
    cases hinner.symm.trans hs.1
  next inner hinner =>
    split
    next hexpanded =>
      refine iff_of_false nofun fun ⟨s, hs, _⟩ => ?_
      cases hexpanded ▸ hinner.symm.trans hs.1
    split
    next hother =>
      refine iff_of_false nofun fun ⟨s, hs, _⟩ => ?_
      exact hother (Option.some.inj (hinner.symm.trans hs.1))
    next hchoice =>
      rw [not_not.mp hchoice] at hinner
      rw [bind_eq_ok, Prod.exists]
      constructor
      · intro hx
        obtain ⟨length, start, hread, h⟩ := hx
        split at h
        next => cases h
        next hlength =>
          exact ⟨⟨start, length⟩, ⟨hinner, hread⟩, not_not.mp hlength,
            (pure_eq_ok.mp h).symm⟩
      · intro hx
        obtain ⟨s, ⟨-, hread⟩, hlength, rfl⟩ := hx
        refine ⟨s.length, s.start, hread, ?_⟩
        rw [if_neg (not_not.mpr hlength)]
        rfl

/-- What `importSeedPkcs8` accepts: whatever has a reading. It returns the
row's name and the bytes from behind the last header, as far as there are
any. -/
theorem importSeedPkcs8_ok {rt : Runtime} {b : Bytes} {alg : JsString}
    {seed : Bytes} :
    importSeedPkcs8 rt (.uint8Array b) = .ok (alg, seed)
      ↔ ∃ r : Reading b, alg = r.alg
        ∧ seed = subarray b r.seed.start r.seed.stop := by
  have has : asBytes rt (.uint8Array b) (js "pkcs8") = .ok b := rfl
  unfold importSeedPkcs8
  rw [has, bind_eq_ok]
  simp only [Except.ok.injEq, exists_eq_left', header_ok]
  constructor
  · intro hx
    obtain ⟨outer, houter, version, hversion, algId, halgId, oid, hoid, h⟩
      := hx
    split at h
    next => cases h
    next alg' p hfind =>
      obtain ⟨key, s, hkey, hs, hlength, hr⟩ := readPrivateKey_ok.mp h
      obtain ⟨hlisted, hoidEq⟩ := find_oid.mp hfind
      cases hr
      exact ⟨⟨alg, p, hlisted, outer, version, algId, oid, key, s, houter,
        hversion, halgId, hoid, hoidEq.symm, hkey, hs, hlength⟩, rfl, rfl⟩
  · intro hx
    obtain ⟨r, rfl, rfl⟩ := hx
    refine ⟨r.outer, r.outer_header, r.version, r.version_header, r.algId,
      r.algId_header, r.oid, r.oid_header, ?_⟩
    have hfind : PARAMS.find? (fun row => bytesEqual row.2.oid
        (subarray b r.oid.start (r.oid.start + r.oid.length)))
        = some (r.alg, r.params) := find_oid.mpr ⟨r.listed, r.oid_eq.symm⟩
    rw [hfind]
    exact readPrivateKey_ok.mpr ⟨r.key, r.seed, r.key_header, r.seed_header,
      r.seed_length, rfl⟩

-- =========================================================== soundness

section

variable {b : Bytes} (r : Reading b)

/-- A reading that passes the comparisons is a key: with them each element
ends where what it is in ends, or before, and the positions cut the buffer
into the elements. -/
theorem Reading.Consistent.nested {r : Reading b} (h : r.Consistent) :
    Nested b r.alg (subarray b r.seed.start r.seed.stop) := by
  -- the positions, in the order they are read
  have hversion := r.version_header.lt_start
  have halgId := r.algId_header.lt_start
  have hoid := r.oid_header.lt_start
  have hkey := r.key_header.lt_start
  have hversionStop := r.algId_header.lt_length
  have halgIdStop := r.key_header.lt_length
  have hversionLe : r.version.start ≤ r.version.stop := Nat.le_add_right ..
  have hoidLe : r.oid.start ≤ r.oid.stop := Nat.le_add_right ..
  have hkeyLe : r.key.start ≤ r.key.stop := Nat.le_add_right ..
  have hkeyStop : r.key.stop ≤ b.length := h.key ▸ h.seed
  have hoidStop := h.oid
  have houter := r.outer_header.element h.outer.le
  rw [h.outer, subarray_all] at houter
  have hbody : subarray b r.outer.start r.version.stop
      ++ subarray b r.version.stop r.algId.stop
      ++ subarray b r.algId.stop r.key.stop
      ++ subarray b r.key.stop b.length
        = subarray b r.outer.start b.length := by
    rw [subarray_append, subarray_append, subarray_append] <;> omega
  have hparameters : subarray b r.algId.start r.oid.stop
      ++ subarray b r.oid.stop r.algId.stop
        = subarray b r.algId.start r.algId.stop :=
    subarray_append (by omega) hoidStop
  rw [← hbody] at houter
  have halgIdElement := r.algId_header.element halgIdStop.le
  rw [← hparameters] at halgIdElement
  have hoidElement := r.oid_header.element (hoidStop.trans halgIdStop.le)
  rw [r.oid_eq] at hoidElement
  have hkeyElement := r.key_header.element hkeyStop
  rw [h.key] at hkeyElement
  have hseedLength : (subarray b r.seed.start r.seed.stop).length
      = r.params.seedBytes := by
    rw [subarray_length h.seed, Span.stop, Nat.add_sub_cancel_left,
      r.seed_length]
  rw [h.key] at houter
  exact ⟨r.params, _, _, _, _, _, _, _, _, r.listed, hseedLength, houter,
    r.version_header.element hversionStop.le, halgIdElement, hoidElement,
    hkeyElement, r.seed_header.element h.seed⟩

/-- Where the elements of a key stand, up to the content `S` of its
privateKey. -/
theorem Reading.frame {version oid parameters attributes V A O K S : Bytes}
    (houter : Element DER_SEQUENCE (V ++ A ++ K ++ attributes) b)
    (hversion : Element DER_INTEGER version V)
    (halgId : Element DER_SEQUENCE (O ++ parameters) A)
    (hoid : Element DER_OID oid O) (hkey : Element DER_OCTET_STRING S K) :
    ∃ x, b = x ++ S ++ attributes ∧ r.key.start = x.length
      ∧ r.key.length = S.length ∧ r.outer.stop = b.length
      ∧ r.oid.stop ≤ r.algId.stop := by
  -- each header stands behind the parts before it
  obtain ⟨d, hb, hstart, hlength⟩ := r.outer_header.of_element houter
    (show b = [] ++ b ++ [] by simp) rfl
  obtain ⟨dV, rfl, hstartV, hlengthV⟩ := r.version_header.of_element hversion
    (show b = d ++ V ++ (A ++ K ++ attributes) by simp [hb]) hstart
  obtain ⟨dA, rfl, hstartA, hlengthA⟩ := r.algId_header.of_element halgId
    (show b = (d ++ (dV ++ version)) ++ A ++ (K ++ attributes) by simp [hb])
    (by simp [Span.stop, hstartV, hlengthV]; omega)
  obtain ⟨dO, rfl, hstartO, hlengthO⟩ := r.oid_header.of_element hoid
    (show b = (d ++ (dV ++ version) ++ dA) ++ O
      ++ (parameters ++ K ++ attributes) by simp [hb]) hstartA
  obtain ⟨dK, rfl, hstartK, hlengthK⟩ := r.key_header.of_element hkey
    (show b = (d ++ (dV ++ version) ++ (dA ++ (dO ++ oid ++ parameters)))
      ++ K ++ attributes by simp [hb])
    (by simp [Span.stop, hstartA, hlengthA]; omega)
  have hlengthB := congrArg List.length hb
  simp only [List.length_append, List.length_nil] at *
  refine ⟨d ++ (dV ++ version) ++ (dA ++ (dO ++ oid ++ parameters)) ++ dK,
    by simp [hb], by simpa only [List.length_append] using hstartK,
    hlengthK, ?_, ?_⟩
  · simp only [Span.stop]
    omega
  · simp only [Span.stop]
    omega

/-- The reading of a key passes the comparisons, for the elements of a key
end where what they are in does, or before it. -/
theorem Reading.consistent {alg : JsString} {seed : Bytes}
    (h : Nested b alg seed) : r.Consistent := by
  obtain ⟨p, version, parameters, attributes, V, A, O, K, S, -, -, houter,
    hversion, halgId, hoid, hkey, hseed⟩ := h
  obtain ⟨x, hb, hstart, hlength, hstop, hoidStop⟩ := r.frame houter
    hversion halgId hoid hkey
  obtain ⟨d, rfl, hseedStart, hseedLength⟩ := r.seed_header.of_element hseed
    hb hstart
  have hlengthB := congrArg List.length hb
  simp only [List.length_append] at *
  refine ⟨hstop, hoidStop, ?_, ?_⟩
  · simp only [Span.stop]
    omega
  · simp only [Span.stop]
    omega

end

/-- **Soundness, exactly.** On every byte string, what `importSeedPkcs8`
returns is what the bytes encode if and only if the bytes are rejected or
their declared lengths agree. -/
theorem importSeedPkcs8_sound_iff (rt : Runtime) (b : Bytes) :
    Sound rt b ↔ ∀ r : Reading b, r.Consistent := by
  constructor
  · intro h r
    exact r.consistent (h _ _ (importSeedPkcs8_ok.mpr ⟨r, rfl, rfl⟩))
  · intro h alg seed hok
    obtain ⟨r, rfl, rfl⟩ := importSeedPkcs8_ok.mp hok
    exact (h r).nested

/-- No proper prefix of a key is a key. -/
theorem Nested.eq_of_initial {b c : Bytes} {alg alg' : JsString}
    {seed seed' : Bytes} (hb : Nested b alg seed) (hc : Nested c alg' seed')
    (hbc : b <+: c) : b = c := by
  obtain ⟨_, _, _, _, _, _, _, _, _, -, -, hb, -⟩ := hb
  obtain ⟨_, _, _, _, _, _, _, _, _, -, -, hc, -⟩ := hc
  exact hb.eq_of_initial hc hbc

/-- Where the import is sound, a truncated key is rejected. -/
theorem Sound.truncation {rt : Runtime} {b c : Bytes} (h : Sound rt b)
    {alg : JsString} {seed : Bytes} (hc : Nested c alg seed)
    (hbc : b <+: c) (hne : b ≠ c) :
    ∃ e, importSeedPkcs8 rt (.uint8Array b) = .error e := by
  cases hr : importSeedPkcs8 rt (.uint8Array b) with
  | error e => exact ⟨e, rfl⟩
  | ok r => exact absurd ((h r.1 r.2 hr).eq_of_initial hc hbc) hne

/-- The export of a seed of sevens is a key. -/
theorem sevens_nested : Nested
    ([0x30, 0x34, 0x02, 0x01, 0x00, 0x30, 0x0b, 0x06, 0x09, 0x60, 0x86, 0x48,
      0x01, 0x65, 0x03, 0x04, 0x03, 0x12, 0x04, 0x22, 0x80, 0x20]
      ++ List.replicate 31 7 ++ [7])
    (js "ML-DSA-65") (List.replicate 32 7) := by
  refine ⟨_, [0], [], [], _, _, _, _, _, List.mem_cons_self, rfl, ?_,
    .short (by decide), .short (by decide), .short (by decide),
    .short (by decide), .short (by decide)⟩
  exact Element.short (by decide)

/-- An export without its last byte is read as a seed of 31 bytes. The
header in front of the seed still says 32, and nothing compares that with
the end of the buffer. -/
theorem truncated_accepted :
    ∃ b, exportSeedPkcs8 plainRuntime (.string (js "ML-DSA-65"))
        (.uint8Array (List.replicate 32 7)) = .ok (b ++ [7])
      ∧ importSeedPkcs8 plainRuntime (.uint8Array b)
        = .ok (js "ML-DSA-65", List.replicate 31 7)
      ∧ ¬Sound plainRuntime b := by
  have himport : importSeedPkcs8 plainRuntime (.uint8Array
      ([0x30, 0x34, 0x02, 0x01, 0x00, 0x30, 0x0b, 0x06, 0x09, 0x60, 0x86,
        0x48, 0x01, 0x65, 0x03, 0x04, 0x03, 0x12, 0x04, 0x22, 0x80, 0x20]
        ++ List.replicate 31 7)) = .ok (js "ML-DSA-65", List.replicate 31 7) :=
    by decide
  refine ⟨_, by decide, himport, fun h => ?_⟩
  -- where the import is sound, what a key begins with is no key
  obtain ⟨e, he⟩ := h.truncation sevens_nested (List.prefix_append _ _)
    (by decide)
  rw [himport] at he
  cases he

end KxcoPostQuantum.Seed
