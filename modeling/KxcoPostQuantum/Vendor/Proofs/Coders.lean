/-
What the coders put together does what its parts do.

`Coder.Writes c v b` says that `c` writes the value `v` as the bytes `b`
and reads it back from them; `Coder.Canonical c` that bytes which `c` reads
at all are those it writes their value as, so that no value is read from
two byte strings. Both are kept by `splitCoder` (`splitCoder_writes`,
`splitCoder_canonical`) and by `vecCoder` (`vecCoder_writes`,
`vecCoder_canonical`).
-/
import KxcoPostQuantum.Vendor.Utils

namespace KxcoPostQuantum.Vendor

variable {α β : Type}

/-- The value is written as the bytes and read back from them. -/
structure Coder.Writes (c : Coder α) (v : α) (b : Bytes) : Prop where
  encode : c.encode v = .ok b
  length : b.length = c.bytesLen
  decode : c.decode b = .ok v

/-- Where it is read, the value is written as the bytes it is read from. -/
def Coder.CanonicalAt (c : Coder α) (v : α) : Prop :=
  ∀ b, b.length = c.bytesLen → c.decode b = .ok v → c.encode v = .ok b

/-- What is read is written as the bytes it is read from. -/
def Coder.Canonical (c : Coder α) : Prop := ∀ v, c.CanonicalAt v

-- =========================================================== splitCoder

/-- The pieces of a tuple, one for each field. -/
inductive Fields.Writes (label : JsString) :
    {α : Type} → Fields α → α → Bytes → Prop
  | nil : Fields.Writes label Fields.nil () []
  | raw {α : Type} {rest : Fields α} {v : α} {b bs : Bytes} :
      Fields.Writes label rest v bs →
      Fields.Writes label (Fields.raw b.length rest) (b, v) (b ++ bs)
  | coder {α β : Type} {c : Coder β} {rest : Fields α} {x : β} {v : α}
      {b bs : Bytes} : c.Writes x b → Fields.Writes label rest v bs →
      Fields.Writes label (Fields.coder c rest) (x, v) (b ++ bs)

/-- Raw bytes in front of other fields, of their length. -/
theorem Fields.Writes.raw_of {label : JsString} {rest : Fields α} {v : α}
    {b bs : Bytes} {n : Nat} (hb : b.length = n)
    (h : Fields.Writes label rest v bs) :
    Fields.Writes label (Fields.raw n rest) (b, v) (b ++ bs) := by
  subst hb
  exact .raw h

/-- **Fields that are written** have their length together, and are read
back. -/
theorem Fields.Writes.sound {label : JsString} {fields : Fields α} {v : α}
    {b : Bytes} (h : Fields.Writes label fields v b) :
    fields.encode label v = .ok b ∧ b.length = fields.bytesLen
      ∧ fields.decode b = .ok v := by
  induction h with
  | nil => exact ⟨rfl, rfl, rfl⟩
  | @raw _ rest v b bs _ ih =>
      obtain ⟨hencode, hlength, hdecode⟩ := ih
      refine ⟨?_, ?_, ?_⟩
      · unfold Fields.encode
        rw [abytes_ok.mpr rfl, hencode]
        rfl
      · rw [List.length_append, hlength]
        rfl
      · unfold Fields.decode
        rw [List.drop_left, List.take_left, hdecode]
        rfl
  | @coder _ _ c rest x v b bs hc _ ih =>
      obtain ⟨hencode, hlength, hdecode⟩ := ih
      refine ⟨?_, ?_, ?_⟩
      · unfold Fields.encode
        rw [hc.encode]
        show (abytes b c.bytesLen label >>= _) = _
        rw [abytes_ok.mpr hc.length, hencode]
        rfl
      · rw [List.length_append, hlength, hc.length]
        rfl
      · unfold Fields.decode
        rw [← hc.length, List.drop_left, List.take_left, hc.decode, hdecode]
        rfl

/-- Tuples whose pieces are written alike are. -/
theorem Fields.encode_congr {label : JsString} {c : Coder β} {rest : Fields α}
    {x y : β} {v w : α} (hx : c.encode x = c.encode y)
    (hv : rest.encode label v = rest.encode label w) :
    (Fields.coder c rest).encode label (x, v)
      = (Fields.coder c rest).encode label (y, w) := by
  unfold Fields.encode
  rw [hx, hv]

/-- **A tuple is written piece by piece** and read back. -/
theorem splitCoder_writes {label : JsString} {fields : Fields α} {v : α}
    {b : Bytes} (h : Fields.Writes label fields v b) :
    (splitCoder label fields).Writes v b := by
  obtain ⟨hencode, hlength, hdecode⟩ := h.sound
  refine ⟨hencode, hlength, ?_⟩
  unfold splitCoder
  show (abytes b fields.bytesLen label >>= _) = _
  rw [abytes_ok.mpr hlength]
  exact hdecode

/-- The coders of all fields are canonical at the pieces of the tuple. -/
def Fields.CanonicalAt : {α : Type} → Fields α → α → Prop
  | _, .nil, _ => True
  | _, .raw _ rest, (_, v) => rest.CanonicalAt v
  | _, .coder c rest, (x, v) => c.CanonicalAt x ∧ rest.CanonicalAt v

/-- Fields that have one encoding each are written as they were read, by
induction over the fields: the bytes of each are cut off where the next one
begins. -/
theorem Fields.CanonicalAt.encode {label : JsString} {fields : Fields α}
    {b : Bytes} {v : α} (h : fields.CanonicalAt v)
    (hlength : b.length = fields.bytesLen) (hdecode : fields.decode b = .ok v) :
    fields.encode label v = .ok b := by
  induction fields generalizing b with
  | nil =>
      obtain rfl := List.length_eq_zero_iff.mp hlength
      rfl
  | raw length rest ih =>
      unfold Fields.bytesLen at hlength
      obtain ⟨v', hv', rfl⟩ := run_map_ok.mp hdecode
      have hrest := ih h (by rw [List.length_drop]; omega) hv'
      unfold Fields.encode
      rw [abytes_ok.mpr (by rw [List.length_take]; omega), hrest]
      show Except.ok (b.take length ++ b.drop length) = _
      rw [List.take_append_drop]
  | coder c rest ih =>
      unfold Fields.bytesLen at hlength
      obtain ⟨x, hx, hdecode⟩ := run_bind_ok.mp hdecode
      obtain ⟨v', hv', rfl⟩ := run_map_ok.mp hdecode
      have hrest := ih h.2 (by rw [List.length_drop]; omega) hv'
      have htake : (b.take c.bytesLen).length = c.bytesLen := by
        rw [List.length_take]
        omega
      unfold Fields.encode
      rw [h.1 _ htake hx]
      show (abytes (b.take c.bytesLen) c.bytesLen label >>= _) = _
      rw [abytes_ok.mpr htake, hrest]
      show Except.ok (b.take c.bytesLen ++ b.drop c.bytesLen) = _
      rw [List.take_append_drop]

/-- What such fields make up has one encoding, too. -/
theorem splitCoder_canonical {label : JsString} {fields : Fields α} {v : α}
    (h : fields.CanonicalAt v) : (splitCoder label fields).CanonicalAt v := by
  intro b hlength hdecode
  obtain ⟨-, -, hdecode⟩ := run_bind_ok.mp hdecode
  exact h.encode hlength hdecode

-- ============================================================= vecCoder

/-- A list is mapped where each of its elements is, and then the results are
those of the elements, in their places. -/
theorem mapM_run_ok {ε : Type} {f : α → Except ε β} {as : List α} {bs : List β} :
    as.mapM f = .ok bs ↔ bs.length = as.length
      ∧ ∀ i (hi : i < as.length) (hi' : i < bs.length), f as[i] = .ok bs[i] := by
  induction as generalizing bs with
  | nil =>
      rw [List.mapM_nil]
      constructor
      · intro h
        cases h
        exact ⟨rfl, fun i hi => absurd hi (Nat.not_lt_zero i)⟩
      · rintro ⟨h, -⟩
        obtain rfl := List.length_eq_zero_iff.mp h
        rfl
  | cons a as ih =>
      rw [List.mapM_cons, run_bind_ok]
      constructor
      · rintro ⟨b, hb, hrest⟩
        obtain ⟨bs', hbs', rfl⟩ := run_map_ok.mp hrest
        obtain ⟨hlength, hget⟩ := ih.mp hbs'
        refine ⟨congrArg (· + 1) hlength, ?_⟩
        intro i hi hi'
        cases i with
        | zero => exact hb
        | succ i =>
            exact hget i (Nat.lt_of_succ_lt_succ hi) (Nat.lt_of_succ_lt_succ hi')
      · rintro ⟨hlength, hget⟩
        cases bs with
        | nil => cases hlength
        | cons b bs =>
            have hrest := ih.mpr ⟨Nat.succ.inj hlength, fun i hi hi' =>
              hget (i + 1) (Nat.succ_lt_succ hi) (Nat.succ_lt_succ hi')⟩
            exact ⟨b, hget 0 (Nat.succ_pos _) (Nat.succ_pos _),
              run_map_ok.mpr ⟨bs, hrest, rfl⟩⟩

/-- The numbers below a bound are mapped where each of them is. -/
theorem mapM_range_ok {ε : Type} {f : ℕ → Except ε β} {n : ℕ} {bs : List β} :
    (List.range n).mapM f = .ok bs ↔ bs.length = n
      ∧ ∀ i (hi : i < bs.length), f i = .ok bs[i] := by
  rw [mapM_run_ok]
  constructor
  · rintro ⟨hlength, h⟩
    refine ⟨hlength.trans List.length_range, ?_⟩
    intro i hi
    have hget := h i (by omega) hi
    rwa [List.getElem_range] at hget
  · rintro ⟨hlength, h⟩
    refine ⟨hlength.trans List.length_range.symm, ?_⟩
    intro i hi hi'
    rw [List.getElem_range]
    exact h i hi'

/-- They are mapped to what is known of each. -/
theorem mapM_range_map {ε : Type} {f : ℕ → Except ε β} {g : ℕ → β} {n : ℕ}
    (h : ∀ i < n, f i = .ok (g i)) :
    (List.range n).mapM f = .ok ((List.range n).map g) := by
  apply mapM_range_ok.mpr
  refine ⟨by rw [List.length_map, List.length_range], ?_⟩
  intro i hi
  rw [List.length_map, List.length_range] at hi
  rw [List.getElem_map, List.getElem_range]
  exact h i hi

/-- Pieces of one length, found in what they are put together to. -/
theorem take_drop_flatten {m : Nat} {bs : List Bytes}
    (h : ∀ b ∈ bs, b.length = m) {i : Nat} (hi : i < bs.length) :
    (bs.flatten.drop (i * m)).take m = bs[i] := by
  induction bs generalizing i with
  | nil => exact absurd hi (Nat.not_lt_zero i)
  | cons b bs ih =>
      have hb := h b List.mem_cons_self
      cases i with
      | zero =>
          rw [Nat.zero_mul, List.drop_zero, List.flatten_cons, ← hb,
            List.take_left]
          rfl
      | succ i =>
          have hrest := ih (fun b hb => h b (List.mem_cons_of_mem _ hb))
            (Nat.lt_of_succ_lt_succ hi)
          rw [List.flatten_cons, Nat.succ_mul, Nat.add_comm (i * m),
            ← List.drop_drop, ← hb, List.drop_left, hb, hrest]
          rfl

/-- Parts of one length, one after another. -/
theorem length_flatten_of {m : Nat} {bs : List Bytes}
    (h : ∀ b ∈ bs, b.length = m) : bs.flatten.length = bs.length * m := by
  induction bs with
  | nil => rw [List.flatten_nil, List.length_nil, List.length_nil, Nat.zero_mul]
  | cons b bs ih =>
      rw [List.flatten_cons, List.length_append, List.length_cons,
        ih fun b hb => h b (List.mem_cons_of_mem _ hb),
        h b List.mem_cons_self, Nat.succ_mul, Nat.add_comm]

/-- **A vector is written element by element** and read back. All encodings
of an element have one length, so each is found at its own offset. -/
theorem vecCoder_writes {c : Coder α} {n : Nat} {u : List α} {bs : List Bytes}
    (hu : u.length = n) (hbs : bs.length = n)
    (h : ∀ i (hi : i < u.length) (hi' : i < bs.length), c.Writes u[i] bs[i]) :
    (vecCoder c n).Writes u bs.flatten := by
  have hpieces : ∀ b ∈ bs, b.length = c.bytesLen := by
    intro b hb
    obtain ⟨i, hi, rfl⟩ := List.mem_iff_getElem.mp hb
    exact (h i (by omega) hi).length
  have hlength : bs.flatten.length = n * c.bytesLen := by
    rw [length_flatten_of hpieces, hbs]
  refine ⟨?_, hlength, ?_⟩
  · have hencode := mapM_run_ok.mpr
      ⟨hbs.trans hu.symm, fun i hi hi' => (h i hi hi').encode⟩
    unfold vecCoder
    simp only [if_neg (not_not_intro hu), hencode]
    rfl
  · have hdecode : (List.range n).mapM
        (fun i => c.decode ((bs.flatten.drop (i * c.bytesLen)).take c.bytesLen))
          = .ok u := by
      apply mapM_range_ok.mpr
      refine ⟨hu, ?_⟩
      intro i hi
      rw [take_drop_flatten hpieces (by omega : i < bs.length)]
      exact (h i hi (by omega)).decode
    unfold vecCoder
    show (abytes bs.flatten (n * c.bytesLen) [] >>= _) = _
    rw [abytes_ok.mpr hlength]
    exact hdecode

/-- A vector can be written where each of its elements can. -/
theorem vecCoder_writes_of {c : Coder α} {n : Nat} {u : List α}
    (hu : u.length = n) (h : ∀ x ∈ u, ∃ b, c.Writes x b) :
    ∃ b, (vecCoder c n).Writes u b := by
  choose! f hf using h
  refine ⟨(u.map f).flatten, vecCoder_writes hu
    (by rw [List.length_map, hu]) ?_⟩
  intro i hi hi'
  rw [List.getElem_map]
  exact hf _ (List.getElem_mem hi)

/-- What is read of a vector, element by element: each is read from bytes of
an element's length. -/
theorem vecCoder_reads {c : Coder α} {n : Nat} {b : Bytes} {u : List α}
    (h : (vecCoder c n).decode b = .ok u) :
    b.length = n * c.bytesLen ∧ u.length = n
      ∧ ∀ x ∈ u, ∃ b', b'.length = c.bytesLen ∧ c.decode b' = .ok x := by
  obtain ⟨⟨⟩, hlength, hdecode⟩ := run_bind_ok.mp h
  have hlength := abytes_ok.mp hlength
  obtain ⟨hu, hget⟩ := mapM_range_ok.mp hdecode
  refine ⟨hlength, hu, ?_⟩
  intro x hx
  obtain ⟨i, hi, rfl⟩ := List.mem_iff_getElem.mp hx
  refine ⟨_, ?_, hget i hi⟩
  have hle := Nat.mul_le_mul_right c.bytesLen (hu ▸ hi : i < n)
  rw [Nat.succ_mul] at hle
  rw [List.length_take, List.length_drop]
  omega

/-- A vector is read where any bytes of an element's length can be: it is
cut into such pieces, whatever they hold. -/
theorem vecCoder_returns {c : Coder α} {n : Nat} {b : Bytes}
    (hb : b.length = n * c.bytesLen)
    (h : ∀ b, b.length = c.bytesLen → ∃ v, c.decode b = .ok v) :
    ∃ u, (vecCoder c n).decode b = .ok u := by
  have hpiece : ∀ i ∈ List.range n, ∃ v,
      c.decode ((b.drop (i * c.bytesLen)).take c.bytesLen) = .ok v := by
    intro i hi
    have hle := Nat.mul_le_mul_right c.bytesLen (List.mem_range.mp hi)
    rw [Nat.succ_mul] at hle
    apply h
    rw [List.length_take, List.length_drop]
    omega
  have hall : ∃ u, (List.range n).mapM (fun i =>
      c.decode ((b.drop (i * c.bytesLen)).take c.bytesLen)) = .ok u := by
    generalize List.range n = l at hpiece
    induction l with
    | nil => exact ⟨[], rfl⟩
    | cons i l ih =>
        obtain ⟨v, hv⟩ := hpiece i List.mem_cons_self
        obtain ⟨u, hu⟩ := ih fun i hi => hpiece i (List.mem_cons_of_mem _ hi)
        refine ⟨v :: u, ?_⟩
        rw [List.mapM_cons]
        exact run_bind_ok.mpr ⟨v, hv, run_map_ok.mpr ⟨u, hu, rfl⟩⟩
  obtain ⟨u, hu⟩ := hall
  exact ⟨u, run_bind_ok.mpr ⟨(), abytes_ok.mpr hb, hu⟩⟩

/-- Bytes are put together again from pieces of one length. -/
theorem flatten_pieces {m n : Nat} {b : Bytes} (h : b.length = n * m) :
    ((List.range n).map fun i => (b.drop (i * m)).take m).flatten = b := by
  induction n generalizing b with
  | zero =>
      rw [Nat.zero_mul] at h
      obtain rfl := List.length_eq_zero_iff.mp h
      rfl
  | succ n ih =>
      rw [List.range_succ_eq_map, List.map_cons, List.flatten_cons,
        Nat.zero_mul, List.drop_zero, List.map_map]
      rw [Nat.succ_mul] at h
      have hrest := ih (b := b.drop m) (by rw [List.length_drop]; omega)
      have hsame : (List.range n).map
          ((fun i => (b.drop (i * m)).take m) ∘ Nat.succ)
            = (List.range n).map fun i => ((b.drop m).drop (i * m)).take m := by
        apply List.map_congr_left
        intro i _
        show (b.drop ((i + 1) * m)).take m = _
        rw [List.drop_drop, Nat.succ_mul, Nat.add_comm (i * m)]
      rw [hsame, hrest, List.take_append_drop]

/-- **A vector has one encoding** if its elements have: the pieces that were
read are written again as they were, and put together are the bytes. -/
theorem vecCoder_canonical {c : Coder α} (hc : c.Canonical) (n : Nat) :
    (vecCoder c n).Canonical := by
  intro v b hlength hdecode
  obtain ⟨-, -, hdecode⟩ := run_bind_ok.mp hdecode
  obtain ⟨hv, hget⟩ := mapM_range_ok.mp hdecode
  have hpiece : ∀ i, i < n → ((b.drop (i * c.bytesLen)).take c.bytesLen).length
      = c.bytesLen := by
    intro i hi
    have hle := Nat.mul_le_mul_right c.bytesLen hi
    rw [Nat.succ_mul] at hle
    have hb : b.length = n * c.bytesLen := hlength
    rw [List.length_take, List.length_drop]
    omega
  have hencode : v.mapM c.encode = .ok ((List.range n).map fun i =>
      (b.drop (i * c.bytesLen)).take c.bytesLen) := by
    apply mapM_run_ok.mpr
    refine ⟨by rw [List.length_map, List.length_range, hv], ?_⟩
    intro i hi hi'
    rw [List.getElem_map, List.getElem_range]
    exact hc _ _ (hpiece i (by omega)) (hget i hi)
  unfold vecCoder
  simp only [if_neg (not_not_intro hv), hencode]
  show Except.ok (List.flatten _) = _
  rw [flatten_pieces hlength]

end KxcoPostQuantum.Vendor
