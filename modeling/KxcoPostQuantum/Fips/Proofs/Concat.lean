/-
What `concat` joins.

It reads the length of each argument, makes an array of their sum and
copies each argument at the sum of the lengths in front of it. Arguments
with content, which are as long as what is copied of them, are joined to
their concatenation (`concat_of_contents`). `Joinable` is when `concat`
returns at all (`concat_ok_iff`): a length that is not that of what is
copied makes the array too small, or leaves a part of it zero.

# Arguments of any kind

JavaScript does not check that an argument is bytes. One without a length
makes the sum no number, and the array empty; one with a length may still
refuse to be copied, or be copied with another length, and either may be
repaired by the arguments around it or not. What the generator does with
such arguments it does by `concat` alone, so its failures are those of
`Joinable`.
-/
import KxcoPostQuantum.Fips.Drbg

namespace KxcoPostQuantum.Fips

-- ========================================================= arguments

namespace ByteArg

/-- The bytes an argument is copied as, if it can be copied. -/
def copied? : ByteArg → Option Bytes
  | bytes b => some b
  | arrayLike es => es.mapM id
  | lengthless => some []
  | null => none
  | sized _ c => c

/-- The bytes an argument is copied as, if they are as many as its length
says. -/
def content? : ByteArg → Option Bytes
  | bytes b => some b
  | arrayLike es => es.mapM id
  | sized n (some b) => if n = .finite b.length then some b else none
  | _ => none

variable {a : ByteArg} {b : Bytes}

@[simp] theorem content?_bytes (b : Bytes) : (bytes b).content? = some b := rfl

private theorem mapM_id_length {es : List (Option UInt8)} {b : Bytes}
    (hb : es.mapM id = some b) : b.length = es.length := by
  induction es generalizing b with
  | nil =>
      cases hb
      rfl
  | cons e es ih =>
      simp only [List.mapM_cons, id_eq, Option.bind_eq_bind,
        Option.bind_eq_some_iff, Option.pure_def, Option.some.injEq] at hb
      obtain ⟨x, -, bs, hbs, rfl⟩ := hb
      rw [List.length_cons, List.length_cons, ih hbs]

/-- An argument with content has its length: where the bytes that are copied
are known, `length` reads as their number and does not throw. -/
theorem length_of_content (hb : a.content? = some b) :
    a.length = .ok (.finite b.length) := by
  cases a with
  | bytes c =>
      cases hb
      rfl
  | arrayLike es =>
      show Except.ok (JsNumber.finite (es.length : ℚ)) = _
      rw [mapM_id_length hb]
  | lengthless => cases hb
  | null => cases hb
  | sized n c =>
      cases c with
      | none => cases hb
      | some c =>
          simp only [content?] at hb
          split at hb
          next hn =>
            cases hb
            exact congrArg Except.ok hn
          next => cases hb

/-- Its content is what is copied. -/
theorem copied_of_content (hb : a.content? = some b) : a.copied? = some b := by
  cases a with
  | sized n c =>
      cases c with
      | none => cases hb
      | some c =>
          simp only [content?] at hb
          split at hb
          next => exact hb
          next => cases hb
  | lengthless => cases hb
  | null => cases hb
  | _ => exact hb

theorem lengthBelow_of_content (hb : a.content? = some b) (n : Nat) :
    a.lengthBelow n = .ok (decide (b.length < n)) := by
  simp only [lengthBelow, length_of_content hb, bind, Except.bind, pure,
    Except.pure, JsNumber.lt_natCast]

/-- Copied at this offset, it has room in an array of that size. -/
def Fits (a : ByteArg) (o : JsNumber) (size : Nat) : Prop :=
  ∃ i ∈ o.index?, ∃ b ∈ a.copied?, i + b.length ≤ size

end ByteArg

-- =========================================================== copying

section

variable {a : ByteArg} {b out out' : Bytes} {o : JsNumber}

/-- **One copy** overwrites its range, if that is inside the array. An
offset that is no index and an argument that cannot be copied throw, and so
does a range that ends behind the array. -/
theorem setAt_ok : setAt out a o = .ok out' ↔ ∃ i ∈ o.index?,
    ∃ b ∈ a.copied?, i + b.length ≤ out.length
      ∧ out' = out.take i ++ b ++ out.drop (i + b.length) := by
  unfold setAt
  cases ho : o.index? with
  | none => simp
  | some i =>
      have hput : ∀ b : Bytes, (if i + b.length ≤ out.length then
          Except.ok (out.take i ++ b ++ out.drop (i + b.length))
            else .error (rangeError (js "offset is out of bounds"))) = .ok out'
          ↔ i + b.length ≤ out.length
            ∧ out' = out.take i ++ b ++ out.drop (i + b.length) := by
        intro b
        split
        next hfits => simp [hfits, eq_comm]
        next hfits => simp [hfits]
      cases a with
      | bytes b => simpa [ByteArg.copied?] using hput b
      | arrayLike es =>
          simp only [ByteArg.copied?]
          cases hes : es.mapM id with
          | none => split <;> simp
          | some b =>
              have hlength := ByteArg.mapM_id_length hes
              rw [← hlength]
              split
              next hfits => simpa using hput b
              next hfits => simp [hfits]
      | lengthless => simpa [ByteArg.copied?] using hput []
      | null => simp [ByteArg.copied?]
      | sized n c =>
          cases c with
          | none => simp [ByteArg.copied?]
          | some b => simpa [ByteArg.copied?] using hput b

theorem setAt_fits : (∃ out', setAt out a o = .ok out')
    ↔ a.Fits o out.length := by
  simp only [setAt_ok, ByteArg.Fits]
  constructor
  · intro hx
    obtain ⟨_, i, hi, b, hb, hfits, -⟩ := hx
    exact ⟨i, hi, b, hb, hfits⟩
  · intro hx
    obtain ⟨i, hi, b, hb, hfits⟩ := hx
    exact ⟨_, i, hi, b, hb, hfits, rfl⟩

/-- The array stays as long as it is. -/
theorem setAt_length (h : setAt out a o = .ok out') :
    out'.length = out.length := by
  obtain ⟨i, -, b, -, hfits, rfl⟩ := setAt_ok.mp h
  simp only [List.length_append, List.length_take, List.length_drop]
  omega

/-- Setting content inside the bounds overwrites that range. -/
theorem setAt_of_content {i : Nat} (hb : a.content? = some b)
    (hi : i + b.length ≤ out.length) :
    setAt out a (.finite i)
      = .ok (out.take i ++ b ++ out.drop (i + b.length)) :=
  setAt_ok.mpr ⟨i, JsNumber.index?_natCast i, b,
    ByteArg.copied_of_content hb, hi, rfl⟩

end

-- ========================================================== contents

/-- The copying loop lays the contents one after another: by induction over
the parts, what is done in front and zeros for what is to come. -/
private theorem setAll_of_contents {parts : List ByteArg}
    {c : List Bytes} (hp : parts.map ByteArg.content? = c.map some) :
    ∀ (done : Bytes) (rest : Nat), c.flatten.length = rest →
      setAll parts (.finite done.length) (done ++ List.replicate rest 0)
        = .ok (done ++ c.flatten) := by
  induction parts generalizing c with
  | nil =>
      intro done rest hr
      cases c with
      | nil =>
          cases hr
          rfl
      | cons b bs => cases hp
  | cons p ps ih =>
      intro done rest hr
      cases c with
      | nil => cases hp
      | cons b bs =>
          injection hp with hc hcs
          rw [List.flatten_cons, List.length_append] at hr
          have hput : setAt (done ++ List.replicate rest 0) p
              (.finite done.length)
              = .ok (done ++ b ++ List.replicate (rest - b.length) 0) := by
            rw [setAt_of_content hc (by simp; omega), List.take_left,
              List.drop_append, List.drop_replicate]
            simp
          have hrest := ih hcs (done ++ b) (rest - b.length) (by omega)
          rw [List.length_append] at hrest
          simp only [setAll, hput, ByteArg.length_of_content hc, bind,
            Except.bind, JsNumber.add_natCast, hrest]
          rw [List.flatten_cons, List.append_assoc]

private theorem addLengths_of_contents {parts : List ByteArg}
    {c : List Bytes} (hp : parts.map ByteArg.content? = c.map some)
    (n : Nat) :
    addLengths (.finite n) parts
      = .ok (.finite ((n + c.flatten.length : Nat) : ℚ)) := by
  induction parts generalizing c n with
  | nil =>
      cases c with
      | nil => rfl
      | cons b bs => cases hp
  | cons p ps ih =>
      cases c with
      | nil => cases hp
      | cons b bs =>
          injection hp with hc hcs
          simp only [addLengths, ByteArg.length_of_content hc, bind,
            Except.bind, JsNumber.add_natCast, ih hcs, List.flatten_cons,
            List.length_append, Nat.add_assoc]

/-- `concat` of arguments with content is their concatenation. -/
theorem concat_of_contents {parts : List ByteArg} {c : List Bytes}
    (hp : parts.map ByteArg.content? = c.map some) :
    concat parts = .ok c.flatten := by
  have hlengths := addLengths_of_contents hp 0
  have hset := setAll_of_contents hp [] _ rfl
  rw [Nat.cast_zero, Nat.zero_add] at hlengths
  simp only [concat, hlengths, bind, Except.bind, JsNumber.index?_natCast]
  exact hset

-- ============================================================ joining

/-- Each part can be read and has room at the sum of the lengths in front
of it. -/
def Room (size : Nat) : JsNumber → List ByteArg → Prop
  | _, [] => True
  | o, p :: rest =>
      p.Fits o size ∧ ∃ n, p.length = .ok n ∧ Room size (o.add n) rest

/-- The lengths of the parts add up to that of an array in which each has
room. -/
def Joinable (parts : List ByteArg) : Prop :=
  ∃ n size, addLengths (.finite 0) parts = .ok n ∧ n.index? = some size
    ∧ Room size (.finite 0) parts

/-- The copying loop returns where there is room: for each part a place to
copy it to, at the sum of the lengths that were read before it. -/
theorem setAll_ok {parts : List ByteArg} {o : JsNumber} {out : Bytes} :
    (∃ b, setAll parts o out = .ok b) ↔ Room out.length o parts := by
  induction parts generalizing o out with
  | nil => exact iff_of_true ⟨out, rfl⟩ trivial
  | cons p ps ih =>
      simp only [setAll, bind_eq_ok, Room]
      constructor
      · intro hx
        obtain ⟨b, out', hset, n, hn, hb⟩ := hx
        refine ⟨setAt_fits.mp ⟨out', hset⟩, n, hn, ?_⟩
        rw [← setAt_length hset]
        exact ih.mp ⟨b, hb⟩
      · intro hx
        obtain ⟨hfits, n, hn, hroom⟩ := hx
        obtain ⟨out', hset⟩ := setAt_fits.mpr hfits
        rw [← setAt_length hset] at hroom
        obtain ⟨b, hb⟩ := ih.mpr hroom
        exact ⟨b, out', hset, n, hn, hb⟩

/-- **What can be joined**: the lengths add up to one that an array can
have, and each part can be copied to the place where the parts before it
end. -/
theorem concat_ok_iff {parts : List ByteArg} :
    (∃ b, concat parts = .ok b) ↔ Joinable parts := by
  unfold concat Joinable
  cases hlengths : addLengths (.finite 0) parts with
  | error e => simp [bind, Except.bind]
  | ok n =>
      simp only [bind, Except.bind, Except.ok.injEq, exists_and_left,
        exists_eq_left']
      cases hsize : n.index? with
      | none => simp
      | some size =>
          have hset := @setAll_ok parts (.finite 0) (List.replicate size 0)
          rw [List.length_replicate] at hset
          simpa using hset

namespace ByteArg

/-- An argument can be joined behind a V and one more byte: added to
theirs, its length gives an array that has room for what is copied of
it. -/
def Joins (a : ByteArg) : Prop :=
  ∃ n, a.length = .ok n ∧ ∃ b ∈ a.copied?,
    ∃ size ∈ (JsNumber.add (.finite (outlen + 1 : Nat)) n).index?,
      outlen + 1 + b.length ≤ size

/-- The first update of `generate` does not throw on it: it is passed over
or joined. -/
def Passes (a : ByteArg) : Prop :=
  ∃ n, a.length = .ok n ∧ (JsNumber.lt (.finite 0) n = true → a.Joins)

variable {a : ByteArg}

/-- What can be joined passes. -/
theorem Joins.passes (ha : a.Joins) : a.Passes := by
  obtain ⟨n, hn, hjoin⟩ := ha
  exact ⟨n, hn, fun _ => ⟨n, hn, hjoin⟩⟩

instance decidableRead {α : Type} (r : Except JsError α) (P : α → Prop)
    [DecidablePred P] : Decidable (∃ x, r = .ok x ∧ P x) :=
  match r with
  | .ok x => decidable_of_iff (P x) (by simp)
  | .error _ => isFalse (by simp)

instance (a : ByteArg) : Decidable a.Joins :=
  inferInstanceAs (Decidable (∃ n, a.length = .ok n ∧ _))

instance (a : ByteArg) : Decidable a.Passes :=
  inferInstanceAs (Decidable (∃ n, a.length = .ok n ∧ _))

/-- `#step` joins the argument behind V and its byte, and this never fails
for those two. So whether the whole can be joined is a question about the
argument alone. -/
theorem joins_iff {v : Bytes} (hv : v.length = outlen) (x : UInt8) :
    Joinable [.bytes v, .arrayLike [some x], a] ↔ a.Joins := by
  have hbyte : (arrayLike [some x]).length = .ok (.finite (1 : Nat)) := rfl
  have hbytes : (bytes v).length = .ok (.finite outlen) := by
    rw [← hv]
    rfl
  have hcopied : (bytes v).copied? = some v := rfl
  have hcopied' : (arrayLike [some x]).copied? = some [x] := rfl
  have hstart : (JsNumber.finite 0) = .finite (0 : Nat) := by
    rw [Nat.cast_zero]
  simp only [Joinable, addLengths, Room, hbyte, hbytes, hstart, bind,
    Except.bind, JsNumber.add_natCast, Nat.zero_add, Except.ok.injEq,
    exists_eq_left', Fits, JsNumber.index?_natCast, Option.mem_def,
    Option.some.injEq, hcopied, hcopied', hv, List.length_singleton, and_true,
    Joins]
  cases ha : a.length with
  | error e => simp
  | ok n =>
      simp only [Except.ok.injEq, exists_eq_left', exists_eq', and_true]
      constructor
      · intro hx
        obtain ⟨_, size, rfl, hsize, -, -, b, hb, hfits⟩ := hx
        exact ⟨b, hb, size, hsize, hfits⟩
      · intro hx
        obtain ⟨b, hb, size, hsize, hfits⟩ := hx
        exact ⟨_, size, rfl, hsize, by omega, by omega, b, hb, hfits⟩

end ByteArg

end KxcoPostQuantum.Fips
