/-
Typed arrays: the elements of a view, and what `new Uint8Array` makes of
it.

The elements of a view are numbers, except those of the two arrays of big
integers; a `DataView` has none. `new Uint8Array(view)` takes the elements
one by one and converts each with `ToUint8`, so it has as many bytes as
the view has elements. It is a copy of what the view covers where an
element is one byte (`uint8ArrayOf_narrow`), and shorter than that where
an element is more (`uint8ArrayOf_wide`).

The byte order of elements is the machine's.
-/
import KxcoPostQuantum.Js.Value

namespace KxcoPostQuantum

-- ============================================================== numbers

/-- `ToUint8`. -/
def JsNumber.toUint8 : JsNumber → UInt8
  | .finite q => (q.num.tdiv q.den % 256).toNat.toUInt8
  | _ => 0

theorem toUint8_intCast (z : Int) :
    (JsNumber.finite z).toUint8 = (z % 256).toNat.toUInt8 := by
  unfold JsNumber.toUint8
  simp only [Rat.num_intCast, Rat.den_intCast, Nat.cast_one, Int.tdiv_one]

/-- A binary interchange format, by the widths of its fields. -/
structure FloatFormat where
  exponentBits : Nat
  fractionBits : Nat

/-- The number of a bit pattern. Minus zero is zero. -/
def FloatFormat.decode (f : FloatFormat) (v : Nat) : JsNumber :=
  let fraction := v % 2 ^ f.fractionBits
  let exponent := v / 2 ^ f.fractionBits % 2 ^ f.exponentBits
  let negative := v / 2 ^ (f.fractionBits + f.exponentBits) % 2 = 1
  let bias := 2 ^ (f.exponentBits - 1) - 1
  let number (significand exponent : Nat) : JsNumber :=
    .finite (mkRat
      (if negative then -(significand * 2 ^ exponent : Nat)
        else (significand * 2 ^ exponent : Nat))
      (2 ^ (bias + f.fractionBits)))
  if exponent = 2 ^ f.exponentBits - 1 then
    if fraction ≠ 0 then .nan else if negative then .negInf else .posInf
  else if exponent = 0 then number fraction 1
  else number (2 ^ f.fractionBits + fraction) exponent

example : (FloatFormat.mk 5 10).decode 0xC200 = .finite (-3) := by decide

/-- The number of an unsigned integer. -/
def unsigned (v : Nat) : JsNumber := .finite v

/-- The number of an integer in two's complement. -/
def signed (bits v : Nat) : JsNumber :=
  .finite ((if v < 2 ^ (bits - 1) then v else v - 2 ^ bits : Int) : ℚ)

-- ============================================================= elements

/-- What the elements of a typed array are. -/
inductive ElementType
  | number (read : Nat → JsNumber)
  | bigInt

namespace ViewKind

/-- The elements of a typed array; a `DataView` has none. -/
def elementType : ViewKind → Option ElementType
  | int8 => some (.number (signed 8))
  | int16 => some (.number (signed 16))
  | int32 => some (.number (signed 32))
  | uint8Clamped | uint16 | uint32 => some (.number unsigned)
  | float16 => some (.number (FloatFormat.decode ⟨5, 10⟩))
  | float32 => some (.number (FloatFormat.decode ⟨8, 23⟩))
  | float64 => some (.number (FloatFormat.decode ⟨11, 52⟩))
  | bigInt64 | bigUint64 => some .bigInt
  | dataView => none

/-- A typed array of numbers, more than one byte each. -/
def isWide : ViewKind → Bool
  | int16 | uint16 | int32 | uint32 | float16 | float32 | float64 => true
  | _ => false

end ViewKind

/-- The bit pattern of an element. -/
def pattern (little : Bool) (element : Bytes) : Nat :=
  (if little then element else element.reverse).foldr
    (fun x v => x.toNat + 256 * v) 0

/-- The bytes of the elements. -/
def slices (size : Nat) (b : Bytes) : List Bytes :=
  (List.range (b.length / size)).map fun i => (b.drop (i * size)).take size

/-- `new Uint8Array(view)`. A `DataView` is an object without a length
here. -/
def uint8ArrayOf (little : Bool) (kind : ViewKind) (b : Bytes) :
    Except JsError Bytes :=
  match kind.elementType with
  | none => .ok []
  | some .bigInt =>
      .error (typeError (js "Cannot mix BigInt and other types, use "
        ++ js "explicit conversions"))
  | some (.number read) =>
      .ok ((slices (kind.elementBytes.getD 1) b).map fun element =>
        (read (pattern little element)).toUint8)

/-- The host's `new Uint8Array` is the language's. -/
structure Runtime.ReadsBinary (rt : Runtime) (little : Bool) : Prop where
  arrayBuffer : ∀ b, rt.newUint8Array (.arrayBuffer b) = .ok b
  view : ∀ kind b,
    rt.newUint8Array (.view kind b) = uint8ArrayOf little kind b

-- ========================================================== conversions

theorem slices_length (size : Nat) (b : Bytes) :
    (slices size b).length = b.length / size := by
  unfold slices
  rw [List.length_map, List.length_range]

/-- Elements of one byte. -/
theorem slices_one (b : Bytes) : slices 1 b = b.map fun x => [x] := by
  apply List.ext_getElem
  · rw [slices_length, Nat.div_one, List.length_map]
  · intro i hi _
    rw [slices_length, Nat.div_one] at hi
    unfold slices
    simp only [List.getElem_map, List.getElem_range, Nat.mul_one]
    rw [List.drop_eq_getElem_cons hi]
    rfl

theorem pattern_singleton (little : Bool) (x : UInt8) :
    pattern little [x] = x.toNat := by
  cases little <;> simp [pattern]

/-- A byte read as a number and written back is the byte, with a sign and
without. -/
theorem toUint8_byte (x : UInt8) : (unsigned x.toNat).toUint8 = x
    ∧ (signed 8 x.toNat).toUint8 = x := by
  have hx := x.toNat_lt
  have hbyte : ∀ z : Int, (z % 256).toNat = x.toNat →
      (JsNumber.finite z).toUint8 = x := by
    intro z hz
    rw [toUint8_intCast, hz, Nat.toUInt8_eq, UInt8.ofNat_toNat]
  constructor
  · exact hbyte x.toNat (by omega)
  · apply hbyte
    split <;> omega

/-- **Elements of one byte** are copied. -/
theorem uint8ArrayOf_narrow (little : Bool) {kind : ViewKind} (b : Bytes)
    (h : kind = .int8 ∨ kind = .uint8Clamped) :
    uint8ArrayOf little kind b = .ok b := by
  have hcopy : ∀ read : Nat → JsNumber,
      (∀ x : UInt8, (read x.toNat).toUint8 = x) →
      (slices 1 b).map (fun element => (read (pattern little element)).toUint8)
        = b := by
    intro read hread
    rw [slices_one, List.map_map]
    calc b.map _ = b.map id := by
          apply List.map_congr_left
          intro x _
          show (read (pattern little [x])).toUint8 = x
          rw [pattern_singleton, hread]
      _ = b := List.map_id b
  rcases h with rfl | rfl
  · exact congrArg Except.ok (hcopy _ fun x => (toUint8_byte x).2)
  · exact congrArg Except.ok (hcopy _ fun x => (toUint8_byte x).1)

/-- What wide elements are. -/
theorem ViewKind.wide_cases {kind : ViewKind} (h : kind.isWide = true) :
    ∃ read size, kind.elementType = some (.number read)
      ∧ kind.elementBytes = some size ∧ 1 < size := by
  cases kind with
  | int16 | uint16 | float16 => exact ⟨_, 2, rfl, rfl, by decide⟩
  | int32 | uint32 | float32 => exact ⟨_, 4, rfl, rfl, by decide⟩
  | float64 => exact ⟨_, 8, rfl, rfl, by decide⟩
  | int8 | uint8Clamped | bigInt64 | bigUint64 | dataView => cases h

/-- **Wider elements** are as many as the bytes that are made of them. -/
theorem uint8ArrayOf_wide (little : Bool) {kind : ViewKind} (b : Bytes)
    {size : Nat} (h : kind.isWide = true)
    (hsize : kind.elementBytes = some size) :
    ∃ made, uint8ArrayOf little kind b = .ok made
      ∧ made.length = b.length / size := by
  obtain ⟨read, _, htype, -⟩ := ViewKind.wide_cases h
  refine ⟨_, by rw [uint8ArrayOf, htype], ?_⟩
  rw [List.length_map, slices_length, hsize, Option.getD_some]

end KxcoPostQuantum
