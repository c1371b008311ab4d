/-
JavaScript values, errors and the parts of the host the package reads
them through.

# What a value is

`JsVal` sorts every value by what the package's own checks can tell
apart: its `typeof`, whether it is an array, a `Uint8Array` (a `Buffer`
is one), another view or an `ArrayBuffer`, and, for an object, its own
and inherited members. A string is its UTF-16 code units, well formed
or not. A number is a rational, an infinity or NaN: signed zero is not
distinguished, nothing here divides by it.

Code that a caller's value can run shows as its outcome. A function
carries what its call returns; an accessor or a function that throws is
`raises`. An accessor that answers differently each time it is read is
outside the model, as are proxies, cycles, boxed primitives, members that
are not enumerable, holes in arrays and extra members on arrays,
functions and binary values. A function declares no parameters.

# What the host is

`Runtime` holds the library functions the package's results do not
depend on the inside of: the text of a number and the number of a text,
the text of a value in a template literal, what binary values are as
plain data, the bytes `Buffer.from` makes of a value, and the messages of
the host's own errors.
-/
import KxcoPostQuantum.Lib.Json
import Mathlib.Data.Rat.Defs

namespace KxcoPostQuantum

/-- The content of a `Uint8Array`. -/
abbrev Bytes : Type := List UInt8

/-- A JavaScript string: UTF-16 code units. -/
abbrev JsString : Type := List UInt16

/-- A string literal of the source; none has a character outside the
Basic Multilingual Plane. -/
def js (s : String) : JsString := s.toList.map fun c => c.toNat.toUInt16

/-- A JavaScript number. -/
inductive JsNumber
  | nan
  | posInf
  | negInf
  | finite (q : ℚ)
  deriving DecidableEq

/-- The constructor of a thrown error. -/
inductive ErrorName
  | error
  | typeError
  | rangeError
  | syntaxError
  | domException
  | fipsFatalError
  deriving DecidableEq

/-- The constructor's name, what `e?.constructor?.name` reads. -/
def constructorName : ErrorName → JsString
  | .error => js "Error"
  | .typeError => js "TypeError"
  | .rangeError => js "RangeError"
  | .syntaxError => js "SyntaxError"
  | .domException => js "DOMException"
  | .fipsFatalError => js "FipsFatalError"

/-- A thrown error: its constructor, its message, its `code`, and
whether a truthy `fatal` member was added to it. -/
structure JsError where
  name : ErrorName
  message : JsString
  code : Option JsString := none
  addedFatal : Bool := false
  deriving DecidableEq

/-- The truth of `err.fatal`, which the constructor of `FipsFatalError`
sets. -/
def JsError.fatal (e : JsError) : Bool :=
  decide (e.name = .fipsFatalError) || e.addedFatal

/-- `new Error(message)`. -/
def error (message : JsString) : JsError := { name := .error, message }

/-- `new TypeError(message)`. -/
def typeError (message : JsString) : JsError := { name := .typeError, message }

/-- `new RangeError(message)`. -/
def rangeError (message : JsString) : JsError :=
  { name := .rangeError, message }

/-- What a computation that returns has done before it. -/
theorem bind_eq_ok {α β : Type} {x : Except JsError α}
    {f : α → Except JsError β} {b : β} :
    (x >>= f) = .ok b ↔ ∃ a, x = .ok a ∧ f a = .ok b := by
  cases x with
  | error e => exact iff_of_false nofun fun ⟨_, h, _⟩ => nomatch h
  | ok a =>
      constructor
      · exact fun h => ⟨a, rfl, h⟩
      · intro hx
        obtain ⟨_, h, h'⟩ := hx
        cases h
        exact h'

/-- A computation returns when its parts do. -/
theorem bind_returns {α β : Type} {x : Except JsError α}
    {f : α → Except JsError β} (hx : ∃ a, x = .ok a)
    (hf : ∀ a, x = .ok a → ∃ b, f a = .ok b) : ∃ b, (x >>= f) = .ok b := by
  obtain ⟨a, ha⟩ := hx
  obtain ⟨b, hb⟩ := hf a ha
  exact ⟨b, bind_eq_ok.mpr ⟨a, ha, hb⟩⟩

/-- What follows a computation matters only for what it returns. -/
theorem bind_congr_ok {α β : Type} {x : Except JsError α}
    {f g : α → Except JsError β} (h : ∀ a, x = .ok a → f a = g a) :
    (x >>= f) = (x >>= g) := by
  cases x with
  | error e => rfl
  | ok a => exact h a rfl

theorem pure_eq_ok {α : Type} {a b : α} :
    (pure a : Except JsError α) = .ok b ↔ a = b :=
  ⟨Except.ok.inj, congrArg Except.ok⟩

/-- A computation that returns has passed its check. -/
theorem guard_eq_ok {α : Type} {c : Prop} [Decidable c] {e : JsError}
    {x : Except JsError α} {a : α} :
    (if c then throw e else x) = .ok a ↔ ¬c ∧ x = .ok a := by
  split
  next h =>
    refine iff_of_false ?_ fun h' => h'.1 h
    intro hx
    cases hx
  next h => exact (and_iff_right h).symm

/-- The same, of a check whose message may throw. -/
theorem guardBind_eq_ok {α β : Type} {c : Prop} [Decidable c]
    {m : Except JsError β} {e : β → JsError} {x : Except JsError α} {a : α} :
    (if c then m >>= fun b => throw (e b) else x) = .ok a
      ↔ ¬c ∧ x = .ok a := by
  split
  next h =>
    refine iff_of_false ?_ fun h' => h'.1 h
    intro hx
    obtain ⟨_, -, hx⟩ := bind_eq_ok.mp hx
    cases hx
  next h => exact (and_iff_right h).symm

/-- The element type of a view that is not a `Uint8Array`. -/
inductive ViewKind
  | int8 | uint8Clamped | int16 | uint16 | int32 | uint32
  | float16 | float32 | float64 | bigInt64 | bigUint64 | dataView
  deriving DecidableEq

/-- A JavaScript value. -/
inductive JsVal
  | undefined
  | null
  | bool (b : Bool)
  | number (n : JsNumber)
  | bigint (i : Int)
  | symbol
  | string (s : JsString)
  | uint8Array (b : Bytes)
  /-- Another typed array, or a `DataView`, by the bytes it covers. -/
  | view (kind : ViewKind) (b : Bytes)
  | arrayBuffer (b : Bytes)
  | array (elems : List JsVal)
  /-- An object by its own members, in creation order, and those its
  prototype chain adds to `Object.prototype`'s. -/
  | object (own inherited : List (JsString × JsVal))
  /-- A function, by what a call of it returns. -/
  | func (result : JsVal)
  /-- In a member's place: reading the member, or calling it, throws. -/
  | raises (e : JsError)

/-- `BYTES_PER_ELEMENT`; a `DataView` has none. -/
def ViewKind.elementBytes : ViewKind → Option Nat
  | int8 | uint8Clamped => some 1
  | int16 | uint16 | float16 => some 2
  | int32 | uint32 | float32 => some 4
  | float64 | bigInt64 | bigUint64 => some 8
  | dataView => none

namespace JsVal

/-- `typeof v === 'object'`, `null` included. -/
def isObjectType : JsVal → Bool
  | null | uint8Array _ | view _ _ | arrayBuffer _ | array _ | object _ _ =>
      true
  | _ => false

/-- `v == null`. -/
def isNullish : JsVal → Bool
  | undefined | null => true
  | _ => false

/-- The truth of a value. -/
def truthy : JsVal → Bool
  | undefined | null => false
  | bool b => b
  | number .nan => false
  | number (.finite q) => q ≠ 0
  | bigint i => i ≠ 0
  | string s => !s.isEmpty
  | _ => true

/-- `v === w` of two values that are not the same object or symbol. -/
def strictEquals : (v w : JsVal) → Bool
  | undefined, undefined | null, null => true
  | bool a, bool b => a = b
  | number .nan, number .nan => false
  | number a, number b => a = b
  | bigint a, bigint b => a = b
  | string a, string b => a = b
  | _, _ => false

/-- `Array.isArray(v)`. -/
def isArray : JsVal → Bool
  | array _ => true
  | _ => false

/-- The bytes of a value that is `instanceof Uint8Array`. -/
def uint8Array? : JsVal → Option Bytes
  | uint8Array b => some b
  | _ => none

/-- The code units of a value whose `typeof` is `string`. -/
def string? : JsVal → Option JsString
  | string s => some s
  | _ => none

/-- The first member of that name. -/
def lookup (k : JsString) : List (JsString × JsVal) → Option JsVal
  | [] => none
  | (k', v) :: rest => if k' = k then some v else lookup k rest

/-- `v.k`, for a name no built-in prototype carries. -/
def get (v : JsVal) (k : JsString) : Except JsError JsVal :=
  match v with
  | undefined | null =>
      .error (typeError (js "Cannot read properties of undefined or null"))
  | object own inherited =>
      match (lookup k own).or (lookup k inherited) with
      | some (raises e) => .error e
      | some v => .ok v
      | none => .ok undefined
  | _ => .ok undefined

/-- `v?.length`. -/
def length (v : JsVal) : Except JsError JsVal :=
  let size (n : Nat) : JsVal := number (.finite n)
  match v with
  | uint8Array b => .ok (size b.length)
  | view kind b =>
      .ok (kind.elementBytes.elim undefined fun n => size (b.length / n))
  | array elems => .ok (size elems.length)
  | string s => .ok (size s.length)
  | func _ => .ok (size 0)
  | object _ _ => v.get (js "length")
  | _ => .ok undefined

/-- `Object.hasOwn(v, k)`, for a name no built-in object owns. -/
def hasOwn (v : JsVal) (k : JsString) : Bool :=
  match v with
  | object own _ => (lookup k own).isSome
  | _ => false

theorem strictEquals_undefined {v : JsVal} :
    v.strictEquals undefined = true ↔ v = undefined := by
  cases v <;> simp [strictEquals]

theorem strictEquals_string {v : JsVal} {s : JsString} :
    v.strictEquals (string s) = true ↔ v = string s := by
  cases v <;> simp [strictEquals]

end JsVal

/-- The host's library functions. -/
structure Runtime where
  /-- `typeof Buffer !== 'undefined'`. -/
  hasBuffer : Bool
  /-- `Number::toString` of a finite number. -/
  numberToString : ℚ → JsString
  /-- The number a JSON number literal stands for. -/
  literalValue : JsString → JsNumber
  /-- `ToNumber` of a value that is not a number. -/
  toNumber : JsVal → Except JsError JsNumber
  /-- The text of a value that is not a string in a template literal. -/
  toString : JsVal → Except JsError JsString
  /-- `Buffer.from` of a value that is not a `Uint8Array`. -/
  bufferFrom : JsVal → Except JsError Bytes
  /-- `new Uint8Array` of a value that is not a `Uint8Array`. -/
  newUint8Array : JsVal → Except JsError Bytes
  /-- The elements of a view that is not a `Uint8Array`. -/
  elements : ViewKind → Bytes → List JsVal
  /-- What `JSON.stringify` writes for a binary value, which is not the
  same for a `Buffer` and for another `Uint8Array`. -/
  binaryJson : JsVal → Lib.Json
  /-- The message of the error `JSON.parse` throws on a text. -/
  syntaxMessage : JsString → JsString
  /-- The message of the error `atob` throws on a text. -/
  decodeMessage : JsString → JsString

/-- What is relied on of the host: numbers are written as JSON writes
them. -/
structure Runtime.Lawful (rt : Runtime) : Prop where
  number : ∀ q, Lib.Json.isNumber (rt.numberToString q) = true
  binary : ∀ v, (rt.binaryJson v).Valid

/-- `${v}`. -/
def template (rt : Runtime) : JsVal → Except JsError JsString
  | .string s => .ok s
  | v => rt.toString v

/-- `${n}` for a length. -/
def decimal (n : Nat) : JsString := js (toString n)

theorem decimal_eq (n : Nat) :
    decimal n = (Nat.toDigits 10 n).map fun c => c.toNat.toUInt16 := by
  rw [decimal, js, show toString n = n.repr from rfl, Nat.toList_repr]

/-- A digit is one unit. -/
theorem digit_of_mem {n : Nat} {c : Char} (h : c ∈ Nat.toDigits 10 n) :
    (c.toNat.toUInt16).toNat = c.toNat ∧ 48 ≤ c.toNat ∧ c.toNat ≤ 57 := by
  have hdigit := Nat.isDigit_of_mem_toDigits (by decide) (by decide) h
  have hrange : 48 ≤ c.toNat ∧ c.toNat ≤ 57 := by
    simpa [Char.isDigit, UInt32.le_iff_toNat_le] using hdigit
  exact ⟨UInt16.toNat_ofNat_of_lt' (by show c.toNat < 65536; omega), hrange⟩

/-- A length is written in digits. -/
theorem isDigit_decimal (n : Nat) : ∀ c ∈ decimal n, Lib.Json.isDigit c := by
  rw [decimal_eq]
  intro c hc
  obtain ⟨d, hd, rfl⟩ := List.mem_map.mp hc
  obtain ⟨hunit, hrange⟩ := digit_of_mem hd
  rw [Lib.Json.isDigit, hunit]
  simp [hrange]

/-- Reading the digits of a number gives the number. -/
theorem foldl_decimal (n : Nat) :
    (decimal n).foldl (fun n c => n * 10 + (c.toNat - 48)) 0 = n := by
  have h := Nat.ofDigitChars_toDigits (b := 10) (n := n) (by decide) (by decide)
  rw [Nat.ofDigitChars_eq_foldl] at h
  rw [decimal_eq, List.foldl_map]
  refine Eq.trans (List.foldl_ext _ _ 0 fun a c hc => ?_) h
  rw [(digit_of_mem hc).1, Nat.mul_comm a]
  rfl

/-- A host with `Buffer`, for runs that ask it for nothing else. -/
def plainRuntime : Runtime where
  hasBuffer := true
  numberToString _ := js "0"
  literalValue _ := .finite 0
  toNumber _ := .ok .nan
  toString _ := .ok []
  bufferFrom _ := .ok []
  newUint8Array _ := .ok []
  elements _ _ := []
  binaryJson _ := .null
  syntaxMessage _ := []
  decodeMessage _ := []

theorem plainRuntime_lawful : plainRuntime.Lawful :=
  ⟨fun _ => (by decide : Lib.Json.isNumber (js "0") = true),
    fun _ => .null⟩

end KxcoPostQuantum
