/-
drbg.js: the HMAC_DRBG class, over an explicit heap.

K and V are locations, replaced and overwritten in the order the class
does it. Every assignment to either is recorded as a `drbgState` mark,
so the buffers the instance has ever held can be asked about later.

The arguments are whatever the class can be handed. `ByteArg` sorts them
by what `length` and `TypedArray.prototype.set` make of them: a
`Uint8Array`; another value whose elements are converted one by one and
may refuse to be; a value with no `length`; `null`, whose `length` throws;
and any other value, by its `length` and what is copied of it, which need
not go together. A view whose buffer is gone has the length zero and
cannot be copied, a view of big integers has its length and cannot be
copied, and of `{ length: -5 }` nothing is copied. What is left out is a
`length` that is neither a number nor absent, one that is not the same
each time it is read, and a host that runs out of memory.
-/
import KxcoPostQuantum.Fips.World
import KxcoPostQuantum.Js.Number

namespace KxcoPostQuantum.Fips

open Lib (Eff Heap)

-- ======================================================== constants

/-- SHA-512 output, bytes. -/
def outlen : Nat := 64

/-- Bits. -/
def securityStrength : Nat := 256

def maxBytesPerRequest : Nat := 65536

def reseedInterval : Nat := 2 ^ 20

def minEntropyBytes : Nat := securityStrength / 8

def minNonceBytes : Nat := securityStrength / 16

-- ======================================================== arguments

/-- A value handed to the class in the place of a byte array. -/
inductive ByteArg
  | bytes (b : Bytes)
  /-- A numeric length; `none` is an element whose conversion throws. -/
  | arrayLike (elems : List (Option UInt8))
  /-- `length` is `undefined`. -/
  | lengthless
  | null
  /-- Any other length, and the bytes `set` copies, `none` if it throws. -/
  | sized (length : JsNumber) (copied : Option Bytes)
  deriving DecidableEq

namespace ByteArg

/-- The default of an optional argument, `EMPTY`. -/
def empty : ByteArg := bytes []

/-- `arg.length`. It is added to and compared with numbers only, where
`undefined` is `NaN`. -/
def length : ByteArg → Except JsError JsNumber
  | bytes b => .ok (.finite b.length)
  | arrayLike es => .ok (.finite es.length)
  | lengthless => .ok .nan
  | null => .error (typeError (js "Cannot read properties of null"))
  | sized n _ => .ok n

/-- `arg.length < n`. -/
def lengthBelow (a : ByteArg) (n : Nat) : Except JsError Bool := do
  return (← a.length).lt (.finite n)

end ByteArg

/-- `out.set(arg, offset)`. -/
def setAt (out : Bytes) (arg : ByteArg) (offset : JsNumber) :
    Except JsError Bytes :=
  let outside : Except JsError Bytes :=
    .error (rangeError (js "offset is out of bounds"))
  match offset.index? with
  | none => outside
  | some o =>
      let put (b : Bytes) : Except JsError Bytes :=
        if o + b.length ≤ out.length then
          .ok (out.take o ++ b ++ out.drop (o + b.length))
        else outside
      match arg with
      | .bytes b => put b
      | .arrayLike es =>
          if o + es.length ≤ out.length then
            match es.mapM id with
            | some b => put b
            | none => .error (typeError (js "Cannot convert to a number"))
          else outside
      | .lengthless => put []
      | .null => .error (typeError (js "Cannot convert null to object"))
      | .sized _ (some b) => put b
      | .sized _ none => .error (typeError (js "Cannot be copied"))

/-- `n` and the lengths of some parts, added from the left. -/
def addLengths : JsNumber → List ByteArg → Except JsError JsNumber
  | n, [] => .ok n
  | n, p :: rest => do addLengths (n.add (← p.length)) rest

/-- The copying loop of `concat`, from the offset `o` on. -/
def setAll : List ByteArg → JsNumber → Bytes → Except JsError Bytes
  | [], _, out => .ok out
  | p :: rest, o, out => do
      let out ← setAt out p o
      setAll rest (o.add (← p.length)) out

/-- `concat(...parts)`. -/
def concat (parts : List ByteArg) : Except JsError Bytes := do
  match (← addLengths (.finite 0) parts).index? with
  | none => .error (rangeError (js "Invalid typed array length"))
  | some n => setAll parts (.finite 0) (List.replicate n 0)

-- ======================================================== the class

namespace HmacDrbg

/-- `this.#K = array`. -/
def setK (l : Nat) : Proc Unit := do
  Eff.modify fun w => { w with drbg := { w.drbg with K := some l } }
  mark .drbgState l

/-- `this.#V = array`. -/
def setV (l : Nat) : Proc Unit := do
  Eff.modify fun w => { w with drbg := { w.drbg with V := some l } }
  mark .drbgState l

/-- `this.#counter = n`. -/
def setCounter (n : Nat) : Proc Unit :=
  Eff.modify fun w => { w with drbg := { w.drbg with counter := n } }

/-- An error of the class's own. -/
def fail {α : Type} (message : String) : Proc α := do
  emit .drbgThrow
  throw (error (js message))

variable (hmac : Hmac)

/-- `#step(byte, provided)`. -/
def step (byte : UInt8) (provided : ByteArg) : Proc Unit := do
  let w ← Eff.get
  let oldK ← nonNull w.drbg.K
  let oldV ← nonNull w.drbg.V
  let message ← Eff.ofExcept
    (concat [.bytes (w.heap.read oldV), .arrayLike [some byte], provided])
  let k ← newArray (← hmacSha512 hmac (← contents oldK) message)
  setK k
  let v ← newArray (← hmacSha512 hmac (← contents k) (← contents oldV))
  setV v
  fillZero oldK
  fillZero oldV

/-- `#update(provided)`. -/
def update (provided : ByteArg) : Proc Unit := do
  step hmac 0x00 provided
  let n ← Eff.ofExcept provided.length
  if n = .finite 0 then pure () else step hmac 0x01 provided

/-- `instantiate(entropyInput, nonce, personalization = EMPTY)`. -/
def instantiate (entropyInput nonce : ByteArg)
    (personalization : Option ByteArg) : Proc Unit := do
  if ← Eff.ofExcept (entropyInput.lengthBelow minEntropyBytes) then
    fail "DRBG: entropy input below the security strength"
  else if ← Eff.ofExcept (nonce.lengthBelow minNonceBytes) then
    fail "DRBG: nonce below half the security strength"
  else do
    setK (← newArray (List.replicate outlen 0))
    setV (← newArray (List.replicate outlen 1))
    let seedMaterial ← Eff.ofExcept
      (concat [entropyInput, nonce, personalization.getD .empty])
    update hmac (.bytes seedMaterial)
    setCounter 1

/-- `#requireInstantiated()`. -/
def requireInstantiated : Proc Unit := do
  let w ← Eff.get
  if w.drbg.K = none then fail "DRBG: not instantiated" else pure ()

/-- `reseed(entropyInput, additionalInput = EMPTY)`. -/
def reseed (entropyInput : ByteArg) (additionalInput : Option ByteArg) :
    Proc Unit := do
  requireInstantiated
  if ← Eff.ofExcept (entropyInput.lengthBelow minEntropyBytes) then
    fail "DRBG: entropy input below the security strength"
  else do
    let seedMaterial ← Eff.ofExcept
      (concat [entropyInput, additionalInput.getD .empty])
    update hmac (.bytes seedMaterial)
    setCounter 1

/-- `reseedRequired`. -/
def reseedRequired (d : HmacDrbg) : Bool := decide (reseedInterval < d.counter)

/-- The integer a value is, if `Number.isInteger` holds of it. -/
def isInteger? : JsVal → Option Int
  | .number (.finite q) => if q.den = 1 then some q.num else none
  | _ => none

/-- The loop of `generate` that fills `out` from `filled` on. -/
def fillOutput (bytes filled : Nat) (out : Bytes) : Proc Bytes :=
  if filled < bytes then do
    let w ← Eff.get
    let k ← nonNull w.drbg.K
    let v ← nonNull w.drbg.V
    let v ← newArray (← hmacSha512 hmac (← contents k) (← contents v))
    setV v
    let take := min outlen (bytes - filled)
    let block ← contents v
    let out ← Eff.ofExcept
      (setAt out (.bytes (block.take take)) (.finite filled))
    fillOutput bytes (filled + take) out
  else pure out
termination_by bytes - filled
decreasing_by
  simp only [outlen]
  omega

/-- `if (additionalInput.length > 0) this.#update(additionalInput)`. -/
def updateIfProvided (additionalInput : ByteArg) : Proc Unit := do
  let n ← Eff.ofExcept additionalInput.length
  if JsNumber.lt (.finite 0) n then update hmac additionalInput else pure ()

/-- `generate(bytes, additionalInput = EMPTY)`. -/
def generate (bytes : JsVal) (additionalInput : Option ByteArg) :
    Proc Bytes := do
  let additionalInput := additionalInput.getD .empty
  requireInstantiated
  match isInteger? bytes with
  | none => fail "DRBG: requested length out of range"
  | some n =>
      if n < 1 ∨ (maxBytesPerRequest : Int) < n then
        fail "DRBG: requested length out of range"
      else if reseedRequired (← Eff.get).drbg then
        fail "DRBG: reseed required"
      else do
        updateIfProvided hmac additionalInput
        let out ← fillOutput hmac n.toNat 0 (List.replicate n.toNat 0)
        update hmac additionalInput
        let w ← Eff.get
        setCounter (w.drbg.counter + 1)
        return out

/-- `if (array) array.fill(0)`. -/
def fillHeld : Option Nat → Proc Unit
  | some l => fillZero l
  | none => pure ()

/-- `uninstantiate()`. -/
def uninstantiate : Proc Unit := do
  let w ← Eff.get
  fillHeld w.drbg.K
  fillHeld w.drbg.V
  Eff.modify fun w => { w with drbg := {} }

/-- `new HmacDrbg()`. -/
def create (w : World) : World := { w with drbg := {} }

/-- `instantiated`. -/
def instantiated (d : HmacDrbg) : Bool := d.K.isSome

-- ================================================ their postconditions

section Assignments

variable {Q : Unit → World → Prop} {E : JsError → World → Prop}

@[simp] theorem wp_setK (l : Nat) :
    Eff.wp (setK l) Q E = fun w => Q () { w with
      drbg := { w.drbg with K := some l }
      marks := w.marks ++ [(.drbgState, l)] } := by
  simp only [setK, Eff.wp_bind, Eff.wp_modify, wp_mark]

@[simp] theorem wp_setV (l : Nat) :
    Eff.wp (setV l) Q E = fun w => Q () { w with
      drbg := { w.drbg with V := some l }
      marks := w.marks ++ [(.drbgState, l)] } := by
  simp only [setV, Eff.wp_bind, Eff.wp_modify, wp_mark]

@[simp] theorem wp_setCounter (n : Nat) :
    Eff.wp (setCounter n) Q E = fun w => Q () { w with
      drbg := { w.drbg with counter := n } } := rfl

end Assignments

end HmacDrbg

end KxcoPostQuantum.Fips
