/-
The world the FIPS module runs in: the memory its secret buffers live
in, the environment that answers it, and a record of both.

# The environment

`Env` is everything the module calls and does not decide: the known
answer tests, the integrity test, the entropy device, HMAC-SHA-512 and
the algorithm primitives. Each answer may depend on how many questions
came before it, so one environment stands for any behaviour along one
run: the same call may succeed, return other bytes or throw the next
time it is made. HMAC has a count of its own, so that the time of every
other question is a matter of the module's own steps.

# The ghosts

Two fields are never read by the module. `marks` lists every buffer
whose fate the Security Policy settles (section 9.3), under what it was
allocated for. `trace` lists the module's self-test milestones and the
failures of what its random bits rest on, in order.
-/
import KxcoPostQuantum.Js.Value
import KxcoPostQuantum.Lib.Effect
import KxcoPostQuantum.Lib.Heap

namespace KxcoPostQuantum.Fips

open Lib (Eff Heap)

-- ======================================================= environment

/-- The ML-KEM parameter sets of the module. -/
inductive KemSet
  | mlKem768
  | mlKem1024
  deriving DecidableEq

/-- The ML-DSA parameter sets of the module. -/
inductive DsaSet
  | mlDsa65
  | mlDsa87
  deriving DecidableEq

/-- The cryptographic algorithm self-tests of selftest.js. -/
inductive Cast
  | sha256
  | mlDsaVerify
  | sha512
  | hmac
  | drbg
  | mlKem
  | mlDsa
  deriving DecidableEq

/-- What a primitive's keygen returns. -/
structure KeyPair where
  publicKey : Bytes
  secretKey : Bytes

/-- What a primitive's encapsulate returns. -/
structure Encapsulation where
  cipherText : Bytes
  sharedSecret : Bytes

/-- HMAC-SHA-512 of a key and a message, at a given count. -/
abbrev Hmac : Type := Nat → Bytes → Bytes → Except JsError Bytes

/-- Everything outside the module, by its answer to the question asked
at a given time. -/
structure Env where
  /-- `import.meta.url` is a `file:` URL. -/
  fileUrl : Bool
  /-- `await import('./module.js')`. -/
  importModule : Nat → Except JsError Unit
  cast : Nat → Cast → Except JsError Unit
  /-- `integrityTest()`, which returns the manifest. -/
  integrityTest : Nat → Except JsError JsVal
  getEntropy : Nat → (length : Nat) →
    Except JsError {b : Bytes // b.length = length}
  hmac : Hmac
  kemKeygen : Nat → KemSet → (seed : Bytes) → Except JsError KeyPair
  encapsulate : Nat → KemSet → (publicKey m : Bytes) →
    Except JsError Encapsulation
  decapsulate : Nat → KemSet → (cipherText secretKey : Bytes) →
    Except JsError Bytes
  dsaKeygen : Nat → DsaSet → (seed : Bytes) → Except JsError KeyPair
  sign : Nat → DsaSet → (message secretKey : Bytes) →
    (context : Option Bytes) → (extraEntropy : Bytes) → Except JsError Bytes
  /-- Whether the primitive's verify returns exactly `true`. -/
  verify : Nat → DsaSet → (signature message publicKey : Bytes) →
    (context : Option Bytes) → Except JsError Bool

-- ============================================================ world

/-- The private fields of an `HmacDrbg`, its arrays by location. -/
structure HmacDrbg where
  K : Option Nat := none
  V : Option Nat := none
  counter : Nat := 0

/-- What a recorded buffer was allocated for. -/
inductive Mark
  /-- Held as the K or the V of the DRBG. -/
  | drbgState
  /-- Read from the entropy device. -/
  | entropy
  /-- Drawn from `random`. -/
  | draw
  /-- A shared secret of the ML-KEM pairwise test. -/
  | sharedSecret
  deriving DecidableEq

/-- A milestone or a failure. -/
inductive Event
  | cast (c : Cast) (passed : Bool)
  | integrity (passed : Bool)
  | entropy (answered : Bool)
  | hmac (answered : Bool)
  /-- A method of the DRBG threw an error of its own. -/
  | drbgThrow
  /-- The module's DRBG was instantiated. -/
  | instantiated
  /-- A pairwise test began. -/
  | pct (publicKey secretKey : Bytes)
  /-- The pairwise test that began last succeeded. -/
  | pctPassed
  /-- A `FipsFatalError` was made by module.js. -/
  | fatal
  deriving DecidableEq

/-- Memory, the count of questions asked, that of HMACs computed, the
module's DRBG and the ghosts. -/
structure World where
  heap : Heap Bytes := Heap.empty
  clock : Nat := 0
  macs : Nat := 0
  drbg : HmacDrbg := {}
  marks : List (Mark × Nat) := []
  trace : List Event := []

/-- A computation of the module. -/
abbrev Proc (α : Type) : Type := Eff World JsError α

-- ======================================================= operations

/-- Record an event. -/
def emit (e : Event) : Proc Unit :=
  Eff.modify fun w => { w with trace := w.trace ++ [e] }

/-- Ask the environment. -/
def ask {α : Type} (f : Nat → Except JsError α) : Proc α := fun w =>
  (f w.clock, { w with clock := w.clock + 1 })

/-- Ask the environment and record whether it answered or threw. -/
def askLogged {α : Type} (event : Bool → Event)
    (f : Nat → Except JsError α) : Proc α := fun w =>
  (f w.clock,
    { w with
      clock := w.clock + 1
      trace := w.trace ++ [event (f w.clock).isOk] })

/-- The content of a buffer. -/
def contents (l : Nat) : Proc Bytes := fun w => (.ok (w.heap.read l), w)

/-- A new `Uint8Array`. -/
def newArray (b : Bytes) : Proc Nat := fun w =>
  (.ok w.heap.size, { w with heap := (w.heap.alloc b).2 })

/-- Record a buffer under what it is for. -/
def mark (m : Mark) (l : Nat) : Proc Unit :=
  Eff.modify fun w => { w with marks := w.marks ++ [(m, l)] }

/-- A new `Uint8Array`, recorded. -/
def newMarked (m : Mark) (b : Bytes) : Proc Nat := do
  let l ← newArray b
  mark m l
  return l

/-- `array.fill(0)`. -/
def fillZero (l : Nat) : Proc Unit :=
  Eff.modify fun w =>
    { w with
      heap := w.heap.write l (List.replicate (w.heap.read l).length 0) }

/-- A use of an array field that is still `null` throws. -/
def nonNull (l : Option Nat) : Proc Nat :=
  match l with
  | some l => pure l
  | none => throw (typeError (js "Cannot read properties of null"))

/-- `hmac(sha512, key, message)`. -/
def hmacSha512 (hmac : Hmac) (key message : Bytes) : Proc Bytes := fun w =>
  (hmac w.macs key message,
    { w with
      macs := w.macs + 1
      trace := w.trace ++ [.hmac (hmac w.macs key message).isOk] })

/-- A buffer contains only zeros. -/
def AllZero (b : Bytes) : Prop := ∀ x ∈ b, x = 0

instance (b : Bytes) : Decidable (AllZero b) :=
  inferInstanceAs (Decidable (∀ x ∈ b, x = 0))

theorem allZero_replicate (n : Nat) : AllZero (List.replicate n 0) :=
  fun _ hx => List.eq_of_mem_replicate hx

-- ================================================ their postconditions

section Postconditions

variable {α : Type} {E : JsError → World → Prop} {w : World}

@[simp] theorem wp_emit (e : Event) {Q : Unit → World → Prop} :
    Eff.wp (emit e) Q E
      = fun w => Q () { w with trace := w.trace ++ [e] } := rfl

@[simp] theorem wp_contents (l : Nat) {Q : Bytes → World → Prop} :
    Eff.wp (contents l) Q E = fun w => Q (w.heap.read l) w := rfl

@[simp] theorem wp_newArray (b : Bytes) {Q : Nat → World → Prop} :
    Eff.wp (newArray b) Q E
      = fun w => Q w.heap.size { w with heap := (w.heap.alloc b).2 } := rfl

@[simp] theorem wp_mark (m : Mark) (l : Nat) {Q : Unit → World → Prop} :
    Eff.wp (mark m l) Q E
      = fun w => Q () { w with marks := w.marks ++ [(m, l)] } := rfl

@[simp] theorem wp_newMarked (m : Mark) (b : Bytes)
    {Q : Nat → World → Prop} :
    Eff.wp (newMarked m b) Q E = fun w => Q w.heap.size { w with
      heap := (w.heap.alloc b).2
      marks := w.marks ++ [(m, w.heap.size)] } := by
  simp only [newMarked, Eff.wp_bind, wp_newArray, wp_mark, Eff.wp_pure]

@[simp] theorem wp_fillZero (l : Nat) {Q : Unit → World → Prop} :
    Eff.wp (fillZero l) Q E = fun w => Q () { w with
      heap := w.heap.write l (List.replicate (w.heap.read l).length 0) } :=
  rfl

@[simp] theorem wp_nonNull_some (l : Nat) {Q : Nat → World → Prop} :
    Eff.wp (nonNull (some l)) Q E = Q l := rfl

/-- A question ends in the environment's answer or throw. -/
theorem wp_ask {f : Nat → Except JsError α} {Q : α → World → Prop}
    (hok : ∀ a, f w.clock = .ok a → Q a { w with clock := w.clock + 1 })
    (herr : ∀ e, f w.clock = .error e →
      E e { w with clock := w.clock + 1 }) :
    Eff.wp (ask f) Q E w := by
  cases hf : f w.clock with
  | ok a =>
      have hr : (ask f).run w = (.ok a, { w with clock := w.clock + 1 }) :=
        congrArg (·, _) hf
      rw [Eff.wp_of_ok hr]
      exact hok a hf
  | error e =>
      have hr : (ask f).run w
          = (.error e, { w with clock := w.clock + 1 }) :=
        congrArg (·, _) hf
      rw [Eff.wp_of_error hr]
      exact herr e hf

/-- A recorded question ends in the environment's answer or throw, with
the event that says which. -/
theorem wp_askLogged {event : Bool → Event} {f : Nat → Except JsError α}
    {Q : α → World → Prop}
    (hok : ∀ a, f w.clock = .ok a →
      Q a { w with
        clock := w.clock + 1, trace := w.trace ++ [event true] })
    (herr : ∀ e, f w.clock = .error e →
      E e { w with
        clock := w.clock + 1, trace := w.trace ++ [event false] }) :
    Eff.wp (askLogged event f) Q E w := by
  cases hf : f w.clock with
  | ok a =>
      have hr : (askLogged event f).run w = (.ok a, { w with
          clock := w.clock + 1, trace := w.trace ++ [event true] }) := by
        show (f w.clock, { w with
          clock := w.clock + 1
          trace := w.trace ++ [event (f w.clock).isOk] }) = _
        rw [hf]
        rfl
      rw [Eff.wp_of_ok hr]
      exact hok a hf
  | error e =>
      have hr : (askLogged event f).run w = (.error e, { w with
          clock := w.clock + 1, trace := w.trace ++ [event false] }) := by
        show (f w.clock, { w with
          clock := w.clock + 1
          trace := w.trace ++ [event (f w.clock).isOk] }) = _
        rw [hf]
        rfl
      rw [Eff.wp_of_error hr]
      exact herr e hf

/-- An HMAC ends in a code or a throw, with the event that says which. In
both cases it has been counted, and the memory is as it was. -/
theorem wp_hmacSha512 {hmac : Hmac} {key message : Bytes}
    {Q : Bytes → World → Prop}
    (hok : ∀ b, hmac w.macs key message = .ok b →
      Q b { w with macs := w.macs + 1, trace := w.trace ++ [.hmac true] })
    (herr : ∀ e, hmac w.macs key message = .error e →
      E e { w with
        macs := w.macs + 1, trace := w.trace ++ [.hmac false] }) :
    Eff.wp (hmacSha512 hmac key message) Q E w := by
  have hrun : (hmacSha512 hmac key message).run w
      = (hmac w.macs key message, { w with
          macs := w.macs + 1
          trace := w.trace ++ [.hmac (hmac w.macs key message).isOk] }) :=
    rfl
  cases hf : hmac w.macs key message with
  | ok b =>
      rw [hf] at hrun
      rw [Eff.wp_of_ok hrun]
      exact hok b hf
  | error e =>
      rw [hf] at hrun
      rw [Eff.wp_of_error hrun]
      exact herr e hf

end Postconditions

end KxcoPostQuantum.Fips
