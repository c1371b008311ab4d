/-
entropy.js: `getEntropy`, which fills an array from the operating
system's random device.

# The host

`Device` is what the host answers along one call, one answer for each
`readSync`. A read that delivers gives one byte at least and as many as it
was asked for at most; any other read gives a count that is zero or
negative, or throws. Nothing is assumed of what comes when.

# The ghost

The module does not read `calls`, which lists what was asked of the device
and what it delivered. A read that is answered without data stands there
with no bytes.
-/
import KxcoPostQuantum.Js.Value
import KxcoPostQuantum.Lib.Buffer
import KxcoPostQuantum.Lib.Effect

namespace KxcoPostQuantum.Fips.Entropy

open Lib (Eff)
open Lib.Buffer (copyAt)

-- ================================================================= host

/-- What `readSync` answers when it is asked for so many bytes. -/
inductive Answer (requested : Nat)
  /-- The bytes that were put into the array; their number is returned. -/
  | delivered (bytes : Bytes) (pos : 0 < bytes.length)
      (le : bytes.length ≤ requested)
  | nothing (n : Int) (nonpos : n ≤ 0)
  | raises (e : JsError)

/-- The host along one call of `getEntropy`. -/
structure Device where
  /-- `new Uint8Array(length)`. -/
  newUint8Array : (length : Nat) → Except JsError Unit
  /-- `openSync(DEVICE, 'r')`, a descriptor. -/
  openSync : Except JsError Nat
  /-- `readSync`, by the number of reads before. -/
  readSync : (reads requested : Nat) → Answer requested
  closeSync : Except JsError Unit

/-- What is asked of the device, with what a read delivers. -/
inductive Call
  | opened (fd : Nat)
  | read (fd offset : Nat) (bytes : Bytes)
  | closed (fd : Nat)
  deriving DecidableEq

/-- The array `out`, the number of reads, and the ghost. -/
structure State where
  out : Bytes := []
  reads : Nat := 0
  calls : List Call := []

/-- A computation of entropy.js. -/
abbrev Proc (α : Type) : Type := Eff State JsError α

variable (device : Device)

/-- `new Uint8Array(length)`, which is zero. -/
def newUint8Array (length : Nat) : Proc Unit := fun s =>
  match device.newUint8Array length with
  | .ok _ => (.ok (), { s with out := List.replicate length 0 })
  | .error e => (.error e, s)

/-- `openSync(DEVICE, 'r')`. -/
def openSync : Proc Nat := fun s =>
  match device.openSync with
  | .ok fd => (.ok fd, { s with calls := s.calls ++ [.opened fd] })
  | .error e => (.error e, s)

/-- `readSync(fd, out, offset, requested, null)`. -/
def readSync (fd offset requested : Nat) : Proc Int := fun s =>
  let asked (bytes : Bytes) : State := { s with
    reads := s.reads + 1
    calls := s.calls ++ [.read fd offset bytes] }
  match device.readSync s.reads requested with
  | .delivered bytes _ _ =>
      (.ok bytes.length,
        { asked bytes with out := copyAt s.out offset bytes })
  | .nothing n _ => (.ok n, asked [])
  | .raises e => (.error e, asked [])

/-- `closeSync(fd)`. -/
def closeSync (fd : Nat) : Proc Unit := fun s =>
  (device.closeSync, { s with calls := s.calls ++ [.closed fd] })

-- =========================================================== getEntropy

/-- The loop. -/
def fill (fd length filled : Nat) : Proc Unit :=
  if filled < length then do
    let n ← readSync device fd filled (length - filled)
    if _h : n ≤ 0 then
      throw (error (js "entropy source /dev/urandom returned no data"))
    else fill fd length (filled + n.toNat)
  else pure ()
termination_by length - filled

/-- `getEntropy(length)`. -/
def getEntropy (length : Nat) : Proc Bytes := do
  newUint8Array device length
  let fd ← openSync device
  Eff.tryFinally (fill device fd length 0) (closeSync device fd)
  return (← Eff.get).out

end KxcoPostQuantum.Fips.Entropy
