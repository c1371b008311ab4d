/-
`Peer` of conformance/interop/run-interop.mjs: the client that talks to
another implementation over its standard streams, a line of JSON a
message.

# What runs

The class runs on callbacks. `Event` has one for each: a call of
`request`, bytes on the peer's stdout or stderr, a timer that fires, the
end of the peer, an error of the process or of its stdin. A run is a list
of events in any order (`run`). What reads a stream decides where its
chunks end, so a chunk is any bytes.

# What a state records

Beside the fields of the class a state holds what they refer to: the
promises that `request` has returned, the timers that are armed, what was
written to the peer. A promise is known by the id of its request. An
error that leaves a handler ends the whole run; `thrown` holds it, and
nothing happens after it.

`lines` is not a field of the class. It keeps the lines that were taken
off the buffer, for what is said about them.
-/
import KxcoPostQuantum.Js.Json
import KxcoPostQuantum.Js.Text
import KxcoPostQuantum.Lib.Lines

namespace KxcoPostQuantum.Interop

open Lib

-- ============================================================== state

/-- What a promise of `request` is settled with. -/
inductive Outcome
  | reply (msg : JsVal)
  /-- `{ ok: false, error }`. -/
  | failure (error : JsString)

/-- A promise that `request` has returned: the id of the request, if one
was made, and the outcome, once there is one. -/
structure Promise where
  id : Option Nat
  outcome : Option Outcome := none

/-- What the closures of one request hold: its id, which stands for its
promise, and `where`. -/
structure Waiter where
  id : Nat
  place : JsString

structure Peer where
  name : JsString
  pending : List Waiter := []
  nextId : Nat := 1
  buffer : JsString := []
  stderr : JsString := []
  closed : Bool := false
  /-- What `exited` is resolved with; none in it is `null`. -/
  exited : Option (Option Int) := none
  /-- The timers that are armed. -/
  timers : List Waiter := []
  promises : List Promise := []
  /-- The messages written to the peer's stdin. -/
  stdin : List JsString := []
  lines : List JsString := []
  thrown : Option JsError := none

/-- The line feed. -/
def newline : UInt16 := 10

/-- `resolve(outcome)` of the promise of request `id`; only the first
call does anything. -/
def Promise.resolve (id : Nat) (outcome : Outcome) (q : Promise) : Promise :=
  if q.id = some id ∧ q.outcome.isNone then
    { q with outcome := some outcome }
  else q

namespace Peer

/-- A list of waiters without those of a request. -/
def without (id : Nat) (waiters : List Waiter) : List Waiter :=
  waiters.filter fun w => w.id ≠ id

def resolve (p : Peer) (id : Nat) (outcome : Outcome) : Peer :=
  { p with promises := p.promises.map (Promise.resolve id outcome) }

/-- `settle(msg)`: the timer is cleared and the promise resolved. -/
def settle (p : Peer) (id : Nat) (outcome : Outcome) : Peer :=
  { p with timers := without id p.timers }.resolve id outcome

/-- `this.pending.delete(id)`. -/
def delete (p : Peer) (id : Nat) : Peer :=
  { p with pending := without id p.pending }

-- ============================================================= stdout

variable (rt : Runtime)

/-- `this.pending.get(key)`. -/
def waiter (p : Peer) (key : JsVal) : Option Waiter :=
  p.pending.find? fun w => key.strictEquals (.number (.finite w.id))

/-- What the stdout handler does with one line. -/
def dispatch (p : Peer) (line : JsString) : Except JsError Peer :=
  let line := trim line
  if line.isEmpty then .ok p
  else
    match jsonParse rt line with
    | .error _ =>
        .ok { p with
          stderr := p.stderr ++ js "[non-protocol stdout] " ++ line
            ++ [newline] }
    | .ok msg => do
        let id ← msg.get (js "id")
        match p.waiter id with
        | some w => return (p.delete w.id).settle w.id (.reply msg)
        | none => return p

/-- The loop of the stdout handler, on what the buffer holds. -/
def drain (p : Peer) (buffer : JsString) : Peer :=
  match _h : firstLine newline buffer with
  | none => { p with buffer }
  | some (line, rest) =>
      let p := { p with buffer := rest, lines := p.lines ++ [line] }
      match dispatch rt p line with
      | .ok p => drain p rest
      | .error e => { p with thrown := some e }
  termination_by buffer.length
  decreasing_by exact firstLine_length _h

/-- The handler of the peer's stdout. -/
def onStdout (p : Peer) (d : Bytes) : Peer :=
  p.drain rt (p.buffer ++ utf8Text d)

-- ============================================================ request

/-- `where`. -/
def whereOf (req : JsVal) : Except JsError JsString := do
  let op ← template rt (← req.get (js "op"))
  let alg ← req.get (js "alg")
  let alg ← template rt (if alg.isNullish then .string [] else alg)
  return op ++ js "/" ++ alg

/-- Writing a request to the peer's stdin, which may throw, and the
message that was written. -/
def write (id : Nat) (req : JsVal) (refused : Option JsError) :
    Except JsError JsString := do
  let members ← spread rt req
  let msg := objectOf ((js "id", .number (.finite id)) :: members)
  let text ← stringify rt msg
  match refused with
  | some e => throw e
  | none => return text.getD (js "undefined") ++ [newline]

/-- What a request leaves behind before it is written: its promise, its
timer and its entry in `pending`. -/
def enter (p : Peer) (place : JsString) : Peer :=
  let w : Waiter := { id := p.nextId, place }
  { p with
    nextId := p.nextId + 1
    promises := p.promises ++ [{ id := some w.id : Promise }]
    timers := p.timers ++ [w]
    pending := p.pending ++ [w] }

/-- `request(req)`. A request whose `where` cannot be written throws to
its caller, before anything has changed. -/
def request (p : Peer) (req : JsVal) (refused : Option JsError) : Peer :=
  match whereOf rt req with
  | .error _ => p
  | .ok place =>
      if p.closed then
        let gone : Outcome := .failure (p.name
          ++ js " is no longer running (" ++ place ++ js ")")
        { p with promises := p.promises ++ [⟨none, some gone⟩] }
      else
        match write rt p.nextId req refused with
        | .ok text =>
            { p.enter place with stdin := p.stdin ++ [text] }
        | .error err =>
            ((p.enter place).delete p.nextId).settle p.nextId (.failure
              (p.name ++ js ": " ++ err.message ++ js " (" ++ place
                ++ js ")"))

/-- The timer of a request fires, if it is armed. The request stays in
`pending`. -/
def timeout (p : Peer) (id : Nat) : Peer :=
  match p.timers.find? fun t => t.id = id with
  | none => p
  | some t =>
      { p with timers := without id p.timers }.resolve id (.failure
        (p.name ++ js " timed out on " ++ t.place))

-- ================================================================ end

/-- The last lines the peer wrote to its stderr. -/
def tail (p : Peer) : JsString :=
  if p.stderr.isEmpty then []
  else
    let parts := cut newline (trim p.stderr)
    let lines := parts.1 ++ [parts.2]
    newline :: [newline].intercalate (lines.drop (lines.length - 12))

/-- `waiter.reject(new Error(why))`. -/
def reject (why : JsString) (p : Peer) (w : Waiter) : Peer :=
  p.settle w.id (.failure (why ++ js " (" ++ w.place ++ js ")"))

/-- `#die(err, resolveExit, code)`, by the message of `err`. -/
def die (p : Peer) (message : JsString) (code : Option Int) : Peer :=
  let why := p.name ++ js ": " ++ message ++ p.tail
  { p.pending.foldl (reject why) { p with closed := true } with
    pending := []
    exited := p.exited.or (some code) }

end Peer

-- ================================================================ run

inductive Event
  /-- A call of `request`; writing to stdin may throw. -/
  | request (req : JsVal) (refused : Option JsError)
  | stdout (d : Bytes)
  | stderr (d : Bytes)
  | timeout (id : Nat)
  /-- The process has ended; the code is `null` after a signal. -/
  | close (code : Option Nat)
  /-- An `error` event of the process or of its stdin. -/
  | fault (err : JsError)

/-- One callback. -/
def handle (rt : Runtime) (p : Peer) : Event → Peer
  | .request req refused => p.request rt req refused
  | .stdout d => p.onStdout rt d
  | .stderr d => { p with stderr := p.stderr ++ utf8Text d }
  | .timeout id => p.timeout id
  | .close code =>
      p.die (js "exited (code " ++ code.elim (js "null") decimal ++ js ")")
        (code.map Int.ofNat)
  | .fault err => p.die err.message (some (-1))

/-- One callback, if no error has ended the run. -/
def step (rt : Runtime) (p : Peer) (e : Event) : Peer :=
  if p.thrown.isSome then p else handle rt p e

def run (rt : Runtime) (p : Peer) (events : List Event) : Peer :=
  events.foldl (step rt) p

/-- The peer as `start` leaves it. -/
def start (name : JsString) : Peer := { name }

end KxcoPostQuantum.Interop
