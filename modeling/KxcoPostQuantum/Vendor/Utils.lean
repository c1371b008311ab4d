/-
vendor/post-quantum/utils.js: checks, masks, and the coders keys,
ciphertexts and signatures are put together with.

A run of the lattice code ends in a value, in a throw or, where the code
samples until it has enough, not at all: `Stop.outOfFuel` is what a run
comes to that has been cut off before.

`splitCoder` takes fields of any types, so its values are tuples; a raw
length is a field that is copied.

Typed arrays are values here, so what `cleanBytes` wipes is not seen.
-/
import KxcoPostQuantum.Js.Int32
import KxcoPostQuantum.Lib.ConstantTime

namespace KxcoPostQuantum.Vendor

-- ================================================================ runs

/-- Why a run has not returned. -/
inductive Stop
  | thrown (e : JsError)
  | outOfFuel
  deriving DecidableEq

/-- A run of the lattice code. -/
abbrev Run (α : Type) : Type := Except Stop α

/-- `throw e`. -/
def raise {α : Type} (e : JsError) : Run α := .error (.thrown e)

/-- A run of two parts returns where both do. -/
theorem run_bind_ok {ε α β : Type} {x : Except ε α} {f : α → Except ε β}
    {b : β} :
    (x >>= f) = .ok b ↔ ∃ a, x = .ok a ∧ f a = .ok b := by
  cases x with
  | error e => exact iff_of_false nofun fun ⟨_, h, _⟩ => nomatch h
  | ok a =>
      constructor
      · exact fun h => ⟨a, rfl, h⟩
      · intro hx
        obtain ⟨_, h, h'⟩ := hx
        cases h
        exact h'

/-- It returns where the second part does, if the first is known to. -/
theorem returns_bind {ε α β : Type} {x : Except ε α} {f : α → Except ε β} {a : α}
    (hx : x = .ok a) (hf : ∃ b, f a = .ok b) : ∃ b, (x >>= f) = .ok b := by
  obtain ⟨b, hb⟩ := hf
  exact ⟨b, run_bind_ok.mpr ⟨a, hx, hb⟩⟩

/-- Where the second part always returns, it returns where the first
does. -/
theorem run_map_ok {ε α β : Type} {x : Except ε α} {f : α → β} {b : β} :
    (do let a ← x; return f a) = .ok b ↔ ∃ a, x = .ok a ∧ f a = b := by
  rw [run_bind_ok]
  constructor
  · rintro ⟨a, ha, hb⟩
    exact ⟨a, ha, Except.ok.inj hb⟩
  · rintro ⟨a, ha, rfl⟩
    exact ⟨a, ha, rfl⟩

/-- The run does not throw; it may not return either. -/
def Quiet {α : Type} (x : Run α) : Prop := ∀ e, x ≠ raise e

section

variable {α β : Type} {x : Run α} {f : α → Run β}

/-- Returning is not throwing. -/
theorem quiet_ok (a : α) : Quiet (.ok a : Run α) := fun _ h => by cases h

/-- A run that returns is quiet. -/
theorem quiet_of_ok {a : α} (h : x = .ok a) : Quiet x := by
  rw [h]
  exact quiet_ok a

/-- A quiet run and what follows it are quiet if each is. -/
theorem Quiet.bind (hx : Quiet x) (hf : ∀ a, x = .ok a → Quiet (f a)) :
    Quiet (x >>= f) := by
  cases x with
  | ok a => exact hf a rfl
  | error e =>
      intro e' h
      cases h
      exact hx e' rfl

/-- A quiet body makes a quiet `map`. -/
theorem quiet_mapM {l : List α} (h : ∀ a ∈ l, Quiet (f a)) :
    Quiet (l.mapM f) := by
  induction l with
  | nil => exact quiet_ok []
  | cons a l ih =>
      rw [List.mapM_cons]
      apply (h a List.mem_cons_self).bind
      intro b _
      apply (ih fun a ha => h a (List.mem_cons_of_mem _ ha)).bind
      intro bs _
      exact quiet_ok _

/-- A quiet body makes a quiet loop. -/
theorem quiet_loopM {n : Nat} {body : Nat → α → Run α} {s : α}
    (h : ∀ i < n, ∀ t, Quiet (body i t)) : Quiet (Lib.loopM n body s) := by
  induction n with
  | zero => exact quiet_ok s
  | succ n ih =>
      rw [Lib.loopM_succ]
      apply (ih fun i hi => h i (Nat.lt_succ_of_lt hi)).bind
      intro t _
      exact h n n.lt_succ_self t

end

/-- Rejection sampling: draw blocks until what has been gathered is
`done`. -/
def sample {σ : Type} (done : σ → Bool) (gather : Bytes → σ → Run σ)
    (xof : Nat → Bytes) : (fuel call : Nat) → σ → Run σ
  | 0, _, s => if done s then .ok s else .error .outOfFuel
  | fuel + 1, call, s =>
      if done s then .ok s
      else do sample done gather xof fuel (call + 1) (← gather (xof call) s)

section

variable {σ : Type} {done : σ → Bool} {gather : Bytes → σ → Run σ}
  {xof : Nat → Bytes} {fuel call : Nat} {s t : σ}

/-- What every block keeps holds of what has been gathered in the end. By
induction over the fuel; that it was enough is what returning says. -/
theorem sample_induction {P : σ → Prop} (hstart : P s)
    (hgather : ∀ b s t, P s → done s = false → gather b s = .ok t → P t)
    (h : sample done gather xof fuel call s = .ok t) :
    P t ∧ done t = true := by
  induction fuel generalizing call s with
  | zero =>
      unfold sample at h
      split at h
      next hdone =>
        cases h
        exact ⟨hstart, hdone⟩
      next => cases h
  | succ fuel ih =>
      unfold sample at h
      split at h
      next hdone =>
        cases h
        exact ⟨hstart, hdone⟩
      next hdone =>
        obtain ⟨u, hu, h⟩ := run_bind_ok.mp h
        exact ih (hgather _ s u hstart (Bool.not_eq_true _ ▸ hdone) hu) h

/-- With more fuel a run that returns returns the same. So the fuel is no
part of what a sampler computes, and two runs with different fuel can be
compared. -/
theorem sample_mono {fuel' : Nat} (hle : fuel ≤ fuel')
    (h : sample done gather xof fuel call s = .ok t) :
    sample done gather xof fuel' call s = .ok t := by
  induction fuel generalizing fuel' call s with
  | zero =>
      unfold sample at h
      split at h
      next hdone =>
        cases h
        cases fuel' with
        | zero => rw [sample, if_pos hdone]
        | succ fuel' => rw [sample, if_pos hdone]
      next => cases h
  | succ fuel ih =>
      cases fuel' with
      | zero => omega
      | succ fuel' =>
          unfold sample at h ⊢
          split at h
          next hdone => rw [if_pos hdone, h]
          next hdone =>
            obtain ⟨u, hu, h⟩ := run_bind_ok.mp h
            rw [if_neg hdone]
            exact run_bind_ok.mpr ⟨u, hu, ih (Nat.le_of_succ_le_succ hle) h⟩

/-- A quiet body makes a quiet sampler, which may draw for ever. -/
theorem quiet_sample (h : ∀ call s, Quiet (gather (xof call) s)) :
    Quiet (sample done gather xof fuel call s) := by
  induction fuel generalizing call s with
  | zero =>
      unfold sample
      split
      next => exact quiet_ok s
      next => exact fun _ h => by cases h
  | succ fuel ih =>
      unfold sample
      split
      next => exact quiet_ok s
      next => exact (h call s).bind fun t _ => ih

end

-- ============================================================== checks

/-- `atitle`. -/
def atitle (title : JsString) : JsString :=
  if title.isEmpty then [] else js "\"" ++ title ++ js "\" "

/-- `abytes`, of a byte array. -/
def abytes (value : Bytes) (length : Nat) (title : JsString) : Run Unit :=
  if value.length = length then .ok ()
  else raise (rangeError (atitle title ++ js "expected Uint8Array of length "
    ++ decimal length ++ js ", got length=" ++ decimal value.length))

/-- The length is what is checked of bytes. -/
theorem abytes_ok {value : Bytes} {length : Nat} {title : JsString} :
    abytes value length title = .ok () ↔ value.length = length := by
  unfold abytes raise
  split
  next h => exact iff_of_true rfl h
  next h => exact iff_of_false nofun h

/-- `equalBytes`. -/
def equalBytes (a b : Bytes) : Bool :=
  if a.length ≠ b.length then false
  else ((a.zip b).foldl (fun diff (x, y) => diff ||| (x ^^^ y)) 0) == 0

/-- `~a`. -/
def bitNot (a : Int) : Int := -toInt32 a - 1

/-- A mask with the lowest bits set. -/
def lowMask (bits : Nat) : Int :=
  if bits = 32 then 0xffffffff else ushr (bitNot (shl (-1) bits)) 0

/-- `getMask`. -/
def getMask (bits : Nat) : Run Int :=
  if 32 < bits then
    raise (rangeError (js "\"bits\" expected <= 32, got " ++ decimal bits))
  else .ok (lowMask bits)

-- ============================================================== coders

/-- A coder of values as byte strings of one length. -/
structure Coder (α : Type) where
  bytesLen : Nat
  encode : α → Run Bytes
  decode : Bytes → Run α

/-- The fields of a `splitCoder`; `raw` is a length. -/
inductive Fields : Type → Type 1
  | nil : Fields Unit
  | raw {α : Type} (length : Nat) (rest : Fields α) : Fields (Bytes × α)
  | coder {α β : Type} (c : Coder β) (rest : Fields α) : Fields (β × α)

namespace Fields

def bytesLen : {α : Type} → Fields α → Nat
  | _, nil => 0
  | _, raw length rest => length + rest.bytesLen
  | _, coder c rest => c.bytesLen + rest.bytesLen

/-- The pieces of a `splitCoder`, each checked for its length. -/
def encode (label : JsString) : {α : Type} → Fields α → α → Run Bytes
  | _, nil, () => .ok []
  | _, raw length rest, (b, bufs) => do
      abytes b length label
      return b ++ (← rest.encode label bufs)
  | _, coder c rest, (v, bufs) => do
      let b ← c.encode v
      abytes b c.bytesLen label
      return b ++ (← rest.encode label bufs)

def decode : {α : Type} → Fields α → Bytes → Run α
  | _, nil, _ => .ok ()
  | _, raw length rest, buf => do
      return (buf.take length, ← rest.decode (buf.drop length))
  | _, coder c rest, buf => do
      let v ← c.decode (buf.take c.bytesLen)
      return (v, ← rest.decode (buf.drop c.bytesLen))

end Fields

/-- `splitCoder`. -/
def splitCoder {α : Type} (label : JsString) (fields : Fields α) : Coder α where
  bytesLen := fields.bytesLen
  encode := fields.encode label
  decode buf := do
    abytes buf fields.bytesLen label
    fields.decode buf

/-- `vecCoder`. -/
def vecCoder {α : Type} (c : Coder α) (vecLen : Nat) : Coder (List α) where
  bytesLen := vecLen * c.bytesLen
  encode u := do
    if u.length ≠ vecLen then
      raise (rangeError (js "vecCoder.encode: wrong length="
        ++ decimal u.length ++ js ". Expected: " ++ decimal vecLen))
    return (← u.mapM c.encode).flatten
  decode a := do
    abytes a (vecLen * c.bytesLen) []
    (List.range vecLen).mapM fun i =>
      c.decode ((a.drop (i * c.bytesLen)).take c.bytesLen)

-- ============================================================ messages

/-- `getMessage`. -/
def getMessage (msg ctx : Bytes) : Run Bytes :=
  if 255 < ctx.length then
    raise (rangeError (js "context should be 255 bytes or less"))
  else .ok ([0, ctx.length.toUInt8] ++ ctx ++ msg)

-- =============================================================== facts

/-- `equalBytes` decides whether bytes are equal. -/
theorem equalBytes_iff {a b : Bytes} : equalBytes a b = true ↔ a = b :=
  Lib.ConstantTime.compared_iff beq_iff_eq

/-- Up to 32 bits there is a mask. -/
theorem getMask_ok {bits : Nat} (h : bits ≤ 32) :
    getMask bits = .ok (lowMask bits) := by
  unfold getMask
  rw [if_neg (by omega)]

/-- Below 32 bits it is the number of so many ones. -/
theorem lowMask_of_lt {bits : Nat} (h : bits < 32) :
    lowMask bits = 2 ^ bits - 1 := by
  have hmask : ∀ bits < 32, lowMask bits = 2 ^ bits - 1 := by decide
  exact hmask bits h

end KxcoPostQuantum.Vendor
