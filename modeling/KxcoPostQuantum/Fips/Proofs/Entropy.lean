/-
What `getEntropy` returns is what the device delivered.

`Filled` is the invariant of the loop: in front of the offset stands what
was delivered so far, each position written once, behind it the zeros the
array began with. A read that delivers keeps it at a greater offset, and
every other read ends the loop with a throw, so at most `length` reads are
made, whatever the device does (`wp_fill`). The descriptor is closed on
every path (`getEntropy_exact`).
-/
import KxcoPostQuantum.Fips.Entropy
import KxcoPostQuantum.Fips.Module

namespace KxcoPostQuantum.Fips.Entropy

open Lib (Eff)
open Lib.Buffer

variable {device : Device} {length filled fd : Nat} {s : State}

-- ============================================================ the ghost

/-- What a call delivered. -/
def Call.got : Call → Bytes
  | .read _ _ bytes => bytes
  | _ => []

/-- A call that wrote to a position. -/
def Call.writes (i : Nat) : Call → Bool
  | .read _ offset bytes => offset ≤ i && i < offset + bytes.length
  | _ => false

/-- A read of a descriptor. -/
def Call.IsRead (fd : Nat) (c : Call) : Prop :=
  ∃ offset bytes, c = .read fd offset bytes

/-- The bytes the device delivered, in order. -/
def delivered (calls : List Call) : Bytes := calls.flatMap Call.got

/-- How often a position was written. -/
def timesWritten (calls : List Call) (i : Nat) : Nat :=
  calls.countP (Call.writes i)

theorem delivered_concat (calls : List Call) (c : Call) :
    delivered (calls ++ [c]) = delivered calls ++ c.got := by
  unfold delivered
  rw [List.flatMap_append, List.flatMap_singleton]

theorem timesWritten_concat (calls : List Call) (c : Call) (i : Nat) :
    timesWritten (calls ++ [c]) i
      = timesWritten calls i + if c.writes i then 1 else 0 := by
  unfold timesWritten
  rw [List.countP_append, List.countP_singleton]

-- ============================================================ invariants

/-- The descriptor was opened and then only read from. -/
def Reading (fd : Nat) (calls : List Call) : Prop :=
  ∃ reads, calls = .opened fd :: reads ∧ ∀ c ∈ reads, c.IsRead fd

theorem Reading.concat {calls : List Call} (h : Reading fd calls)
    (offset : Nat) (bytes : Bytes) :
    Reading fd (calls ++ [.read fd offset bytes]) := by
  obtain ⟨reads, rfl, hreads⟩ := h
  refine ⟨reads ++ [.read fd offset bytes], rfl, ?_⟩
  intro c hc
  rcases List.mem_append.mp hc with hc | hc
  · exact hreads c hc
  · exact ⟨offset, bytes, List.mem_singleton.mp hc⟩

/-- The invariant of the loop. -/
structure Filled (fd length filled : Nat) (s : State) : Prop where
  le : filled ≤ length
  out : s.out = delivered s.calls ++ List.replicate (length - filled) 0
  delivered_length : (delivered s.calls).length = filled
  written : ∀ i, timesWritten s.calls i = if i < filled then 1 else 0
  reads : s.reads ≤ filled
  calls : Reading fd s.calls

/-- What holds on every path through the loop. -/
structure Safe (fd length : Nat) (s : State) : Prop where
  once : ∀ i, timesWritten s.calls i ≤ 1
  reads : s.reads ≤ length
  calls : Reading fd s.calls

theorem Filled.safe (h : Filled fd length filled s) : Safe fd length s where
  once := by
    intro i
    rw [h.written]
    split <;> omega
  reads := h.reads.trans h.le
  calls := h.calls

-- =========================================================== one read

/-- A read that delivers goes on where the last one ended: the array holds
what has been delivered so far, and each of its places was written once. -/
theorem Filled.delivered (h : Filled fd length filled s) {bytes : Bytes}
    (hle : bytes.length ≤ length - filled) (hpos : 0 < bytes.length) :
    Filled fd length (filled + bytes.length)
      { out := copyAt s.out filled bytes
        reads := s.reads + 1
        calls := s.calls ++ [.read fd filled bytes] } where
  le := by
    have := h.le
    omega
  out := by
    have hsplit : length - filled
        = bytes.length + (length - (filled + bytes.length)) := by omega
    have hcopy := copyAt_front (Entropy.delivered s.calls) bytes (0 : UInt8)
      (length - (filled + bytes.length))
    rw [h.delivered_length, ← hsplit, ← h.out] at hcopy
    rw [delivered_concat]
    exact hcopy
  delivered_length := by
    rw [delivered_concat, List.length_append, h.delivered_length]
    rfl
  written := by
    intro i
    rw [timesWritten_concat, h.written]
    show (_ + if (decide (filled ≤ i) && decide (i < filled + bytes.length))
      = true then 1 else 0) = _
    simp only [Bool.and_eq_true, decide_eq_true_eq]
    split <;> split <;> split <;> omega
  reads := by
    have := h.reads
    show s.reads + 1 ≤ filled + bytes.length
    omega
  calls := h.calls.concat filled bytes

/-- A read without data writes nothing; it is counted among the reads, and
the loop throws on it rather than asks again. -/
theorem Filled.stopped (h : Filled fd length filled s)
    (hlt : filled < length) :
    Safe fd length { s with
      reads := s.reads + 1
      calls := s.calls ++ [.read fd filled []] } where
  once := by
    intro i
    rw [timesWritten_concat]
    have hnone : (Call.read fd filled []).writes i = false := by
      show (decide (filled ≤ i) && decide (i < filled + 0)) = false
      simp only [Bool.and_eq_false_iff, decide_eq_false_iff_not]
      omega
    rw [hnone]
    exact h.safe.once i
  reads := by
    have := h.reads
    show s.reads + 1 ≤ length
    omega
  calls := h.calls.concat filled []

theorem readSync_delivered {offset requested : Nat} {bytes : Bytes}
    {hpos : 0 < bytes.length} {hle : bytes.length ≤ requested}
    (h : device.readSync s.reads requested = .delivered bytes hpos hle) :
    (readSync device fd offset requested).run s
      = (.ok (bytes.length : Int), { out := copyAt s.out offset bytes
                                     reads := s.reads + 1
                                     calls := s.calls
                                       ++ [.read fd offset bytes] }) := by
  unfold Eff.run readSync
  rw [h]

/-- What a read ends in: data, none, or an error. The device decides which,
by how often it has been read. -/
theorem wp_readSync {offset requested : Nat} {Q : Int → State → Prop}
    {E : JsError → State → Prop}
    (hdelivered : ∀ bytes : Bytes, 0 < bytes.length →
      bytes.length ≤ requested →
      Q bytes.length { out := copyAt s.out offset bytes
                       reads := s.reads + 1
                       calls := s.calls ++ [.read fd offset bytes] })
    (hnothing : ∀ n : Int, n ≤ 0 → Q n { s with
      reads := s.reads + 1, calls := s.calls ++ [.read fd offset []] })
    (hraises : ∀ e, E e { s with
      reads := s.reads + 1, calls := s.calls ++ [.read fd offset []] }) :
    Eff.wp (readSync device fd offset requested) Q E s := by
  unfold Eff.wp Eff.run readSync
  cases device.readSync s.reads requested with
  | delivered bytes hpos hle => exact hdelivered bytes hpos hle
  | nothing n hn => exact hnothing n hn
  | raises e => exact hraises e

-- ============================================================= the loop

/-- **The loop** fills the array or throws. By induction over the bytes that
are missing: each read asks for all of them and takes at least one away. -/
theorem wp_fill (h : Filled fd length filled s) :
    Eff.wp (fill device fd length filled) (fun _ => Filled fd length length)
      (fun _ => Safe fd length) s := by
  induction filled using fill.induct length generalizing s with
  | case1 filled hlt ih =>
      rw [fill, if_pos hlt, Eff.wp_bind]
      apply wp_readSync
      · intro bytes hpos hle
        have hn : ¬(bytes.length : Int) ≤ 0 := by omega
        rw [dif_neg hn]
        apply ih _ hn
        rw [Int.toNat_natCast]
        exact h.delivered hle hpos
      · intro n hn
        rw [dif_pos hn]
        exact h.stopped hlt
      · intro e
        exact h.stopped hlt
  | case2 filled hge =>
      rw [fill, if_neg hge]
      have hlength : filled = length := Nat.le_antisymm h.le (Nat.not_lt.mp hge)
      subst hlength
      exact h

/-- A device that goes on delivering lets the loop return: each read takes
at least one byte off what is missing. -/
theorem fill_returns
    (hdevice : ∀ reads requested, ∃ bytes hpos hle,
      device.readSync reads requested = .delivered bytes hpos hle) :
    Eff.wp (fill device fd length filled) (fun _ _ => True)
      (fun _ _ => False) s := by
  induction filled using fill.induct length generalizing s with
  | case1 filled hlt ih =>
      rw [fill, if_pos hlt, Eff.wp_bind]
      obtain ⟨bytes, hpos, hle, hread⟩ :=
        hdevice s.reads (length - filled)
      have hn : ¬(bytes.length : Int) ≤ 0 := by omega
      rw [Eff.wp_of_ok (readSync_delivered hread), dif_neg hn]
      exact ih _ hn
  | case2 filled hge =>
      rw [fill, if_neg hge]
      trivial

-- ======================================================== the whole call

/-- What a call of `getEntropy` ends in. -/
structure Exact (length : Nat) (r : Except JsError Bytes) (s : State) :
    Prop where
  /-- It ends after that many reads. -/
  reads : s.reads ≤ length
  /-- What it returns is what was delivered first, and each position was
  written once. -/
  returned : ∀ out, r = .ok out → out = (delivered s.calls).take length
    ∧ out.length = length ∧ ∀ i < length, timesWritten s.calls i = 1
  once : ∀ i, timesWritten s.calls i ≤ 1
  /-- Nothing was opened, or one descriptor, which was closed last. -/
  closed : (s.calls = [] ∧ ∃ e, r = .error e)
    ∨ ∃ fd reads, s.calls = .opened fd :: (reads ++ [.closed fd])
      ∧ ∀ c ∈ reads, c.IsRead fd

/-- Closing the descriptor at the end: it is the last of the calls, made
once, whether the loop has returned or thrown. -/
theorem Safe.exact (h : Safe fd length s) {r : Except JsError Bytes}
    (hr : ∀ out, r = .ok out → out = (delivered s.calls).take length
      ∧ out.length = length ∧ ∀ i < length, timesWritten s.calls i = 1) :
    Exact length r { s with calls := s.calls ++ [.closed fd] } := by
  have hdelivered : delivered (s.calls ++ [.closed fd])
      = delivered s.calls := by
    rw [delivered_concat]
    exact List.append_nil _
  have hwritten : ∀ i, timesWritten (s.calls ++ [.closed fd]) i
      = timesWritten s.calls i := fun i => timesWritten_concat _ _ i
  refine ⟨h.reads, ?_, ?_, ?_⟩
  · intro out hout
    rw [hdelivered]
    simp only [hwritten]
    exact hr out hout
  · intro i
    rw [hwritten]
    exact h.once i
  · obtain ⟨reads, hcalls, hreads⟩ := h.calls
    refine Or.inr ⟨fd, reads, ?_, hreads⟩
    rw [hcalls]
    rfl

theorem Exact.nothing_opened {e : JsError} (hs : s.calls = [])
    (hreads : s.reads = 0) : Exact length (.error e) s where
  reads := by omega
  returned := nofun
  once := by
    intro i
    rw [hs]
    exact Nat.zero_le 1
  closed := Or.inl ⟨hs, e, rfl⟩

/-- What the loop begins with. -/
theorem filled_zero (fd length : Nat) :
    Filled fd length 0 { out := List.replicate length 0
                         calls := [.opened fd] } where
  le := Nat.zero_le _
  out := rfl
  delivered_length := rfl
  written := fun _ => rfl
  reads := Nat.le_refl 0
  calls := ⟨[], rfl, nofun⟩

theorem Filled.returned (h : Filled fd length length s) :
    s.out = (Entropy.delivered s.calls).take length ∧ s.out.length = length
      ∧ ∀ i < length, timesWritten s.calls i = 1 := by
  have hout : s.out = Entropy.delivered s.calls := by
    rw [h.out, Nat.sub_self]
    exact List.append_nil _
  refine ⟨?_, ?_, ?_⟩
  · rw [hout, List.take_of_length_le h.delivered_length.le]
  · rw [hout, h.delivered_length]
  · intro i hi
    rw [h.written, if_pos hi]

theorem wp_getEntropy (device : Device) (length : Nat) :
    Eff.wp (getEntropy device length) (fun out => Exact length (.ok out))
      (fun e => Exact length (.error e)) {} := by
  unfold getEntropy
  rw [Eff.wp_bind]
  unfold Eff.wp Eff.run newUint8Array
  cases device.newUint8Array length with
  | error e => exact .nothing_opened rfl rfl
  | ok _ =>
      show Eff.wp _ _ _ _
      rw [Eff.wp_bind]
      unfold Eff.wp Eff.run openSync
      cases device.openSync with
      | error e => exact .nothing_opened rfl rfl
      | ok fd =>
          show Eff.wp _ _ _ _
          rw [Eff.wp_bind, Eff.wp_tryFinally]
          refine Eff.wp_mono (wp_fill (filled_zero fd length)) ?_ ?_
          · intro _ s h
            unfold Eff.wp Eff.run closeSync
            cases device.closeSync with
            | error e => exact h.safe.exact nofun
            | ok _ =>
                apply h.safe.exact
                rintro _ ⟨⟩
                exact h.returned
          · intro e s h
            unfold Eff.wp Eff.run closeSync
            cases device.closeSync with
            | error e' => exact h.exact nofun
            | ok _ => exact h.exact nofun

/-- **No unread bytes.** Whatever the device does, `getEntropy` ends; what
it returns is what the device delivered, each position written once; and
the descriptor is closed on every path. -/
theorem getEntropy_exact (device : Device) (length : Nat) :
    Exact length ((getEntropy device length).run {}).1
      ((getEntropy device length).run {}).2 :=
  Eff.run_of_wp (wp_getEntropy device length)

/-- It returns when nothing fails. A device that delivers at least one byte
a read fills the array in at most `length` reads, so the loop has an end. -/
theorem getEntropy_returns {length : Nat}
    (harray : device.newUint8Array length = .ok ())
    (hopen : device.openSync = .ok fd) (hclose : device.closeSync = .ok ())
    (hdevice : ∀ reads requested, ∃ bytes hpos hle,
      device.readSync reads requested = .delivered bytes hpos hle) :
    ∃ out, ((getEntropy device length).run {}).1 = .ok out := by
  have hwp : Eff.wp (getEntropy device length) (fun _ _ => True)
      (fun _ _ => False) {} := by
    unfold getEntropy
    rw [Eff.wp_bind]
    unfold Eff.wp Eff.run newUint8Array
    rw [harray]
    show Eff.wp _ _ _ _
    rw [Eff.wp_bind]
    unfold Eff.wp Eff.run openSync
    rw [hopen]
    show Eff.wp _ _ _ _
    rw [Eff.wp_bind, Eff.wp_tryFinally]
    refine Eff.wp_mono (fill_returns hdevice) ?_ fun _ _ h => h.elim
    intro _ s _
    unfold Eff.wp Eff.run closeSync
    rw [hclose]
    trivial
  have hrun := Eff.run_of_wp (P := fun r _ => ∃ out, r = .ok out)
    (Eff.wp_mono hwp (fun out _ _ => ⟨out, rfl⟩) fun _ _ h => h.elim)
  exact hrun

-- ============================================================ the module

/-- What `getEntropy` answers the module, whose calls of it run on devices
of their own. -/
def answer (devices : Nat → Device) (t length : Nat) :
    Except JsError {b : Bytes // b.length = length} :=
  match h : ((getEntropy (devices t) length).run {}).1 with
  | .ok out =>
      .ok ⟨out, ((Eff.run_of_wp (wp_getEntropy (devices t) length)).returned
        out h).2.1⟩
  | .error e => .error e

/-- **The module's entropy** is what the device delivered: a buffer that
`getEntropy` gives to module.js holds it. -/
theorem wp_getEntropy_module (env : Env) (devices : Nat → Device)
    (length : Nat) (w : World) :
    Eff.wp (Fips.getEntropy { env with getEntropy := answer devices } length)
      (fun l w' => w'.heap.read l = (delivered
        ((getEntropy (devices w.clock) length).run {}).2.calls).take length)
      (fun _ _ => True) w := by
  unfold Fips.getEntropy
  rw [Eff.wp_bind]
  apply wp_askLogged
  · intro b hb
    rw [wp_newMarked]
    show ((w.heap.alloc b.1).2).read w.heap.size = _
    rw [Lib.Heap.read_alloc_self]
    have hexact := Eff.run_of_wp (wp_getEntropy (devices w.clock) length)
    have hanswer : answer devices w.clock length = .ok b := hb
    unfold answer at hanswer
    split at hanswer
    next out hout =>
      cases hanswer
      exact (hexact.returned out hout).1
    next => cases hanswer
  · intro e _
    trivial

end KxcoPostQuantum.Fips.Entropy
