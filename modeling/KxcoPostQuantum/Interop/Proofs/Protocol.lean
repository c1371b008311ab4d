/-
The request protocol of `Peer` over any run.

# Order

First what `resolve` does to one promise. The invariant `Inv` says what a
state owes its promises: no two requests share an id, a reply carries the
id of the request it settles, and a promise that is not settled is waited
for and has its timer. Each callback keeps it, and keeps every settled
promise (`Keeps`). What a line can do to a state is said once, by
`Dispatched`.

# The line that throws

The handler reads `msg.id` outside the `try` around `JSON.parse`. Of all
the values a line can stand for only `null` has no members to read, so
the handler throws exactly on a line that is `null` (`drain_throws`), and
the whole protocol holds of the runs without one.
-/
import KxcoPostQuantum.Interop.Peer

namespace KxcoPostQuantum.Interop

open Lib

variable {rt : Runtime} {p p' : Peer} {id : Nat} {outcome : Outcome}

-- ========================================================== promises

namespace Promise

variable {q : Promise}

/-- Only the first `resolve` counts: a settled promise stays as it is. -/
theorem resolve_settled {o : Outcome} (h : q.outcome = some o) :
    q.resolve id outcome = q := by
  rw [resolve, h]
  exact if_neg fun h' => absurd h'.2 Bool.false_ne_true

/-- Resolving a promise leaves the request it is of. -/
@[simp] theorem resolve_id : (q.resolve id outcome).id = q.id := by
  rw [resolve]
  split <;> rfl

/-- A promise that stays unsettled is another request's, and is left as
it was. -/
theorem resolve_unsettled (h : (q.resolve id outcome).outcome = none) :
    q.resolve id outcome = q ∧ q.id ≠ some id := by
  rw [resolve] at h ⊢
  split at h
  next => cases h
  next hc =>
    rw [if_neg hc]
    exact ⟨rfl, fun hid => hc ⟨hid, by rw [h]; rfl⟩⟩

/-- An outcome after a `resolve` was there before or is the one just given,
and then to the promise of that request. -/
theorem resolve_outcome {o : Outcome}
    (h : (q.resolve id outcome).outcome = some o) :
    q.outcome = some o ∨ q.id = some id ∧ o = outcome := by
  rw [resolve] at h
  split at h
  next hc =>
    cases h
    exact Or.inr ⟨hc.1, rfl⟩
  next => exact Or.inl h

end Promise

-- ========================================================= invariant

/-- The message is the reply to request `id`. -/
def Carries (id : Nat) (msg : JsVal) : Prop :=
  msg.get (js "id") = .ok (.number (.finite id))

/-- What the pending requests and their promises are to each other. -/
structure Waiting (p : Peer) : Prop where
  fresh : ∀ q ∈ p.promises, ∀ id, q.id = some id → id < p.nextId
  /-- No two requests share an id. -/
  distinct : (p.promises.filterMap (·.id)).Nodup
  /-- A reply settles the request whose id it carries. -/
  own : ∀ q ∈ p.promises, ∀ msg, q.outcome = some (.reply msg) →
    ∃ id, q.id = some id ∧ Carries id msg
  /-- What is not settled is waited for, and its timer is armed. -/
  armed : ∀ q ∈ p.promises, q.outcome = none →
    ∃ w ∈ p.pending, w ∈ p.timers ∧ q.id = some w.id

structure Inv (p : Peer) : Prop extends Waiting p where
  /-- Nothing waits for a peer that is gone. -/
  closed : p.closed = true → p.pending = []

/-- The promises settled in one state are the same in the other. -/
def Keeps (p p' : Peer) : Prop :=
  ∀ (i : Nat) (q : Promise) (o : Outcome), p.promises[i]? = some q →
    q.outcome = some o → p'.promises[i]? = some q

/-- Every state keeps its own settled promises. -/
theorem Keeps.refl (p : Peer) : Keeps p p := fun _ _ _ h _ => h

/-- Two steps that keep the settled promises keep them together. -/
theorem Keeps.trans {a b c : Peer} (h : Keeps a b) (h' : Keeps b c) :
    Keeps a c :=
  fun i q o hq ho => h' i q o (h i q o hq ho) ho

/-- Resolving a promise keeps the settled ones. -/
theorem keeps_resolve (h : p'.promises = p.promises) :
    Keeps p (p'.resolve id outcome) := by
  intro i q o hq ho
  rw [Peer.resolve, h, List.getElem?_map, hq, Option.map_some,
    Promise.resolve_settled ho]

/-- New promises are entered behind the old ones, which stay as they are. -/
theorem keeps_append {new : List Promise}
    (h : p'.promises = p.promises ++ new) : Keeps p p' := by
  intro i q o hq ho
  obtain ⟨hi, -⟩ := List.getElem?_eq_some_iff.mp hq
  rw [h, List.getElem?_append_left hi, hq]

/-- The waiters without a request are those with another id. -/
theorem mem_without {w : Waiter} {ws : List Waiter} :
    w ∈ Peer.without id ws ↔ w ∈ ws ∧ w.id ≠ id := by
  rw [Peer.without, List.mem_filter, decide_eq_true_iff]

/-- Settling one request leaves the others waiting, as long as they are
still waited for. -/
theorem Waiting.resolve {pending timers : List Waiter} (h : Waiting p)
    (ho : ∀ msg, outcome = .reply msg → Carries id msg)
    (hp : ∀ w ∈ p.pending, w.id ≠ id → w ∈ pending)
    (ht : ∀ w ∈ p.timers, w.id ≠ id → w ∈ timers) :
    Waiting ({ p with pending, timers }.resolve id outcome) where
  fresh := by
    intro q hq id' hid
    obtain ⟨q', hq', rfl⟩ := List.mem_map.mp hq
    rw [Promise.resolve_id] at hid
    exact h.fresh q' hq' id' hid
  distinct := by
    rw [Peer.resolve, List.filterMap_map]
    refine cast (congrArg List.Nodup (List.filterMap_congr ?_)) h.distinct
    exact fun q _ => Promise.resolve_id.symm
  own := by
    intro q hq msg hmsg
    obtain ⟨q', hq', rfl⟩ := List.mem_map.mp hq
    rw [Promise.resolve_id]
    rcases Promise.resolve_outcome hmsg with hold | hnew
    · exact h.own q' hq' msg hold
    · exact ⟨id, hnew.1, ho msg hnew.2.symm⟩
  armed := by
    intro q hq hnone
    obtain ⟨q', hq', rfl⟩ := List.mem_map.mp hq
    obtain ⟨hsame, hid⟩ := Promise.resolve_unsettled hnone
    rw [hsame] at hnone ⊢
    obtain ⟨w, hw, hw', hwid⟩ := h.armed q' hq' hnone
    have hne : w.id ≠ id := fun heq => hid (heq ▸ hwid)
    exact ⟨w, hp w hw hne, ht w hw' hne, hwid⟩

-- ============================================================ stdout

/-- The line stands for `null`. -/
def IsNull (line : JsString) : Prop := Json.parse (trim line) = some .null

/-- What a line can do to a state. -/
inductive Dispatched (p : Peer) : Peer → Prop
  /-- It is blank, or answers no request that is waited for. -/
  | ignored : Dispatched p p
  /-- It is not JSON. -/
  | noted (text : JsString) : Dispatched p { p with stderr := text }
  | replied {w : Waiter} {msg : JsVal} (hw : w ∈ p.pending)
      (hmsg : Carries w.id msg) :
      Dispatched p ((p.delete w.id).settle w.id (.reply msg))

/-- The `id` of what a line stands for can be read, unless it is
`null`. -/
theorem get_toValue (rt : Runtime) (j : Json) (k : JsString) (h : j ≠ .null) :
    ∃ v, (toValue rt j).get k = .ok v := by
  have hplain := plain_toValue rt j
  cases j with
  | null => exact absurd rfl h
  | bool b => exact ⟨_, by rw [toValue]; rfl⟩
  | number literal => exact ⟨_, by rw [toValue]; rfl⟩
  | string s => exact ⟨_, by rw [toValue]; rfl⟩
  | array elems => exact ⟨_, by rw [toValue]; rfl⟩
  | object members =>
      rw [toValue, objectOf] at hplain ⊢
      obtain ⟨v, hv, -⟩ := hplain.get k
      exact ⟨v, hv⟩

/-- `===` with a number that is no `NaN` holds of that number alone. -/
theorem strictEquals_finite {v : JsVal} {n : ℚ} :
    v.strictEquals (.number (.finite n)) = true
      ↔ v = .number (.finite n) := by
  cases v with
  | number m => cases m <;> simp [JsVal.strictEquals]
  | _ => simp [JsVal.strictEquals]

/-- A line of `null` throws. -/
theorem dispatch_isNull (rt : Runtime) {line : JsString} (h : IsNull line) :
    ∃ e, p.dispatch rt line = .error e := by
  have hne : (trim line).isEmpty = false := by
    cases hline : trim line with
    | nil =>
        rw [IsNull, hline] at h
        cases h
    | cons c rest => rfl
  simp only [Peer.dispatch, hne, Bool.false_eq_true, if_false, jsonParse,
    show Json.parse (trim line) = some .null from h, toValue]
  exact ⟨_, rfl⟩

/-- Every other line returns, and does one of the three things of
`Dispatched`. -/
theorem dispatch_cases (rt : Runtime) {line : JsString} (h : ¬IsNull line) :
    ∃ p', p.dispatch rt line = .ok p' ∧ Dispatched p p' := by
  simp only [Peer.dispatch, jsonParse]
  split
  next => exact ⟨_, rfl, .ignored⟩
  next =>
    cases hj : Json.parse (trim line) with
    | none => exact ⟨_, rfl, .noted _⟩
    | some j =>
        obtain ⟨key, hkey⟩ := get_toValue rt j (js "id")
          fun hnull => h (by rw [IsNull, hj, hnull])
        simp only [hkey]
        cases hw : p.waiter key with
        | none => exact ⟨_, by simp only [bind, Except.bind, hw]; rfl, .ignored⟩
        | some w =>
            refine ⟨_, by simp only [bind, Except.bind, hw]; rfl,
              .replied (List.mem_of_find?_eq_some hw) ?_⟩
            have heq := List.find?_some hw
            rw [Carries, hkey, strictEquals_finite.mp heq]

/-- A line keeps the invariant: it settles the promise whose id it carries,
if that is waited for, and changes no other. -/
theorem Dispatched.inv (hd : Dispatched p p') (h : Inv p) : Inv p' := by
  cases hd with
  | ignored => exact h
  | noted text => exact ⟨⟨h.fresh, h.distinct, h.own, h.armed⟩, h.closed⟩
  | replied hw hmsg =>
      constructor
      · refine h.toWaiting.resolve ?_ ?_ ?_
        · intro msg' hmsg'
          cases hmsg'
          exact hmsg
        · exact fun v hv hne => mem_without.mpr ⟨hv, hne⟩
        · exact fun v hv hne => mem_without.mpr ⟨hv, hne⟩
      · intro hclosed
        rw [h.closed hclosed] at hw
        cases hw

/-- A line keeps the settled promises. -/
theorem Dispatched.keeps (hd : Dispatched p p') : Keeps p p' := by
  cases hd with
  | ignored => exact Keeps.refl p
  | noted text => exact Keeps.refl p
  | replied hw hmsg => exact keeps_resolve rfl

/-- A line is all that leaves the buffer, and it does not come back. -/
theorem Dispatched.stream (hd : Dispatched p p') :
    p'.buffer = p.buffer ∧ p'.lines = p.lines ∧ p'.thrown = p.thrown := by
  cases hd <;> exact ⟨rfl, rfl, rfl⟩

/-- The loop's rounds, for a property each of them keeps. -/
theorem drain_keeps (p : Peer) (buffer : JsString) :
    Keeps p (p.drain rt buffer) := by
  fun_induction Peer.drain rt p buffer with
  | case1 p buffer hnone => exact Keeps.refl p
  | case2 p buffer line rest hsome p₁ p₂ hdispatch ih =>
      refine Keeps.trans (b := p₁) (Keeps.refl p) (Keeps.trans ?_ ih)
      by_cases hnull : IsNull line
      · obtain ⟨e, he⟩ := dispatch_isNull rt (p := p₁) hnull
        cases he.symm.trans hdispatch
      · obtain ⟨p', hp', hd⟩ := dispatch_cases rt (p := p₁) hnull
        cases hp'.symm.trans hdispatch
        exact hd.keeps
  | case3 p buffer line rest hsome p₁ e hdispatch => exact Keeps.refl p

/-- **The loop.** Without a line of `null` in it the whole buffer is read:
its lines are taken off in their order and its rest stays. -/
theorem drain_harmless (rt : Runtime) (p : Peer) (buffer : JsString)
    (hline : ∀ line ∈ (cut newline buffer).1, ¬IsNull line) :
    (Inv p → Inv (p.drain rt buffer))
      ∧ (p.drain rt buffer).lines = p.lines ++ (cut newline buffer).1
      ∧ (p.drain rt buffer).buffer = (cut newline buffer).2
      ∧ (p.drain rt buffer).thrown = p.thrown := by
  fun_induction Peer.drain rt p buffer with
  | case1 p buffer hnone =>
      rw [cut_of_none hnone, List.append_nil]
      exact ⟨fun h => ⟨⟨h.fresh, h.distinct, h.own, h.armed⟩, h.closed⟩,
        rfl, rfl, rfl⟩
  | case2 p buffer line rest hsome p₁ p₂ hdispatch ih =>
      rw [cut_of_some hsome] at hline ⊢
      rw [List.forall_mem_cons] at hline
      obtain ⟨p', hp', hd⟩ := dispatch_cases rt (p := p₁) hline.1
      cases hp'.symm.trans hdispatch
      obtain ⟨hinv, hlines, hbuffer, hthrown⟩ := ih hline.2
      obtain ⟨-, hlines', hthrown'⟩ := hd.stream
      refine ⟨fun h => hinv (hd.inv ?_), ?_, hbuffer, hthrown.trans hthrown'⟩
      · exact ⟨⟨h.fresh, h.distinct, h.own, h.armed⟩, h.closed⟩
      · rw [hlines, hlines', List.append_assoc]
        rfl
  | case3 p buffer line rest hsome p₁ e hdispatch =>
      rw [cut_of_some hsome, List.forall_mem_cons] at hline
      obtain ⟨p', hp', -⟩ := dispatch_cases rt (p := p₁) hline.1
      cases hp'.symm.trans hdispatch

/-- A line of `null` ends the run, whatever lines stand in front of it. -/
theorem drain_throws (rt : Runtime) (p : Peer) (buffer : JsString)
    (hline : ∃ line ∈ (cut newline buffer).1, IsNull line) :
    (p.drain rt buffer).thrown.isSome = true := by
  fun_induction Peer.drain rt p buffer with
  | case1 p buffer hnone =>
      rw [cut_of_none hnone] at hline
      obtain ⟨line, hmem, -⟩ := hline
      cases hmem
  | case2 p buffer line rest hsome p₁ p₂ hdispatch ih =>
      apply ih
      rw [cut_of_some hsome] at hline
      obtain ⟨line', hmem, hnull⟩ := hline
      rcases List.mem_cons.mp hmem with rfl | hmem
      · obtain ⟨e, he⟩ := dispatch_isNull rt (p := p₁) hnull
        cases he.symm.trans hdispatch
      · exact ⟨line', hmem, hnull⟩
  | case3 p buffer line rest hsome p₁ e hdispatch => rfl

-- =========================================================== requests

/-- A new promise with its waiter and its timer. Its number is above those
of all promises there are, so nothing that waits for one of them waits for
it. -/
theorem Waiting.enter (h : Waiting p) (place : JsString) :
    Waiting (p.enter place) where
  fresh := by
    intro q hq id hid
    rcases List.mem_append.mp hq with hq | hq
    · exact Nat.lt_succ_of_lt (h.fresh q hq id hid)
    · rw [List.mem_singleton.mp hq] at hid
      cases hid
      exact Nat.lt_succ_self _
  distinct := by
    rw [Peer.enter, List.filterMap_append]
    refine List.nodup_append.mpr ⟨h.distinct, List.nodup_singleton _, ?_⟩
    intro id hid id' hid' heq
    obtain ⟨q, hq, hqid⟩ := List.mem_filterMap.mp hid
    rw [List.mem_singleton.mp hid'] at heq
    exact absurd (h.fresh q hq id hqid) (heq ▸ Nat.lt_irrefl _)
  own := by
    intro q hq msg hmsg
    rcases List.mem_append.mp hq with hq | hq
    · exact h.own q hq msg hmsg
    · rw [List.mem_singleton.mp hq] at hmsg
      cases hmsg
  armed := by
    intro q hq hnone
    rcases List.mem_append.mp hq with hq | hq
    · obtain ⟨w, hw, hw', hid⟩ := h.armed q hq hnone
      exact ⟨w, List.mem_append_left _ hw, List.mem_append_left _ hw', hid⟩
    · rw [List.mem_singleton.mp hq]
      exact ⟨_, List.mem_append_right _ List.mem_cons_self,
        List.mem_append_right _ List.mem_cons_self, rfl⟩

/-- The promise of a request that is not made is settled from the
start. -/
theorem Waiting.refuse (h : Waiting p) (error : JsString) :
    Waiting { p with
      promises := p.promises ++ [⟨none, some (.failure error)⟩] } where
  fresh := by
    intro q hq id hid
    rcases List.mem_append.mp hq with hq | hq
    · exact h.fresh q hq id hid
    · rw [List.mem_singleton.mp hq] at hid
      cases hid
  distinct := by
    rw [List.filterMap_append]
    exact (List.append_nil _).symm ▸ h.distinct
  own := by
    intro q hq msg hmsg
    rcases List.mem_append.mp hq with hq | hq
    · exact h.own q hq msg hmsg
    · rw [List.mem_singleton.mp hq] at hmsg
      cases hmsg
  armed := by
    intro q hq hnone
    rcases List.mem_append.mp hq with hq | hq
    · exact h.armed q hq hnone
    · rw [List.mem_singleton.mp hq] at hnone
      cases hnone

/-- What a request can do to a state. -/
inductive Requested (p : Peer) : Peer → Prop
  /-- It has thrown to its caller. -/
  | raised : Requested p p
  /-- The peer is gone. -/
  | refused (error : JsString) :
      Requested p
        { p with promises := p.promises ++ [⟨none, some (.failure error)⟩] }
  | sent (hopen : p.closed = false) (place text : JsString) :
      Requested p { p.enter place with stdin := p.stdin ++ [text] }
  /-- It could not be written. -/
  | failed (hopen : p.closed = false) (place error : JsString) :
      Requested p
        (((p.enter place).delete p.nextId).settle p.nextId (.failure error))

/-- A request does one of the three things of `Requested`, whatever is asked
and whatever stdin says to it. -/
theorem request_cases (rt : Runtime) (req : JsVal) (refused : Option JsError) :
    Requested p (p.request rt req refused) := by
  rw [Peer.request]
  split
  next => exact .raised
  next place hplace =>
    split
    next => exact .refused _
    next hopen =>
      have hopen := Bool.eq_false_iff.mpr hopen
      split
      next text hwrite => exact .sent hopen place text
      next err hwrite => exact .failed hopen place _

/-- A request keeps the invariant: it has a new id and is waited for, or it
fails at once, and then nothing waits for it. -/
theorem Requested.inv (hr : Requested p p') (h : Inv p) : Inv p' := by
  cases hr with
  | raised => exact h
  | refused error => exact ⟨h.toWaiting.refuse _, h.closed⟩
  | sent hopen place text =>
      have hasked := h.toWaiting.enter place
      refine ⟨⟨hasked.fresh, hasked.distinct, hasked.own, hasked.armed⟩, ?_⟩
      exact fun hclosed => absurd hclosed (Bool.eq_false_iff.mp hopen)
  | failed hopen place error =>
      have hasked := h.toWaiting.enter place
      constructor
      · refine hasked.resolve (fun msg hmsg => by cases hmsg) ?_ ?_
        · exact fun w hw hne => mem_without.mpr ⟨hw, hne⟩
        · exact fun w hw hne => mem_without.mpr ⟨hw, hne⟩
      · exact fun hclosed => absurd hclosed (Bool.eq_false_iff.mp hopen)

/-- A request keeps the settled promises. -/
theorem Requested.keeps (hr : Requested p p') : Keeps p p' := by
  cases hr with
  | raised => exact Keeps.refl p
  | refused error => exact keeps_append rfl
  | sent hopen place text => exact keeps_append rfl
  | failed hopen place error =>
      exact Keeps.trans (b := p.enter place) (keeps_append rfl)
        (keeps_resolve rfl)

/-- A request does not read stdout. -/
theorem Requested.stream (hr : Requested p p') :
    p'.buffer = p.buffer ∧ p'.lines = p.lines ∧ p'.thrown = p.thrown := by
  cases hr <;> exact ⟨rfl, rfl, rfl⟩

-- ============================================================= timers

/-- A timer that fires keeps the invariant: its request has failed, and is
no longer waited for. -/
theorem timeout_inv (h : Inv p) (id : Nat) : Inv (p.timeout id) := by
  rw [Peer.timeout]
  split
  next => exact h
  next t ht =>
    refine ⟨h.toWaiting.resolve ?_ (fun w hw _ => hw) ?_, h.closed⟩
    · intro msg hmsg
      cases hmsg
    · exact fun w hw hne => mem_without.mpr ⟨hw, hne⟩

/-- A timer keeps the settled promises. -/
theorem timeout_keeps (id : Nat) : Keeps p (p.timeout id) := by
  rw [Peer.timeout]
  split
  next => exact Keeps.refl p
  next => exact keeps_resolve rfl

/-- A timer does not read stdout. -/
theorem timeout_stream (id : Nat) :
    (p.timeout id).buffer = p.buffer ∧ (p.timeout id).lines = p.lines
      ∧ (p.timeout id).thrown = p.thrown := by
  rw [Peer.timeout]
  split <;> exact ⟨rfl, rfl, rfl⟩

/-- Once the timer of a request has fired its promise is settled: by the
timer, or by a reply before it, which has taken the waiter out. -/
theorem timeout_settles (h : Inv p) {q : Promise}
    (hq : q ∈ (p.timeout id).promises) (hid : q.id = some id) :
    q.outcome ≠ none := by
  intro hnone
  rw [Peer.timeout] at hq
  split at hq
  next hnot =>
    obtain ⟨w, -, hw, hwid⟩ := h.armed q hq hnone
    have hne := List.find?_eq_none.mp hnot w hw
    exact hne (decide_eq_true (Option.some.inj (hwid.symm.trans hid)))
  next =>
    obtain ⟨q', -, rfl⟩ := List.mem_map.mp hq
    rw [Promise.resolve_id] at hid
    exact (Promise.resolve_unsettled hnone).2 hid

-- ============================================================== death

/-- What failing a list of waiters does. -/
theorem rejected (why : JsString) (ws : List Waiter) (h : Waiting p) :
    Waiting (ws.foldl (Peer.reject why) p)
      ∧ ∀ q ∈ (ws.foldl (Peer.reject why) p).promises, q.outcome = none →
        q ∈ p.promises ∧ ∀ w ∈ ws, q.id ≠ some w.id := by
  induction ws generalizing p with
  | nil => exact ⟨h, fun q hq _ => ⟨hq, fun w hw => by cases hw⟩⟩
  | cons w ws ih =>
      have hstep : Waiting (p.reject why w) := by
        refine h.resolve (fun msg hmsg => by cases hmsg) (fun v hv _ => hv) ?_
        exact fun v hv hne => mem_without.mpr ⟨hv, hne⟩
      obtain ⟨hwaiting, hsettled⟩ := ih hstep
      refine ⟨hwaiting, fun q hq hnone => ?_⟩
      obtain ⟨hq, hne⟩ := hsettled q hq hnone
      obtain ⟨q', hq', rfl⟩ := List.mem_map.mp hq
      obtain ⟨hsame, hid⟩ := Promise.resolve_unsettled hnone
      rw [hsame] at hne ⊢
      exact ⟨hq', List.forall_mem_cons.mpr ⟨hid, hne⟩⟩

/-- The requests that the peer's end makes fail: none of the settled
promises is touched. -/
theorem rejected_keeps (why : JsString) (ws : List Waiter) (p : Peer) :
    Keeps p (ws.foldl (Peer.reject why) p) := by
  induction ws generalizing p with
  | nil => exact Keeps.refl p
  | cons w ws ih =>
      exact Keeps.trans (b := p.reject why w) (keeps_resolve rfl) (ih _)

/-- Nor is stdout. -/
theorem rejected_stream (why : JsString) (ws : List Waiter) (p : Peer) :
    (ws.foldl (Peer.reject why) p).buffer = p.buffer
      ∧ (ws.foldl (Peer.reject why) p).lines = p.lines
      ∧ (ws.foldl (Peer.reject why) p).thrown = p.thrown := by
  induction ws generalizing p with
  | nil => exact ⟨rfl, rfl, rfl⟩
  | cons w ws ih => exact ih (p.reject why w)

/-- The death of the peer settles every promise. -/
theorem die_settles (h : Waiting p) (message : JsString)
    (code : Option Int) :
    ∀ q ∈ (p.die message code).promises, q.outcome ≠ none := by
  intro q hq hnone
  have hclosed : Waiting { p with closed := true } :=
    ⟨h.fresh, h.distinct, h.own, h.armed⟩
  obtain ⟨hold, hne⟩ := (rejected _ p.pending hclosed).2 q hq hnone
  obtain ⟨w, hw, -, hid⟩ := h.armed q hold hnone
  exact hne w hw hid

/-- The end of the peer leaves nothing waiting, and every promise
settled. -/
theorem die_inv (h : Waiting p) (message : JsString) (code : Option Int) :
    Inv (p.die message code) := by
  have hclosed : Waiting { p with closed := true } :=
    ⟨h.fresh, h.distinct, h.own, h.armed⟩
  have hwaiting := (rejected (p.name ++ js ": " ++ message ++ p.tail)
    p.pending hclosed).1
  refine ⟨⟨hwaiting.fresh, hwaiting.distinct, hwaiting.own, ?_⟩, fun _ => rfl⟩
  exact fun q hq hnone => absurd hnone (die_settles h message code q hq)

/-- The end of the peer keeps the settled promises. -/
theorem die_keeps (message : JsString) (code : Option Int) :
    Keeps p (p.die message code) :=
  rejected_keeps _ p.pending { p with closed := true }

/-- The end of the peer does not touch what has come on stdout. -/
theorem die_stream (message : JsString) (code : Option Int) :
    (p.die message code).buffer = p.buffer
      ∧ (p.die message code).lines = p.lines
      ∧ (p.die message code).thrown = p.thrown :=
  rejected_stream _ p.pending { p with closed := true }

-- ============================================================== steps

/-- The event brings no line of `null` on stdout. -/
def Harmless (p : Peer) : Event → Prop
  | .stdout d =>
      ∀ line ∈ (cut newline (p.buffer ++ utf8Text d)).1, ¬IsNull line
  | _ => True

/-- No event of the run does. -/
def HarmlessRun (rt : Runtime) : Peer → List Event → Prop
  | _, [] => True
  | p, e :: rest => Harmless p e ∧ HarmlessRun rt (step rt p e) rest

/-- The bytes an event brings on stdout. -/
def stdoutBytes : Event → Bytes
  | .stdout d => d
  | _ => []

/-- While nothing was thrown a step is the event's handler. -/
theorem step_open (hopen : p.thrown = none) (e : Event) :
    step rt p e = handle rt p e :=
  if_neg (by rw [hopen]; exact Bool.false_ne_true)

/-- Nothing happens after a throw. -/
theorem step_thrown (h : p.thrown.isSome = true) (e : Event) :
    step rt p e = p :=
  if_pos h

/-- Any event keeps the settled promises. -/
theorem step_keeps (p : Peer) (e : Event) : Keeps p (step rt p e) := by
  cases hthrown : p.thrown with
  | some err =>
      rw [step_thrown (by rw [hthrown]; rfl)]
      exact Keeps.refl p
  | none =>
      rw [step_open hthrown]
      cases e with
      | request req refused => exact (request_cases rt req refused).keeps
      | stdout d => exact drain_keeps p _
      | stderr d => exact Keeps.refl p
      | timeout id => exact timeout_keeps id
      | close code => exact die_keeps _ _
      | fault err => exact die_keeps _ _

/-- An event that brings no line of `null` keeps the invariant. -/
theorem step_inv (hopen : p.thrown = none) (h : Inv p) {e : Event}
    (he : Harmless p e) : Inv (step rt p e) := by
  rw [step_open hopen]
  cases e with
  | request req refused => exact (request_cases rt req refused).inv h
  | stdout d => exact (drain_harmless rt p _ he).1 h
  | stderr d => exact ⟨⟨h.fresh, h.distinct, h.own, h.armed⟩, h.closed⟩
  | timeout id => exact timeout_inv h id
  | close code => exact die_inv h.toWaiting _ _
  | fault err => exact die_inv h.toWaiting _ _

/-- **One step.** A callback throws exactly when it brings a line of
`null`. -/
theorem step_quiet (rt : Runtime) (hopen : p.thrown = none) (e : Event) :
    (step rt p e).thrown = none ↔ Harmless p e := by
  rw [step_open hopen]
  cases e with
  | stdout d =>
      constructor
      · intro hquiet line hline hnull
        have hthrown := drain_throws rt p (p.buffer ++ utf8Text d)
          ⟨line, hline, hnull⟩
        rw [show (p.drain rt (p.buffer ++ utf8Text d)).thrown = none
          from hquiet] at hthrown
        cases hthrown
      · intro he
        obtain ⟨-, -, -, hthrown⟩ := drain_harmless rt p _ he
        exact hthrown.trans hopen
  | request req refused =>
      obtain ⟨-, -, hthrown⟩ := (request_cases rt (p := p) req refused).stream
      exact iff_of_true (hthrown.trans hopen) trivial
  | stderr d => exact iff_of_true hopen trivial
  | timeout id =>
      exact iff_of_true ((timeout_stream id).2.2.trans hopen) trivial
  | close code =>
      exact iff_of_true ((die_stream _ _).2.2.trans hopen) trivial
  | fault err =>
      exact iff_of_true ((die_stream _ _).2.2.trans hopen) trivial

/-- The lines and the rest of everything that has come on stdout. -/
def Cut (s : JsString) (p : Peer) : Prop :=
  cut newline s = (p.lines, p.buffer)

/-- Such an event goes on cutting stdout into the same lines as before: what
stood behind the last line break is kept and the new text appended to it. -/
theorem step_cut (hopen : p.thrown = none) {e : Event} (he : Harmless p e)
    {s : JsString} (hs : Cut s p) :
    Cut (s ++ utf8Text (stdoutBytes e)) (step rt p e) := by
  have hsame {p' : Peer} (hstream : p'.buffer = p.buffer
      ∧ p'.lines = p.lines ∧ p'.thrown = p.thrown) :
      Cut (s ++ []) p' := by
    rw [Cut, hstream.1, hstream.2.1, List.append_nil]
    exact hs
  rw [step_open hopen]
  cases e with
  | request req refused => exact hsame (request_cases rt req refused).stream
  | stdout d =>
      obtain ⟨-, hlines, hbuffer, -⟩ := drain_harmless rt p _ he
      show cut newline (s ++ utf8Text d)
        = ((p.drain rt _).lines, (p.drain rt _).buffer)
      rw [hlines, hbuffer, cut_append, show cut newline s = _ from hs]
  | stderr d => exact hsame ⟨rfl, rfl, rfl⟩
  | timeout id => exact hsame (timeout_stream id)
  | close code => exact hsame (die_stream _ _)
  | fault err => exact hsame (die_stream _ _)

-- =============================================================== runs

/-- A run keeps the promises settled before it. -/
theorem run_keeps (p : Peer) (events : List Event) :
    Keeps p (run rt p events) := by
  induction events generalizing p with
  | nil => exact Keeps.refl p
  | cons e events ih => exact (step_keeps p e).trans (ih _)

/-- A run after a throw does nothing. -/
theorem run_thrown (rt : Runtime) (h : p.thrown.isSome = true)
    (events : List Event) :
    run rt p events = p := by
  induction events with
  | nil => rfl
  | cons e events ih =>
      rw [run, List.foldl_cons, step_thrown h]
      exact ih

/-- A run throws exactly if some line of it is `null`. By induction over the
events; a run that has thrown does nothing more. -/
theorem run_quiet (rt : Runtime) (hopen : p.thrown = none)
    (events : List Event) :
    (run rt p events).thrown = none ↔ HarmlessRun rt p events := by
  induction events generalizing p with
  | nil => exact iff_of_true hopen trivial
  | cons e events ih =>
      rw [run, List.foldl_cons, HarmlessRun, ← step_quiet rt hopen e]
      cases hthrown : (step rt p e).thrown with
      | none => exact (ih hthrown).trans (and_iff_right rfl).symm
      | some err =>
          have hstuck := run_thrown rt (p := step rt p e)
            (by rw [hthrown]; rfl) events
          rw [show events.foldl (step rt) (step rt p e) = _ from hstuck,
            hthrown]
          exact iff_of_false (fun h => by cases h) fun h => by cases h.1

/-- A run without such a line keeps the invariant. -/
theorem run_inv (hopen : p.thrown = none) (h : Inv p) {events : List Event}
    (hrun : HarmlessRun rt p events) : Inv (run rt p events) := by
  induction events generalizing p with
  | nil => exact h
  | cons e events ih =>
      exact ih ((step_quiet rt hopen e).mpr hrun.1) (step_inv hopen h hrun.1)
        hrun.2

/-- Over a run without such a line the lines taken, and what the buffer
holds, are those of everything that came on stdout. -/
theorem run_cut (hopen : p.thrown = none) {events : List Event}
    (hrun : HarmlessRun rt p events) {s : JsString} (hs : Cut s p) :
    Cut (s ++ events.flatMap fun e => utf8Text (stdoutBytes e))
      (run rt p events) := by
  induction events generalizing p s with
  | nil => rwa [List.flatMap_nil, List.append_nil]
  | cons e events ih =>
      rw [List.flatMap_cons, ← List.append_assoc]
      exact ih ((step_quiet rt hopen e).mpr hrun.1) hrun.2
        (step_cut hopen hrun.1 hs)

/-- The text of ASCII bytes, chunk by chunk, is that of all of them; other
bytes may be cut between two chunks, and are read apart then. -/
theorem utf8Text_chunks {events : List Event}
    (hascii : ∀ e ∈ events, ∀ b ∈ stdoutBytes e, b.toNat < 0x80) :
    (events.flatMap fun e => utf8Text (stdoutBytes e))
      = utf8Text (events.flatMap stdoutBytes) := by
  induction events with
  | nil => rfl
  | cons e events ih =>
      rw [List.forall_mem_cons] at hascii
      rw [List.flatMap_cons, List.flatMap_cons, ih hascii.2, utf8Text,
        utf8Text, utf8Text, Utf8.decode_append_ascii hascii.1,
        List.flatMap_append]

/-- The invariant holds of a new peer. -/
theorem start_inv (name : JsString) : Inv (start name) where
  fresh := fun q hq => by cases hq
  distinct := List.nodup_nil
  own := fun q hq => by cases hq
  armed := fun q hq => by cases hq
  closed := fun _ => rfl

-- ========================================================== protocol

/-- What the protocol promises of a state. -/
structure Promised (rt : Runtime) (p : Peer) : Prop where
  quiet : p.thrown = none
  /-- A settled promise has failed, or has its own reply. -/
  own : ∀ q ∈ p.promises, ∀ o, q.outcome = some o →
    (∃ error, o = .failure error)
      ∨ ∃ msg id, o = .reply msg ∧ q.id = some id ∧ Carries id msg
  /-- It stays as it is whatever happens next. -/
  once : ∀ events, Keeps p (run rt p events)
  /-- An unsettled promise has its timer. -/
  timed : ∀ q ∈ p.promises, q.outcome = none →
    ∃ w ∈ p.timers, q.id = some w.id
  /-- When the timer of a request fires its promise is settled. -/
  bounded : ∀ id, ∀ q ∈ (step rt p (.timeout id)).promises,
    q.id = some id → q.outcome ≠ none
  /-- A reply is delivered to no request but its own. -/
  late : ∀ (i j : Nat) (q q' : Promise) (id : Nat) (msg : JsVal), i ≠ j →
    p.promises[i]? = some q → q.id = some id → p.promises[j]? = some q' →
    q'.outcome = some (.reply msg) → ¬Carries id msg
  /-- A dead peer leaves nothing pending. -/
  dead : p.closed = true →
    p.pending = [] ∧ ∀ q ∈ p.promises, q.outcome ≠ none

/-- Two promises have different ids. -/
theorem Waiting.id_ne (h : Waiting p) {i j : Nat} {q q' : Promise}
    (hij : i ≠ j) (hq : p.promises[i]? = some q) (hid : q.id = some id)
    (hq' : p.promises[j]? = some q') : q'.id ≠ some id := by
  intro hid'
  have hpair := List.pairwise_iff_getElem.mp
    (List.pairwise_filterMap.mp h.distinct)
  obtain ⟨hi, rfl⟩ := List.getElem?_eq_some_iff.mp hq
  obtain ⟨hj, rfl⟩ := List.getElem?_eq_some_iff.mp hq'
  rcases Nat.lt_or_gt_of_ne hij with hlt | hlt
  · exact hpair i j hi hj hlt id hid id hid' rfl
  · exact hpair j i hj hi hlt id hid' id hid rfl

/-- A message carries one id. -/
theorem Carries.unique {id' : Nat} {msg : JsVal} (h : Carries id msg)
    (h' : Carries id' msg) : id = id' := by
  rw [Carries] at h h'
  have heq := h.symm.trans h'
  simpa using heq

/-- The invariant gives what the protocol promises of a state: field by
field, with the bookkeeping that only the induction needs left out. -/
theorem Inv.promised (hopen : p.thrown = none) (h : Inv p) :
    Promised rt p where
  quiet := hopen
  own := by
    intro q hq o ho
    cases o with
    | failure error => exact Or.inl ⟨error, rfl⟩
    | reply msg =>
        obtain ⟨id, hid, hmsg⟩ := h.own q hq msg ho
        exact Or.inr ⟨msg, id, rfl, hid, hmsg⟩
  once := run_keeps p
  timed := by
    intro q hq hnone
    obtain ⟨w, -, hw, hid⟩ := h.armed q hq hnone
    exact ⟨w, hw, hid⟩
  bounded := by
    intro id q hq hid
    rw [step_open hopen] at hq
    exact timeout_settles h hq hid
  late := by
    intro i j q q' id msg hij hq hid hq' hmsg hcarries
    obtain ⟨id', hid', hcarries'⟩ :=
      h.own q' (List.mem_of_getElem? hq') msg hmsg
    rw [hcarries'.unique hcarries] at hid'
    exact h.id_ne hij hq hid hq' hid'
  dead := by
    intro hclosed
    have hpending := h.closed hclosed
    refine ⟨hpending, fun q hq hnone => ?_⟩
    obtain ⟨w, hw, -⟩ := h.armed q hq hnone
    rw [hpending] at hw
    cases hw

/-- **The request protocol.** The run goes on exactly as long as no line
of stdout is `null`, and then every state keeps what the protocol
promises. The lines of an ASCII stream are those of the whole stream,
wherever its chunks end. -/
theorem peer_protocol (rt : Runtime) (name : JsString)
    (events : List Event) :
    ((run rt (start name) events).thrown = none
        ↔ HarmlessRun rt (start name) events)
      ∧ (HarmlessRun rt (start name) events →
        Promised rt (run rt (start name) events)
          ∧ ((∀ e ∈ events, ∀ b ∈ stdoutBytes e, b.toNat < 0x80) →
            (run rt (start name) events).lines
              = (cut newline (utf8Text (events.flatMap stdoutBytes))).1)) := by
  have hquiet := run_quiet rt (p := start name) rfl events
  refine ⟨hquiet, fun hrun => ⟨?_, fun hascii => ?_⟩⟩
  · exact (run_inv rfl (start_inv name) hrun).promised (hquiet.mpr hrun)
  · have hcut := run_cut (p := start name) rfl hrun (s := []) rfl
    rw [List.nil_append, utf8Text_chunks hascii, Cut] at hcut
    rw [hcut]

/-- The first request the harness makes. -/
def identify : Event :=
  .request (.object [(js "op", .string (js "identify"))] []) none

/-- A line that is not JSON, in two chunks, and a timer: the line is noted,
the request goes unanswered, and its timer rejects it. -/
theorem peer_protocol_stray :
    Promised plainRuntime (run plainRuntime (start (js "noble"))
      [identify, .stdout [104], .stdout [105, 10], .timeout 1]) := by
  have hparse : Json.parse (trim (js "hi")) = none := by decide
  have hline : ∀ line ∈ [js "hi"], ¬IsNull line := by
    intro line hline hnull
    rw [List.mem_singleton.mp hline, IsNull, hparse] at hnull
    cases hnull
  refine ((peer_protocol plainRuntime (js "noble") [identify, .stdout [104],
    .stdout [105, 10], .timeout 1]).2 ⟨trivial, ?_, ?_, trivial, trivial⟩).1
  · intro line hline
    cases hline
  · have hbuffer : (step plainRuntime (step plainRuntime (start (js "noble"))
        identify) (.stdout [104])).buffer = js "h" := by
      show (Peer.drain plainRuntime _ (js "h")).buffer = js "h"
      rw [Peer.drain]
      rfl
    rw [Harmless, hbuffer]
    exact hline

/-- A stray `null` on stdout takes the whole run down, with a request in
flight. -/
theorem nullLine_throws :
    (run plainRuntime (start (js "noble"))
        [identify, .stdout [110, 117, 108, 108, 10]]).thrown
      = some (typeError
        (js "Cannot read properties of undefined or null"))
    ∧ (run plainRuntime (start (js "noble"))
        [identify, .stdout [110, 117, 108, 108, 10]]).promises.map
          (fun q => q.outcome.isSome) = [false] := by
  have hrun : run plainRuntime (start (js "noble"))
      [identify, .stdout [110, 117, 108, 108, 10]]
        = Peer.drain plainRuntime
          (step plainRuntime (start (js "noble")) identify) (js "null\n") :=
    rfl
  rw [hrun, Peer.drain]
  exact ⟨rfl, rfl⟩

end KxcoPostQuantum.Interop
