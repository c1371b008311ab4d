/-
The reseed boundary of the module: `random` never asks the DRBG for more
than it gives, and never draws more than the reseed interval between two
seedings.

The ghosts of the world record both. The DRBG's own errors, "reseed
required" among them, are events. Entropy is read for a seeding and for
nothing else, and every request that returns is recorded as a draw; a
request that throws is the last the module makes. So the requests between
two seedings are the draws after a read of entropy (`drawsSince`).

# The account

`Counted` is the invariant of an operational module: the counter is one
more than the draws since the seeding. What is left of it in the error
state, where half a method may have run, is `Bounded`. Both hold under any
environment, one whose HMAC throws included.
-/
import KxcoPostQuantum.Fips.Proofs.Atomicity
import KxcoPostQuantum.Fips.Proofs.Zeroisation

namespace KxcoPostQuantum.Fips

open Lib (Eff)

variable {α β : Type} {w w' w'' : World}

-- ========================================================== statement

/-- One record, to the count of draws since the last read of entropy. -/
def countMark (n : Nat) (p : Mark × Nat) : Nat :=
  if p.1 = .entropy then 0 else if p.1 = .draw then n + 1 else n

/-- The draws after the last read of entropy. -/
def drawsSince (marks : List (Mark × Nat)) : Nat := marks.foldl countMark 0

/-- The DRBG has thrown no error of its own, and never more than the reseed
interval was drawn between reads of entropy. -/
structure Bounded (w : World) : Prop where
  no_throw : Event.drbgThrow ∉ w.trace
  draws : ∀ ms, ms <+: w.marks → drawsSince ms ≤ reseedInterval

/-- The DRBG is instantiated, and counts the draws. -/
structure Counted (w : World) : Prop extends Bounded w where
  instantiated : HmacDrbg.instantiated w.drbg = true
  counter : w.drbg.counter = drawsSince w.marks + 1

-- ============================================================== steady

/-- Between the two worlds nothing was counted: K and V may be replaced,
and the DRBG throws nothing of its own. -/
structure Same (w w' : World) : Prop where
  instantiated : HmacDrbg.instantiated w.drbg = true →
    HmacDrbg.instantiated w'.drbg = true
  counter : w'.drbg.counter = w.drbg.counter
  marks : ∃ ms, w'.marks = w.marks ++ ms
    ∧ ∀ p ∈ ms, p.1 ≠ .entropy ∧ p.1 ≠ .draw
  trace : Event.drbgThrow ∈ w'.trace → Event.drbgThrow ∈ w.trace

/-- Nothing is counted where nothing has happened. -/
theorem Same.refl (w : World) : Same w w where
  instantiated := id
  counter := rfl
  marks := ⟨[], (List.append_nil _).symm, nofun⟩
  trace := id

/-- Two stretches in which nothing is counted make one. -/
theorem Same.trans (h₁ : Same w w') (h₂ : Same w' w'') : Same w w'' where
  instantiated hi := h₂.instantiated (h₁.instantiated hi)
  counter := h₂.counter.trans h₁.counter
  marks := by
    obtain ⟨ms₁, he₁, hm₁⟩ := h₁.marks
    obtain ⟨ms₂, he₂, hm₂⟩ := h₂.marks
    refine ⟨ms₁ ++ ms₂, by rw [he₂, he₁, List.append_assoc], ?_⟩
    intro p hp
    rcases List.mem_append.mp hp with hp | hp
    · exact hm₁ p hp
    · exact hm₂ p hp
  trace ht := h₁.trace (h₂.trace ht)

/-- One event, if it is not an error of the DRBG's own. -/
theorem Same.event {e : Event} (he : e ≠ .drbgThrow) (hd : w'.drbg = w.drbg)
    (hm : w'.marks = w.marks) (ht : w'.trace = w.trace ++ [e]) :
    Same w w' where
  instantiated hi := hd ▸ hi
  counter := by rw [hd]
  marks := ⟨[], by rw [hm, List.append_nil], nofun⟩
  trace hx := by
    rw [ht, List.mem_append, List.mem_singleton] at hx
    exact hx.resolve_right (Ne.symm he)

/-- Memory may change, and time pass. -/
theorem Same.silent (hd : w'.drbg = w.drbg) (hm : w'.marks = w.marks)
    (ht : w'.trace = w.trace) : Same w w' where
  instantiated hi := hd ▸ hi
  counter := by rw [hd]
  marks := ⟨[], by rw [hm, List.append_nil], nofun⟩
  trace hx := ht ▸ hx

/-- Records that are neither reads of entropy nor draws do not count. -/
theorem drawsSince_append (marks : List (Mark × Nat))
    {ms : List (Mark × Nat)}
    (hm : ∀ p ∈ ms, p.1 ≠ .entropy ∧ p.1 ≠ .draw) :
    drawsSince (marks ++ ms) = drawsSince marks := by
  rw [drawsSince, List.foldl_append, ← drawsSince]
  generalize drawsSince marks = n
  induction ms with
  | nil => rfl
  | cons p ms ih =>
      have hp := hm p (by simp)
      rw [List.foldl_cons, countMark, if_neg hp.1, if_neg hp.2]
      exact ih fun q hq => hm q (by simp [hq])

/-- A read of entropy starts the count again, and a draw raises it. -/
theorem drawsSince_concat (marks : List (Mark × Nat)) (p : Mark × Nat) :
    drawsSince (marks ++ [p]) = countMark (drawsSince marks) p := by
  rw [drawsSince, List.foldl_append]
  rfl

/-- Where nothing is counted, the count of draws stays. -/
theorem Same.drawsSince (hs : Same w w') :
    Fips.drawsSince w'.marks = Fips.drawsSince w.marks := by
  obtain ⟨ms, hms, hm⟩ := hs.marks
  rw [hms, drawsSince_append _ hm]

/-- The bound stays where nothing is counted. -/
theorem Bounded.same (hb : Bounded w) (hs : Same w w') : Bounded w' := by
  obtain ⟨ms, hms, hm⟩ := hs.marks
  refine ⟨fun ht => hb.no_throw (hs.trace ht), ?_⟩
  intro ns hns
  rw [hms] at hns
  rcases List.prefix_or_prefix_of_prefix hns (List.prefix_append _ ms)
    with hns' | ⟨r, rfl⟩
  · exact hb.draws ns hns'
  · have hr := (List.prefix_append_right_inj _).mp hns
    rw [drawsSince_append _ fun p hp => hm p (hr.subset hp)]
    exact hb.draws _ (List.prefix_refl _)

/-- So does the agreement of the counter with the draws. -/
theorem Counted.same (hc : Counted w) (hs : Same w w') : Counted w' where
  toBounded := hc.toBounded.same hs
  instantiated := hs.instantiated hc.instantiated
  counter := by rw [hs.counter, hs.drawsSince, hc.counter]

/-- The procedure counts nothing, whether it returns or throws. -/
def Steady (p : Proc α) : Prop :=
  ∀ w, Eff.wp p (fun _ => Same w) (fun _ => Same w) w

namespace Steady

/-- Returning a value counts nothing. -/
theorem pure (a : α) : Steady (pure a : Proc α) := fun w => Same.refl w

/-- Nor does a throw. -/
theorem throw (e : JsError) : Steady (throw e : Proc α) :=
  fun w => Same.refl w

/-- Reading the world counts nothing. -/
theorem get : Steady (Eff.get : Proc World) := fun w => Same.refl w

/-- A steady procedure and what follows it are steady if each is. -/
theorem bind {p : Proc α} {f : α → Proc β} (hp : Steady p)
    (hf : ∀ a, Steady (f a)) : Steady (p >>= f) := by
  intro w
  rw [Eff.wp_bind]
  refine Eff.wp_mono (hp w) (fun a w₁ h₁ => ?_) fun _ _ h => h
  exact Eff.wp_mono (hf a w₁) (fun _ _ h₂ => h₁.trans h₂)
    fun _ _ h₂ => h₁.trans h₂

/-- A value or a throw from outside counts nothing. -/
theorem ofExcept (r : Except JsError α) :
    Steady (Eff.ofExcept r : Proc α) := by
  cases r with
  | ok a => exact pure a
  | error e => exact throw e

/-- Nor does reading an array. -/
theorem contents (l : Nat) : Steady (contents l) := fun w => Same.refl w

/-- An allocation puts no mark on the array. -/
theorem newArray (b : Bytes) : Steady (newArray b) := fun _ =>
  Same.silent rfl rfl rfl

/-- Overwriting an array takes no mark off it. -/
theorem fillZero (l : Nat) : Steady (fillZero l) := fun _ =>
  Same.silent rfl rfl rfl

/-- A question to the environment only moves the clock on. -/
theorem ask (f : Nat → Except JsError α) : Steady (ask f) := fun _ =>
  wp_ask (fun _ _ => Same.silent rfl rfl rfl)
    fun _ _ => Same.silent rfl rfl rfl

/-- A question that is logged counts nothing, unless it is logged as a throw
of the DRBG. -/
theorem askLogged {e : Bool → Event} (f : Nat → Except JsError α)
    (he : ∀ b, e b ≠ .drbgThrow) : Steady (askLogged e f) :=
  fun _ => wp_askLogged (fun _ _ => Same.event (he true) rfl rfl rfl)
    fun _ _ => Same.event (he false) rfl rfl rfl

/-- Any event but a throw of the DRBG may be logged. -/
theorem emit {e : Event} (he : e ≠ .drbgThrow) : Steady (emit e) :=
  fun _ => Same.event he rfl rfl rfl

/-- A fatal error counts nothing. -/
theorem fatal (message : JsString) : Steady (fatal message : Proc α) :=
  .bind (.emit (by decide)) fun _ => .throw _

/-- An HMAC is computed from what two arrays hold. -/
theorem hmacSha512 (hmac : Hmac) (key message : Bytes) :
    Steady (hmacSha512 hmac key message) := fun _ =>
  wp_hmacSha512 (fun _ _ => Same.event (by decide) rfl rfl rfl)
    fun _ _ => Same.event (by decide) rfl rfl rfl

/-- A record of an array the instance holds. -/
theorem mark {m : Mark} (hm : m ≠ .entropy ∧ m ≠ .draw) (l : Nat) :
    Steady (mark m l) := by
  intro w
  refine ⟨id, rfl, ⟨[(m, l)], rfl, ?_⟩, id⟩
  intro p hp
  obtain rfl := List.mem_singleton.mp hp
  exact hm

/-- A mark that is neither entropy nor a draw is not counted. -/
theorem newMarked {m : Mark} (hm : m ≠ .entropy ∧ m ≠ .draw) (b : Bytes) :
    Steady (newMarked m b) :=
  .bind (.newArray b) fun l => .bind (.mark hm l) fun _ => .pure l

end Steady

/-- An array the instance holds is no read of entropy and no draw. -/
theorem steady_closed : Closed @Steady where
  pure := .pure
  throw := .throw
  get := .get
  bind := .bind
  contents := .contents
  newArray := .newArray
  fillZero := .fillZero
  hmacSha512 := .hmacSha512
  setK l := .bind
    (fun _ => ⟨fun _ => rfl, rfl, ⟨[], (List.append_nil _).symm, nofun⟩, id⟩)
    fun _ => .mark ⟨by decide, by decide⟩ l
  setV l := .bind
    (fun _ => ⟨id, rfl, ⟨[], (List.append_nil _).symm, nofun⟩, id⟩)
    fun _ => .mark ⟨by decide, by decide⟩ l

-- ========================================================= the methods

/-- The world with its counter set. -/
def World.withCounter (w : World) (n : Nat) : World :=
  { w with drbg := { w.drbg with counter := n } }

/-- The bound is about the log and the marks, not about the counter. -/
theorem Bounded.withCounter (hb : Bounded w) (n : Nat) :
    Bounded (w.withCounter n) := ⟨hb.no_throw, hb.draws⟩

/-- An instantiated DRBG passes `#requireInstantiated`. -/
theorem wp_requireInstantiated_some
    (hi : HmacDrbg.instantiated w.drbg = true) {Q : Unit → World → Prop}
    {E : JsError → World → Prop} :
    Eff.wp HmacDrbg.requireInstantiated Q E w = Q () w := by
  have hK : w.drbg.K ≠ none := Option.isSome_iff_ne_none.mp hi
  unfold HmacDrbg.requireInstantiated
  simp [hK]

/-- A procedure that counts nothing, then the counter's reset. -/
theorem wp_steady_setCounter {p : Proc Unit} (hp : Steady p) (n : Nat)
    (w : World) :
    Eff.wp (do p; HmacDrbg.setCounter n)
      (fun _ w' => ∃ w₁, Same w w₁ ∧ w' = w₁.withCounter n)
      (fun _ => Same w) w := by
  rw [Eff.wp_bind]
  exact Eff.wp_mono (hp w) (fun _ w₁ h₁ => ⟨w₁, h₁, rfl⟩) fun _ _ h => h

section

variable (hmac : Hmac)

/-- So does reseeding an instance that has been seeded: K and V are others,
the counter is one, and no draw is marked. -/
theorem wp_reseed_bytes {e : Bytes} (he : minEntropyBytes ≤ e.length)
    (hi : HmacDrbg.instantiated w.drbg = true) :
    Eff.wp (HmacDrbg.reseed hmac (.bytes e) none)
      (fun _ w' => ∃ w₁, Same w w₁ ∧ w' = w₁.withCounter 1)
      (fun _ => Same w) w := by
  have hbelow : (ByteArg.bytes e).lengthBelow minEntropyBytes = .ok false := by
    rw [ByteArg.lengthBelow_of_content rfl, decide_eq_false (by omega)]
  have hsteady : Steady (do
      let seedMaterial ← Eff.ofExcept
        (concat [.bytes e, (none : Option ByteArg).getD .empty])
      HmacDrbg.update hmac (.bytes seedMaterial)) :=
    .bind (.ofExcept _) fun _ => steady_closed.update hmac _
  have hwp := wp_steady_setCounter hsteady 1 w
  unfold HmacDrbg.reseed
  rw [Eff.wp_bind, wp_requireInstantiated_some hi, hbelow]
  simp only [Eff.wp_bind, Eff.wp_ofExcept_ok, Bool.false_eq_true, if_false]
    at hwp ⊢
  exact hwp

/-- `generate` counts one request more, and does nothing else that is
counted. It is called with a number and no additional input here, as the
module does. -/
theorem wp_generate_bytes {n : Nat} (h1 : 1 ≤ n)
    (hmax : n ≤ maxBytesPerRequest)
    (hi : HmacDrbg.instantiated w.drbg = true)
    (hc : w.drbg.counter ≤ reseedInterval) :
    Eff.wp (HmacDrbg.generate hmac (.number (.finite n)) none)
      (fun _ w' => ∃ w₁, Same w w₁ ∧ w' = w₁.withCounter (w₁.drbg.counter + 1))
      (fun _ => Same w) w := by
  have hdue : HmacDrbg.reseedRequired w.drbg = false := by
    simp only [HmacDrbg.reseedRequired, decide_eq_false_iff_not]
    omega
  unfold HmacDrbg.generate
  simp only [Eff.wp_bind, wp_requireInstantiated_some hi,
    HmacDrbg.isInteger?_natCast]
  rw [Eff.wp_ite]
  refine ⟨fun hor => absurd hor (by omega), fun _ => ?_⟩
  simp only [Eff.wp_bind, Eff.wp_get, hdue, Bool.false_eq_true, if_false]
  refine Eff.wp_mono (steady_closed.updateIfProvided hmac _ w) ?_
    fun _ _ h => h
  intro _ w₁ h₁
  refine Eff.wp_mono (steady_closed.fillOutput hmac _ _ _ w₁) ?_
    fun _ _ h₂ => h₁.trans h₂
  intro out w₂ h₂
  refine Eff.wp_mono (steady_closed.update hmac _ w₂) ?_
    fun _ _ h₃ => (h₁.trans h₂).trans h₃
  intro _ w₃ h₃
  exact ⟨w₃, (h₁.trans h₂).trans h₃, rfl⟩

end

-- ======================================================= random bits

section Random

variable (rt : Runtime) (env : Env)

/-- What a read of entropy leaves: a new array of that length, and the count
started again. -/
structure EntropyRead (n : Nat) (w : World) (l : Nat) (w' : World) :
    Prop where
  bounded : Bounded w'
  draws : drawsSince w'.marks = 0
  drbg : w'.drbg = w.drbg
  length : (w'.heap.read l).length = n
  lt : l < w'.heap.size
  read : ∀ k < w.heap.size, w'.heap.read k = w.heap.read k

/-- Entropy that is read is marked, which begins a new count of draws. If
the read throws, nothing has been marked. -/
theorem wp_getEntropy_bounded (hb : Bounded w) (n : Nat) :
    Eff.wp (getEntropy env n) (EntropyRead n w) (fun _ => Same w) w := by
  unfold getEntropy
  simp only [Eff.wp_bind, wp_newMarked]
  refine wp_askLogged (fun b _ => ?_) fun _ _ =>
    Same.event (by decide) rfl rfl rfl
  have hzero : drawsSince (w.marks ++ [(.entropy, w.heap.size)]) = 0 :=
    drawsSince_concat _ _
  refine ⟨⟨?_, ?_⟩, hzero, rfl, ?_, ?_, ?_⟩
  · intro ht
    rcases List.mem_append.mp ht with ht | ht
    · exact hb.no_throw ht
    · cases List.mem_singleton.mp ht
  · intro ms hms
    rcases List.prefix_concat_iff.mp hms with rfl | hms
    · rw [hzero]
      exact Nat.zero_le _
    · exact hb.draws ms hms
  · simp only [Lib.Heap.read_alloc_self]
    exact b.2
  · simp
  · intro k hk
    exact Lib.Heap.read_alloc_of_lt hk _

/-- A seeding that follows a read of entropy restores the account. -/
theorem counted_of_seeded (hb : Bounded w) (hzero : drawsSince w.marks = 0)
    (hs : Same w w') (hi : HmacDrbg.instantiated w'.drbg = true) :
    Counted (w'.withCounter 1) where
  toBounded := (hb.same hs).withCounter 1
  instantiated := hi
  counter := by
    show 1 = drawsSince w'.marks + 1
    rw [hs.drawsSince, hzero]

/-- `random` reseeds in time: it returns with a counter within the interval,
whether it had to reseed for that or not. -/
theorem wp_reseedIfRequired_counted (hc : Counted w) :
    Eff.wp (reseedIfRequired env)
      (fun _ w' => Counted w' ∧ w'.drbg.counter ≤ reseedInterval)
      (fun _ => Bounded) w := by
  unfold reseedIfRequired
  rw [Eff.wp_bind, Eff.wp_get]
  simp only [HmacDrbg.reseedRequired, decide_eq_true_eq]
  rw [Eff.wp_ite]
  refine ⟨fun _ => ?_, fun hdue => ⟨hc, by omega⟩⟩
  simp only [Eff.wp_bind, wp_contents, wp_fillZero]
  refine Eff.wp_mono (wp_getEntropy_bounded env hc.toBounded entropyBytes) ?_
    fun _ _ h => hc.toBounded.same h
  intro l w₁ hpost
  have hi₁ : HmacDrbg.instantiated w₁.drbg = true :=
    hpost.drbg ▸ hc.instantiated
  refine Eff.wp_mono (wp_reseed_bytes env.hmac
    (by rw [hpost.length]; decide) hi₁) ?_ fun _ _ h => hpost.bounded.same h
  intro _ w₂ hseeded
  obtain ⟨w₂, h₂, rfl⟩ := hseeded
  have hc₂ := counted_of_seeded hpost.bounded hpost.draws h₂
    (h₂.instantiated hi₁)
  exact ⟨hc₂.same (.silent rfl rfl rfl), Nat.le_add_left 1 _⟩

/-- **`random`** counts what it draws, and ends the module if it throws. The
reseed comes before the draw, so no draw is made at a counter above the
interval. -/
theorem wp_random_counted (hc : Counted w) {n : Nat} (h1 : 1 ≤ n)
    (hmax : n ≤ maxBytesPerRequest) :
    Eff.wp (random env n) (fun _ => Counted)
      (fun e w' => Bounded w' ∧ e.name = .fipsFatalError) w := by
  have hfatal : ∀ {message : JsString} {w₁ : World}, Bounded w₁ →
      Eff.wp (fatal message : Proc Nat) (fun _ => Counted)
        (fun e w' => Bounded w' ∧ e.name = .fipsFatalError) w₁ := fun hb =>
    ⟨hb.same (.event (by decide) rfl rfl rfl), rfl⟩
  unfold random
  simp only [Eff.wp_tryCatch, Eff.wp_bind, wp_newMarked]
  refine Eff.wp_mono (wp_reseedIfRequired_counted env hc) ?_
    fun _ _ hb => hfatal hb
  intro _ w₁ hpost
  obtain ⟨hc₁, hcounter⟩ := hpost
  refine Eff.wp_mono (wp_generate_bytes env.hmac h1 hmax hc₁.instantiated
    hcounter) ?_ fun _ _ h => hfatal (hc₁.toBounded.same h)
  intro out w₂ hpost
  obtain ⟨w₂, h₂, rfl⟩ := hpost
  have hc₂ := hc₁.same h₂
  have hdrawn : drawsSince (w₂.marks ++ [(.draw, w₂.heap.size)])
      = drawsSince w₂.marks + 1 := drawsSince_concat _ _
  have hcounted := hc₂.counter
  have hcounter₂ : w₂.drbg.counter ≤ reseedInterval := h₂.counter ▸ hcounter
  refine ⟨⟨hc₂.no_throw, ?_⟩, hc₂.instantiated, ?_⟩
  · intro ms hms
    rcases List.prefix_concat_iff.mp hms with rfl | hms
    · show drawsSince (w₂.marks ++ [(.draw, w₂.heap.size)]) ≤ _
      omega
    · exact hc₂.draws ms hms
  · show w₂.drbg.counter + 1
      = drawsSince (w₂.marks ++ [(.draw, w₂.heap.size)]) + 1
    omega

-- ========================================================== accounted

/-- Whether the procedure returns or throws, the account is in order, save
after a `FipsFatalError`, which leaves it bounded. -/
def Accounted (p : Proc α) : Prop :=
  ∀ w, Counted w → Eff.wp p (fun _ => Counted)
    (fun e w' => Bounded w' ∧ (e.name = .fipsFatalError ∨ Counted w')) w

/-- A steady procedure keeps the count, whatever it does beside. -/
theorem Steady.accounted {p : Proc α} (hp : Steady p) : Accounted p :=
  fun w hc => Eff.wp_mono (hp w) (fun _ _ hs => hc.same hs)
    fun _ _ hs => ⟨hc.toBounded.same hs, Or.inr (hc.same hs)⟩

namespace Accounted

/-- An accounted procedure and what follows it are accounted if each is. -/
theorem bind {p : Proc α} {f : α → Proc β} (hp : Accounted p)
    (hf : ∀ a, Accounted (f a)) : Accounted (p >>= f) := by
  intro w hc
  rw [Eff.wp_bind]
  exact Eff.wp_mono (hp w hc) (fun a w₁ hc₁ => hf a w₁ hc₁) fun _ _ h => h

/-- A `finally` that counts nothing may stand behind it. -/
theorem tryFinally {p : Proc α} {c : Proc Unit} (hp : Accounted p)
    (hc : ∀ w, Eff.wp c (fun _ => Same w) (fun _ _ => False) w) :
    Accounted (Eff.tryFinally p c) := by
  intro w hw
  rw [Eff.wp_tryFinally]
  refine Eff.wp_mono (hp w hw) (fun a w₁ h₁ => ?_) fun e w₁ h₁ => ?_
  · exact Eff.wp_mono (hc w₁) (fun _ _ hs => h₁.same hs)
      fun _ _ hf => hf.elim
  · exact Eff.wp_mono (hc w₁)
      (fun _ _ hs => ⟨h₁.1.same hs, h₁.2.imp_right fun h => h.same hs⟩)
      fun _ _ hf => hf.elim

/-- A pairwise test rethrows what is fatal, and only that; whatever else its
body throws counts as a test that has not passed. -/
theorem pct {publicKey secretKey : Bytes} {body : Proc Bool}
    {message : JsString} (hbody : Accounted body) :
    Accounted (do
      emit (.pct publicKey secretKey)
      let ok ← tryCatch body pctCaught
      if ok then emit .pctPassed else fatal message) := by
  refine .bind (Steady.emit (e := .pct _ _) nofun).accounted fun _ =>
    .bind ?_ fun ok => iteInduction (motive := Accounted)
      (fun _ => (Steady.emit (by decide)).accounted)
      fun _ => (Steady.fatal message).accounted
  intro w hc
  rw [Eff.wp_tryCatch]
  refine Eff.wp_mono (hbody w hc) (fun _ _ h => h) ?_
  intro e w₁ hpost
  obtain ⟨hb, hor⟩ := hpost
  unfold pctCaught
  rw [Eff.wp_ite]
  exact ⟨fun _ => ⟨hb, hor⟩, fun hname => hor.resolve_left hname⟩

end Accounted

/-- A request for no more bytes than one call gives keeps the count: it
reseeds where the counter has run out, then draws once. -/
theorem accounted_random {n : Nat} (h1 : 1 ≤ n)
    (hmax : n ≤ maxBytesPerRequest) : Accounted (random env n) := fun _ hc =>
  Eff.wp_mono (wp_random_counted env hc h1 hmax) (fun _ _ h => h)
    fun _ _ h => ⟨h.1, Or.inl h.2⟩

/-- Comparing two secrets draws nothing. -/
theorem steady_compareSecrets (m : Nat) (sharedSecret recovered : Bytes) :
    Steady (compareSecrets m sharedSecret recovered) :=
  .bind (.newMarked ⟨by decide, by decide⟩ _) fun ss =>
  .bind (.newMarked ⟨by decide, by decide⟩ _) fun r =>
  .bind (.fillZero m) fun _ => .bind (.fillZero ss) fun _ =>
  .bind (.fillZero r) fun _ => .pure _

/-- The pairwise test of a KEM draws its message, once, and `random` has
counted that. -/
theorem accounted_pctKem (kem : KemSet) (publicKey secretKey : Bytes) :
    Accounted (pctKem env kem publicKey secretKey) :=
  .pct <| .bind (accounted_random env (by decide) (by decide)) fun m =>
  Steady.accounted <| .bind (.contents m) fun _ => .bind (.ask _) fun _ =>
  .bind (.ask _) fun _ => steady_compareSecrets m _ _

/-- The pairwise test of a signature draws its randomness, likewise. -/
theorem accounted_pctDsa (dsa : DsaSet) (publicKey secretKey : Bytes) :
    Accounted (pctDsa env dsa publicKey secretKey) :=
  .pct <| .bind (accounted_random env (by decide) (by decide)) fun rnd =>
  Steady.accounted <| .bind (.contents rnd) fun _ => .bind (.ask _) fun _ =>
  .bind (.fillZero rnd) fun _ => .ask _

-- =========================================================== services

/-- A value or a throw from outside is accounted for. -/
theorem accounted_ofExcept (r : Except JsError α) :
    Accounted (Eff.ofExcept r : Proc α) := (Steady.ofExcept r).accounted

/-- Generating a pair draws a seed and tests the pair, and keeps the count
in both. -/
theorem accounted_generateKeypair (alg : JsVal) :
    Accounted (generateKeypair rt env alg) := by
  unfold generateKeypair
  refine .bind (accounted_ofExcept _) fun name => ?_
  cases entryOf KEM alg with
  | some kem =>
      exact .bind (accounted_random env (by decide) (by decide)) fun seed =>
        .bind (Steady.contents seed).accounted fun _ =>
        .bind (Steady.ask _).accounted fun kp =>
        .bind (accounted_pctKem env kem _ _) fun _ =>
        (Steady.pure _).accounted
  | none =>
      exact .bind (accounted_ofExcept _) fun dsa =>
        .bind (accounted_random env (by decide) (by decide)) fun seed =>
        .bind (Steady.contents seed).accounted fun _ =>
        .bind (Steady.ask _).accounted fun kp =>
        .bind (accounted_pctDsa env dsa _ _) fun _ =>
        (Steady.pure _).accounted

/-- Time that passes is not counted. -/
theorem Idle.steady {p : Proc α} (h : Idle p) : Steady p := by
  intro w
  refine Eff.wp_mono (h w) ?_ ?_
  · rintro a w' ⟨t, rfl⟩
    exact Same.silent rfl rfl rfl
  · rintro e w' ⟨t, rfl⟩
    exact Same.silent rfl rfl rfl

/-- Wiping one buffer does not throw. -/
theorem wp_fillZero_same (l : Nat) (w : World) :
    Eff.wp (fillZero l) (fun _ => Same w) (fun _ _ => False) w :=
  Same.silent rfl rfl rfl

/-- Encapsulation draws a message, and keeps the count. -/
theorem accounted_encapsulate (alg publicKey : JsVal) :
    Accounted (encapsulate rt env alg publicKey) :=
  .bind (accounted_ofExcept _) fun _ => .bind (accounted_ofExcept _) fun _ =>
  .bind (accounted_random env (by decide) (by decide)) fun m =>
  .tryFinally (Steady.accounted <|
    .bind (.contents m) fun _ => .bind (.ask _) fun _ => .pure _)
    (wp_fillZero_same m)

/-- Signing draws its randomness, and keeps the count. -/
theorem accounted_sign (alg secretKey message opts : JsVal) :
    Accounted (sign rt env alg secretKey message opts) :=
  .bind (accounted_ofExcept _) fun _ => .bind (accounted_ofExcept _) fun _ =>
  .bind (accounted_ofExcept _) fun _ => .bind (accounted_ofExcept _) fun _ =>
  .bind (accounted_random env (by decide) (by decide)) fun rnd =>
  .tryFinally (Steady.accounted <|
    .bind (.contents rnd) fun _ => .bind (.ask _) fun _ => .pure _)
    (wp_fillZero_same rnd)

/-- Every service keeps the account: the draws it makes are made by
`random`, and nothing else that a service calls counts. -/
theorem accounted_service {r : Request} {p : Proc Output}
    (hp : r.service? rt env = some p) : Accounted p := by
  cases r with
  | generateKeypair alg =>
      cases hp
      exact accounted_generateKeypair rt env alg
  | keypairFromSeed alg seed =>
      cases hp
      exact (idle_asks.keypairFromSeed rt env alg seed).steady.accounted
  | encapsulate alg publicKey =>
      cases hp
      exact accounted_encapsulate rt env alg publicKey
  | decapsulate alg cipherText secretKey =>
      cases hp
      exact (idle_asks.decapsulate rt env alg cipherText
        secretKey).steady.accounted
  | sign alg secretKey message opts =>
      cases hp
      exact accounted_sign rt env alg secretKey message opts
  | verify alg publicKey message signature opts =>
      cases hp
      exact (idle_asks.verify rt env alg publicKey message signature
        opts).steady.accounted
  | selfTest => cases hp
  | status => cases hp

-- =========================================================== start-up

/-- A known-answer test draws nothing. -/
theorem steady_cast (c : Cast) : Steady (cast env c) :=
  .askLogged _ fun _ => nofun

/-- The tests of the integrity check draw nothing. -/
theorem steady_runIntegrityCasts : Steady (runIntegrityCasts env) :=
  .bind (steady_cast env _) fun _ => steady_cast env _

/-- Nor do the tests of the algorithms. -/
theorem steady_runAlgorithmCasts : Steady (runAlgorithmCasts env) :=
  .bind (steady_cast env _) fun _ => .bind (steady_cast env _) fun _ =>
  .bind (steady_cast env _) fun _ => .bind (steady_cast env _) fun _ =>
  steady_cast env _

/-- The account of a module: in order while it is operational, and never out
of bounds. -/
structure Ledger (m : Module) : Prop where
  bounded : Bounded m.world
  counted : m.state = .operational → Counted m.world

/-- `destroy` counts nothing. -/
theorem wp_destroy_bounded (hb : Bounded w) :
    Eff.wp destroy (fun _ => Bounded) (fun _ => Bounded) w := by
  have hheld : ∀ l, Steady (HmacDrbg.fillHeld l) := by
    intro l
    cases l with
    | none => exact .pure _
    | some l => exact .fillZero l
  unfold destroy HmacDrbg.uninstantiate
  simp only [Eff.wp_bind, Eff.wp_get, Eff.wp_modify]
  refine Eff.wp_mono (hheld _ w) ?_ fun _ _ h => hb.same h
  intro _ w₁ h₁
  refine Eff.wp_mono (hheld _ w₁) ?_ fun _ _ h => (hb.same h₁).same h
  intro _ w₂ h₂
  have hb₂ := (hb.same h₁).same h₂
  exact ⟨hb₂.no_throw, hb₂.draws⟩

/-- The error state keeps what is bounded. -/
theorem ledger_enterError {m : Module} (hb : Bounded m.world)
    (err : JsError) :
    Eff.wp (enterError err) (fun _ => Ledger) (fun _ _ => False) m := by
  unfold enterError dropServices
  simp only [Eff.wp_bind, Eff.wp_modify, Eff.wp_get]
  rw [Eff.wp_ite]
  refine ⟨fun _ => ?_, fun _ => ⟨hb, nofun⟩⟩
  simp only [Eff.wp_bind, Eff.wp_tryCatch, wp_lift, Eff.wp_pure,
    Eff.wp_modify]
  exact Eff.wp_mono (wp_destroy_bounded hb) (fun _ _ h => ⟨h, nofun⟩)
    fun _ _ h => ⟨h, nofun⟩

/-- The error state keeps the account. -/
theorem ledger_enterErrorAndThrow {m : Module} (hb : Bounded m.world)
    (err : JsError) :
    Eff.wp (enterErrorAndThrow err : Act α) (fun _ => Ledger)
      (fun _ => Ledger) m := by
  unfold enterErrorAndThrow
  rw [Eff.wp_bind]
  exact Eff.wp_mono (ledger_enterError hb err) (fun _ _ h => h)
    fun _ _ h => h.elim

/-- A service keeps the ledger. If it throws what is fatal the module is in
its error state, which asks for no count. -/
theorem ledger_call {m : Module} {p : Proc Output} (hp : Accounted p)
    (hl : Ledger m) (hserv : m.state = .operational → m.services = true) :
    Eff.wp (call p) (fun _ => Ledger) (fun _ => Ledger) m := by
  unfold call
  rw [Eff.wp_bind, Eff.wp_get]
  simp only
  rw [Eff.wp_ite]
  refine ⟨fun _ => hl, fun hstate => ?_⟩
  have hop := not_not.mp hstate
  rw [Eff.wp_tryCatch, wp_onServices p (hserv hop), wp_lift]
  refine Eff.wp_mono (hp m.world (hl.counted hop)) ?_ ?_
  · intro o w hc
    exact ⟨hc.toBounded, fun _ => hc⟩
  · intro e w hpost
    obtain ⟨hb, hor⟩ := hpost
    rw [Eff.wp_ite]
    refine ⟨fun _ => ledger_enterErrorAndThrow hb e, fun hfatal => ?_⟩
    refine ⟨hb, fun _ => hor.resolve_left fun hname => hfatal ?_⟩
    rw [JsError.fatal, hname]
    rfl

/-- A self-test on demand keeps the account, whether it passes or ends in the
error state. -/
theorem ledger_selfTest {m : Module} (hl : Ledger m)
    (hserv : m.state = .operational → m.services = true) :
    Eff.wp (selfTest env) (fun _ => Ledger) (fun _ => Ledger) m := by
  unfold selfTest
  rw [Eff.wp_bind, Eff.wp_get]
  simp only
  rw [Eff.wp_ite]
  refine ⟨fun _ => hl, fun hstate => ?_⟩
  have hop := not_not.mp hstate
  have hc := hl.counted hop
  unfold integrityTest runCasts status
  simp only [Eff.wp_bind, Eff.wp_tryCatch, wp_lift, Eff.wp_get, Eff.wp_pure]
  refine Eff.wp_mono (steady_runIntegrityCasts env m.world) ?_
    fun e w h => ledger_enterErrorAndThrow (hc.same h).toBounded e
  intro _ w₁ h₁
  have hc₁ := hc.same h₁
  refine Eff.wp_mono (Steady.askLogged env.integrityTest
    (e := .integrity) (fun _ => nofun) w₁) ?_
    fun e w h => ledger_enterErrorAndThrow (hc₁.same h).toBounded e
  intro _ w₂ h₂
  have hc₂ := hc₁.same h₂
  rw [wp_onServices _
    (show ({ m with world := w₂ } : Module).services = true from hserv hop),
    wp_lift]
  refine Eff.wp_mono (steady_runAlgorithmCasts env w₂) ?_
    fun e w h => ledger_enterErrorAndThrow (hc₂.same h).toBounded e
  intro _ w₃ h₃
  exact ⟨(hc₂.same h₃).toBounded, fun _ => hc₂.same h₃⟩

/-- Every call keeps the ledger: the services by `ledger_call`, self-tests
and `destroy` because they draw nothing. -/
theorem Ledger.step {m : Module} (hl : Ledger m) (hinv : Inv env m)
    (r : Request) : Ledger ((r.run rt env).run m).2 := by
  refine Eff.run_of_wp (P := fun _ => Ledger) ?_
  unfold Request.run
  cases hp : r.service? rt env with
  | some p =>
      simp only [Eff.wp_map]
      exact ledger_call (accounted_service rt env hp) hl hinv.services
  | none =>
      cases r with
      | selfTest =>
          simp only [Eff.wp_map]
          exact ledger_selfTest env hl hinv.services
      | status =>
          simp only [Eff.wp_map, status, Eff.wp_bind, Eff.wp_get,
            Eff.wp_pure]
          exact hl
      | _ => cases hp

end Random

end KxcoPostQuantum.Fips
