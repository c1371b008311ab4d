/-
The module's state machine over whole runs: start-up, then any calls
with any arguments, in any environment.

`Outcome` says once what a call can do. It is refused, with the module
as it was; it answers, or throws an error of its own, and nothing failed
on the way; or the module stops: error state, no services, no DRBG
state, and the caller gets the module's error. From it each part of the
contract is a case analysis, and `Inv` an induction over the calls.
-/
import KxcoPostQuantum.Fips.Index
import KxcoPostQuantum.Fips.Proofs.Failures

namespace KxcoPostQuantum.Fips

open Lib (Eff)

variable {rt : Runtime} {env : Env} {m m' : Module}

-- ============================================================== states

/-- What succeeds before the DRBG is instantiated, in order. -/
def milestones : List Event :=
  [.cast .sha256 true, .cast .mlDsaVerify true, .integrity true,
    .cast .sha512 true, .cast .hmac true, .cast .drbg true,
    .cast .mlKem true, .cast .mlDsa true]

/-- Start-up succeeded in the order it must, and nothing has failed
since. -/
structure Operational (m : Module) : Prop where
  services : m.services = true
  instantiated : HmacDrbg.instantiated m.world.drbg = true
  order : ∃ reads rest,
    m.world.trace = milestones ++ reads ++ .instantiated :: rest
  no_failure : ¬Failure m.world.trace

/-- No service is left, nor any state of the DRBG they used. -/
structure Stopped (m : Module) : Prop where
  state : m.state = .error
  services : m.services = false
  K : m.world.drbg.K = none
  V : m.world.drbg.V = none

/-- The call is refused with the module's error code. -/
def RefusedBy (r : Except JsError Response) : Prop :=
  ∃ e, r = .error e ∧ e.code = some ERR_KXCO_PQ_FIPS

-- =============================================================== wp

/-- What a procedure does to the world it does inside the module, whose
other fields it cannot reach. -/
theorem wp_lift {α : Type} (p : Proc α) {Q : α → Module → Prop}
    {E : JsError → Module → Prop} :
    Eff.wp (lift p) Q E m
      = Eff.wp p (fun a w => Q a { m with world := w })
          (fun e w => E e { m with world := w }) m.world := by
  have hrun : (lift p).run m
      = ((p.run m.world).1, { m with world := (p.run m.world).2 }) := rfl
  rcases hp : p.run m.world with ⟨e | a, w⟩
  · rw [hp] at hrun
    rw [Eff.wp_of_error hrun, Eff.wp_of_error hp]
  · rw [hp] at hrun
    rw [Eff.wp_of_ok hrun, Eff.wp_of_ok hp]

/-- Wiping what is held tells nobody. -/
private theorem wp_fillHeld (l : Option Nat) (w : World) :
    Eff.wp (HmacDrbg.fillHeld l) (fun _ w' => w'.trace = w.trace)
      (fun _ _ => False) w := by
  cases l with
  | none => exact rfl
  | some l => exact rfl

/-- With the service table there, a service is its procedure. -/
theorem wp_onServices {α : Type} (p : Proc α) {Q : α → Module → Prop}
    {E : JsError → Module → Prop} (hs : m.services = true) :
    Eff.wp (onServices p) Q E m = Eff.wp (lift p) Q E m := by
  unfold onServices
  rw [Eff.wp_bind, Eff.wp_get]
  simp only [if_pos hs]

/-- `destroy` leaves the DRBG nothing. -/
theorem wp_destroy (w : World) :
    Eff.wp destroy
      (fun _ w' => w'.trace = w.trace ∧ w'.drbg.K = none ∧ w'.drbg.V = none)
      (fun _ _ => False) w := by
  unfold destroy HmacDrbg.uninstantiate
  simp only [Eff.wp_bind, Eff.wp_get, Eff.wp_modify]
  refine Eff.wp_mono (wp_fillHeld _ w) ?_ fun _ _ h => h
  intro _ w₁ h₁
  refine Eff.wp_mono (wp_fillHeld _ w₁) ?_ fun _ _ h => h
  intro _ w₂ h₂
  exact ⟨h₂.trans h₁, trivial, trivial⟩

/-- Entering the error state with services stops the module. -/
theorem wp_enterError (err : JsError) (hs : m.services = true) :
    Eff.wp (enterError err)
      (fun _ m' => Stopped m' ∧ m'.world.trace = m.world.trace)
      (fun _ _ => False) m := by
  unfold enterError dropServices
  simp only [Eff.wp_bind, Eff.wp_modify, Eff.wp_get, hs, if_true,
    Eff.wp_tryCatch, wp_lift]
  refine Eff.wp_mono (wp_destroy m.world) ?_ fun _ _ h => h.elim
  intro _ w hpost
  obtain ⟨ht, hK, hV⟩ := hpost
  exact ⟨⟨rfl, rfl, hK, hV⟩, ht⟩

/-- The error state is entered and the error thrown, with the code of the
module. -/
theorem wp_enterErrorAndThrow {α : Type} (err : JsError)
    (hs : m.services = true) :
    Eff.wp (enterErrorAndThrow err : Act α) (fun _ _ => False)
      (fun e m' => e.code = some ERR_KXCO_PQ_FIPS ∧ Stopped m') m := by
  unfold enterErrorAndThrow
  rw [Eff.wp_bind]
  refine Eff.wp_mono (wp_enterError err hs) ?_ fun _ _ h => h.elim
  intro _ m' hpost
  obtain ⟨h, -⟩ := hpost
  simp only [Eff.wp_bind, Eff.wp_get, Eff.wp_throw]
  exact ⟨rfl, h⟩

-- ======================================================== what calls do

/-- What a call does to a module, given its result and the module it
leaves. -/
inductive Outcome (env : Env) (r : Request) (m : Module) :
    Except JsError Response → Module → Prop
  /-- The module answers, or throws an error of the caller's making. -/
  | answered {result : Except JsError Response} {w : World}
      (hstate : m.state = .operational) (hsmooth : Smooth m.world w)
      (hpair : ∀ alg, r = .generateKeypair alg → ∀ o, result = .ok o →
        ∃ name publicKey secretKey seed,
          o = .output (.keyPair name publicKey secretKey (some seed))
            ∧ PairwisePassed env alg publicKey secretKey m.world.clock
              w.clock) :
      Outcome env r m result { m with world := w }
  /-- The module stops. -/
  | stopped {e : JsError} {m' : Module} (hstate : m.state = .operational)
      (hcode : e.code = some ERR_KXCO_PQ_FIPS) (hstopped : Stopped m') :
      Outcome env r m (.error e) m'
  /-- The module is not operational and refuses. -/
  | refused {e : JsError} (hstate : m.state ≠ .operational)
      (hcode : e.code = some ERR_KXCO_PQ_FIPS) : Outcome env r m (.error e) m
  /-- The module is not operational and says so. -/
  | status {s : Status} (hstate : m.state ≠ .operational)
      (hr : r = .status) : Outcome env r m (.ok (.status s)) m

/-- A service called through `call`: refused while the module is not
operational, and otherwise run, with its fatal errors moving the module to
the error state. -/
theorem wp_call {p : Proc Output} {r : Request}
    (hserv : m.state = .operational → m.services = true)
    (hp : ∀ w, Eff.wp p
      (fun o w' => Smooth w w' ∧ ∀ alg, r = .generateKeypair alg →
        ∃ name publicKey secretKey seed,
          o = .keyPair name publicKey secretKey (some seed)
            ∧ PairwisePassed env alg publicKey secretKey w.clock w'.clock)
      (fun e w' => e.fatal = true ∨ Smooth w w') w) :
    Eff.wp (call p) (fun o => Outcome env r m (.ok (.output o)))
      (fun e => Outcome env r m (.error e)) m := by
  unfold call
  rw [Eff.wp_bind, Eff.wp_get]
  simp only
  rw [Eff.wp_ite]
  refine ⟨fun hstate => .refused hstate rfl, fun hstate => ?_⟩
  have hop : m.state = .operational := by
    by_contra h
    exact hstate h
  rw [Eff.wp_tryCatch, wp_onServices p (hserv hop), wp_lift]
  refine Eff.wp_mono (hp m.world) ?_ ?_
  · intro o w hpost
    obtain ⟨hsmooth, hpair⟩ := hpost
    refine .answered hop hsmooth ?_
    intro alg hr o' ho'
    injection ho' with ho'
    obtain ⟨name, pk, sk, seed, ho, hpass⟩ := hpair alg hr
    exact ⟨name, pk, sk, seed, by rw [← ho', ho], hpass⟩
  · intro e w hor
    rw [Eff.wp_ite]
    refine ⟨fun _ => ?_, fun hfatal => ?_⟩
    · refine Eff.wp_mono (wp_enterErrorAndThrow e (hserv hop)) ?_ ?_
      · exact fun _ _ h => h.elim
      · exact fun e' m' h => .stopped hop h.1 h.2
    · refine .answered hop (hor.resolve_left hfatal) ?_
      intro alg _ o ho
      cases ho

/-- The service of a request is candid, and that of `generateKeypair`
returns pairs its pairwise test passed on. -/
theorem wp_service {r : Request} {p : Proc Output}
    (hp : r.service? rt env = some p) (w : World) :
    Eff.wp p
      (fun o w' => Smooth w w' ∧ ∀ alg, r = .generateKeypair alg →
        ∃ name publicKey secretKey seed,
          o = .keyPair name publicKey secretKey (some seed)
            ∧ PairwisePassed env alg publicKey secretKey w.clock w'.clock)
      (fun e w' => e.fatal = true ∨ Smooth w w') w := by
  have hcandid : ∀ {q : Proc Output}, Candid q →
      (∀ alg, r ≠ .generateKeypair alg) →
      Eff.wp q
        (fun o w' => Smooth w w' ∧ ∀ alg, r = .generateKeypair alg →
          ∃ name publicKey secretKey seed,
            o = .keyPair name publicKey secretKey (some seed)
              ∧ PairwisePassed env alg publicKey secretKey w.clock
                w'.clock)
        (fun e w' => e.fatal = true ∨ Smooth w w') w := fun hq hr =>
    Eff.wp_mono (hq w) (fun _ _ h => ⟨h, fun alg h' => absurd h' (hr alg)⟩)
      fun _ _ h => h
  cases r with
  | generateKeypair alg =>
      injection hp with hp
      subst hp
      refine Eff.wp_mono (wp_generateKeypair rt env alg w) ?_
        fun _ _ h => h
      intro o w' hpost
      obtain ⟨hs, hx⟩ := hpost
      refine ⟨hs, fun alg' h => ?_⟩
      injection h with h
      exact h ▸ hx
  | keypairFromSeed alg seed =>
      injection hp with hp
      subst hp
      exact hcandid (candid_asks.keypairFromSeed rt env alg seed)
        fun _ h => nomatch h
  | encapsulate alg publicKey =>
      injection hp with hp
      subst hp
      exact hcandid (candid_encapsulate rt env alg publicKey)
        fun _ h => nomatch h
  | decapsulate alg cipherText secretKey =>
      injection hp with hp
      subst hp
      exact hcandid (candid_asks.decapsulate rt env alg cipherText secretKey)
        fun _ h => nomatch h
  | sign alg secretKey message opts =>
      injection hp with hp
      subst hp
      exact hcandid (candid_sign rt env alg secretKey message opts)
        fun _ h => nomatch h
  | verify alg publicKey message signature opts =>
      injection hp with hp
      subst hp
      exact hcandid
        (candid_asks.verify rt env alg publicKey message signature opts)
        fun _ h => nomatch h
  | selfTest => cases hp
  | status => cases hp

/-- On-demand self-tests stop the module or leave nothing failed. They end
in an operational module only if each of the algorithm tests has passed. -/
theorem wp_selfTest (hserv : m.state = .operational → m.services = true) :
    Eff.wp (selfTest env)
      (fun s => Outcome env .selfTest m (.ok (.status s)))
      (fun e => Outcome env .selfTest m (.error e)) m := by
  unfold selfTest
  rw [Eff.wp_bind, Eff.wp_get]
  simp only
  rw [Eff.wp_ite]
  refine ⟨fun hstate => .refused hstate rfl, fun hstate => ?_⟩
  have hop : m.state = .operational := by
    by_contra h
    exact hstate h
  have hstop : ∀ (e : JsError) (m₁ : Module), m₁.services = true →
      Eff.wp (enterErrorAndThrow e : Act Unit)
        (fun _ => Eff.wp status
          (fun s => Outcome env .selfTest m (.ok (.status s)))
          (fun e => Outcome env .selfTest m (.error e)))
        (fun e => Outcome env .selfTest m (.error e)) m₁ := fun e m₁ h₁ =>
    Eff.wp_mono (wp_enterErrorAndThrow e h₁) (fun _ _ h => h.elim)
      fun _ _ h => .stopped hop h.1 h.2
  unfold integrityTest runCasts
  simp only [Eff.wp_bind, Eff.wp_tryCatch, wp_lift]
  refine Eff.wp_mono (quiet_runIntegrityCasts env m.world) ?_
    fun e w _ => hstop e _ (hserv hop)
  intro _ w₁ h₁
  refine Eff.wp_mono
    (Quiet.askLogged env.integrityTest rfl rfl w₁) ?_
    fun e w _ => hstop e _ (hserv hop)
  intro _ w₂ h₂
  rw [wp_onServices _
    (show ({ m with world := w₂ } : Module).services = true from hserv hop),
    wp_lift]
  refine Eff.wp_mono (quiet_runAlgorithmCasts env w₂) ?_
    fun e w _ => hstop e _ (hserv hop)
  intro _ w₃ h₃
  refine .answered hop ((h₁.trans h₂).trans h₃) ?_
  intro alg hr
  cases hr

/-- Every call has one of the four outcomes: the module answers and is as it
was but for its world, it stops, it refuses because it is not operational,
or it says so in a status. -/
theorem outcome (r : Request)
    (hserv : m.state = .operational → m.services = true) :
    Outcome env r m ((r.run rt env).run m).1 ((r.run rt env).run m).2 := by
  refine Eff.run_of_wp (P := Outcome env r m) ?_
  unfold Request.run
  cases hp : r.service? rt env with
  | some p =>
      simp only [Eff.wp_map]
      exact wp_call hserv fun w => wp_service hp w
  | none =>
      have hcases : r = .selfTest ∨ r = .status := by
        cases r <;> first | exact Or.inl rfl | exact Or.inr rfl | cases hp
      rcases hcases with rfl | rfl
      · simp only [Eff.wp_map]
        exact wp_selfTest hserv
      · simp only [Eff.wp_map, status, Eff.wp_bind, Eff.wp_get, Eff.wp_pure]
        by_cases hstate : m.state = .operational
        · refine .answered hstate (Smooth.refl _) ?_
          intro alg hr
          cases hr
        · exact .status hstate rfl

-- =========================================================== start-up

/-- A self-test that returns has passed, and says so. -/
private theorem wp_cast_passed (c : Cast) {w : World} {es : List Event}
    (hes : w.trace = es) :
    Eff.wp (cast env c) (fun _ w' => w'.trace = es ++ [.cast c true])
      (fun _ _ => True) w :=
  wp_askLogged (fun _ _ => by simp only [hes]) fun _ _ => trivial

/-- `runIntegrityCasts` returns when both have passed. -/
private theorem wp_runIntegrityCasts {w : World} {es : List Event}
    (hes : w.trace = es) :
    Eff.wp (runIntegrityCasts env)
      (fun _ w' => w'.trace
        = es ++ [.cast .sha256 true] ++ [.cast .mlDsaVerify true])
      (fun _ _ => True) w := by
  unfold runIntegrityCasts
  rw [Eff.wp_bind]
  refine Eff.wp_mono (wp_cast_passed _ hes) ?_ fun _ _ h => h
  exact fun _ w₁ h₁ => wp_cast_passed _ h₁

/-- `runAlgorithmCasts` returns when all five have passed, and has said so
of each, in this order. -/
private theorem wp_runAlgorithmCasts {w : World} {es : List Event}
    (hes : w.trace = es) :
    Eff.wp (runAlgorithmCasts env)
      (fun _ w' => w'.trace
        = es ++ [.cast .sha512 true] ++ [.cast .hmac true]
          ++ [.cast .drbg true] ++ [.cast .mlKem true]
          ++ [.cast .mlDsa true])
      (fun _ _ => True) w := by
  unfold runAlgorithmCasts
  simp only [Eff.wp_bind]
  refine Eff.wp_mono (wp_cast_passed _ hes) ?_ fun _ _ h => h
  intro _ w₁ h₁
  refine Eff.wp_mono (wp_cast_passed _ h₁) ?_ fun _ _ h => h
  intro _ w₂ h₂
  refine Eff.wp_mono (wp_cast_passed _ h₂) ?_ fun _ _ h => h
  intro _ w₃ h₃
  refine Eff.wp_mono (wp_cast_passed _ h₃) ?_ fun _ _ h => h
  exact fun _ w₄ h₄ => wp_cast_passed _ h₄

/-- An instantiation that returns leaves the DRBG instantiated: it ends with
an update, and each of its steps has put arrays in the place of K and V. -/
theorem wp_instantiate_instantiated (hmac : Hmac) (e n : ByteArg)
    (p : Option ByteArg) (w : World) :
    Eff.wp (HmacDrbg.instantiate hmac e n p)
      (fun _ w' => Smooth w w' ∧ HmacDrbg.instantiated w'.drbg = true)
      (fun _ _ => True) w := by
  unfold HmacDrbg.instantiate
  rw [Eff.wp_bind]
  refine Eff.wp_mono (Quiet.ofExcept _ w) ?_ fun _ _ h => h
  intro be w₁ h₁
  rw [Eff.wp_ite]
  refine ⟨fun _ => trivial, fun _ => ?_⟩
  rw [Eff.wp_bind]
  refine Eff.wp_mono (Quiet.ofExcept _ w₁) ?_ fun _ _ h => h
  intro bn w₂ h₂
  rw [Eff.wp_ite]
  refine ⟨fun _ => trivial, fun _ => ?_⟩
  -- from the first assignment on, K is there and stays there
  simp only [Eff.wp_bind, wp_newArray, HmacDrbg.wp_setK]
  generalize hw₃ : ({ w₂ with
      heap := (w₂.heap.alloc (List.replicate outlen 0)).2
      drbg := { w₂.drbg with K := some w₂.heap.size }
      marks := w₂.marks ++ [(.drbgState, w₂.heap.size)] } : World) = w₃
  have hK : HmacDrbg.instantiated w₃.drbg = true := by
    rw [← hw₃]
    rfl
  have h₃ : Smooth w w₃ := by
    refine (h₁.trans h₂).trans (.silent ?_ (fun _ => hK) ?_)
    · rw [← hw₃]
    · rw [← hw₃]
  have hquiet : Quiet (do
      HmacDrbg.setV (← newArray (List.replicate outlen 1))
      let seedMaterial ← Eff.ofExcept (concat [e, n, p.getD .empty])
      HmacDrbg.update hmac (.bytes seedMaterial)
      HmacDrbg.setCounter 1) :=
    .bind (.newArray _) fun v => .bind (quiet_setV v) fun _ =>
    .bind (.ofExcept _) fun _ =>
    .bind (quiet_update hmac _) fun _ => quiet_setCounter 1
  have hdone : ∀ (u : Unit) w', Smooth w₃ w' →
      Smooth w w' ∧ HmacDrbg.instantiated w'.drbg = true :=
    fun _ _ h => ⟨h₃.trans h, h.instantiated hK⟩
  have hrest := Eff.wp_mono (hquiet w₃) hdone fun _ _ h => h
  simp only [Eff.wp_bind, wp_newArray] at hrest
  subst hw₃
  exact hrest

/-- `start` returns when the algorithm self-tests and the instantiation
have succeeded. -/
private theorem wp_start {w : World} {es : List Event}
    (hes : w.trace = es) :
    Eff.wp (start env)
      (fun _ w' => HmacDrbg.instantiated w'.drbg = true
        ∧ ∃ reads, w'.trace
          = es ++ [.cast .sha512 true] ++ [.cast .hmac true]
            ++ [.cast .drbg true] ++ [.cast .mlKem true]
            ++ [.cast .mlDsa true] ++ reads ++ [.instantiated]
          ∧ ¬Failure reads)
      (fun _ _ => True) w := by
  unfold start
  simp only [Eff.wp_bind, Eff.wp_modify, Eff.wp_tryCatch, wp_emit]
  refine Eff.wp_mono (wp_runAlgorithmCasts hes) ?_ fun _ _ h => h
  intro _ w₁ h₁
  unfold instantiateDrbg
  simp only [Eff.wp_bind, wp_contents, wp_fillZero]
  refine Eff.wp_mono (quiet_getEntropy env entropyBytes _) ?_
    fun _ _ _ => trivial
  intro entropy w₂ h₂
  refine Eff.wp_mono (quiet_getEntropy env nonceBytes w₂) ?_
    fun _ _ _ => trivial
  intro nonce w₃ h₃
  refine Eff.wp_mono (wp_instantiate_instantiated env.hmac _ _ _ w₃) ?_
    fun _ _ _ => trivial
  intro _ w₄ hpost
  obtain ⟨h₄, hK⟩ := hpost
  obtain ⟨reads, hr, hf⟩ := ((h₂.trans h₃).trans h₄).trace
  refine ⟨hK, reads, ?_, hf⟩
  rw [hr]
  simp only [HmacDrbg.create, h₁]

/-- Start-up that does not throw leaves the module operational; start-up
that throws has not come to the services. -/
private theorem wp_startUp :
    Eff.wp (startUp env)
      (fun _ m => m.state = .operational ∧ Operational m)
      (fun _ m => m.services = false) {} := by
  unfold startUp
  rw [Eff.wp_ite]
  refine ⟨fun _ => rfl, fun _ => ?_⟩
  unfold integrityTest
  simp only [Eff.wp_bind, wp_lift, Eff.wp_modify]
  refine Eff.wp_mono (wp_runIntegrityCasts rfl) ?_ fun _ _ _ => trivial
  intro _ w₁ h₁
  refine wp_askLogged (fun manifest _ => ?_) fun _ _ => trivial
  cases manifest.get (js "version") with
  | error e => exact rfl
  | ok version =>
      rw [Eff.wp_ofExcept_ok]
      refine wp_ask (fun _ _ => ?_) fun _ _ => rfl
      refine Eff.wp_mono (wp_start (congrArg (· ++ _) h₁)) ?_
        fun _ _ _ => rfl
      intro _ w₂ hpost
      obtain ⟨hK, reads, hr, hf⟩ := hpost
      refine ⟨trivial, rfl, hK, ⟨reads, [], ?_⟩, ?_⟩
      · simp only [hr]
        rfl
      · simp only [hr]
        exact not_failure_append (not_failure_append (by decide) hf)
          (not_failure_singleton rfl rfl)

/-- After start-up the module is operational, or in the error state with
no services. -/
theorem booted_cases (env : Env) :
    (booted env).state = .operational ∧ Operational (booted env)
      ∨ (booted env).state = .error ∧ (booted env).services = false := by
  refine Eff.run_of_wp (P := fun _ m =>
    m.state = .operational ∧ Operational m
      ∨ m.state = .error ∧ m.services = false) ?_
  unfold boot
  rw [Eff.wp_tryCatch]
  refine Eff.wp_mono wp_startUp (fun _ _ h => Or.inl h) ?_
  intro e m hs
  unfold enterError dropServices
  simp only [Eff.wp_bind, Eff.wp_modify, Eff.wp_get, hs,
    Bool.false_eq_true, if_false, Eff.wp_pure]
  exact Or.inr ⟨trivial, trivial⟩

-- ================================================================ runs

/-- What holds of a module in any reachable state: it is operational and
everything it rests on has succeeded, or it is in the error state with
no services, and with no DRBG state if there ever were services. -/
def Inv (env : Env) (m : Module) : Prop :=
  m.state = .operational ∧ Operational m
    ∨ m.state = .error ∧ m.services = false
      ∧ ((booted env).state = .operational →
        m.world.drbg.K = none ∧ m.world.drbg.V = none)

/-- The invariant holds when start-up is over, however it ends. -/
theorem inv_booted (env : Env) : Inv env (booted env) := by
  rcases booted_cases env with h | ⟨hs, hserv⟩
  · exact Or.inl h
  · refine Or.inr ⟨hs, hserv, fun hop => ?_⟩
    rw [hop] at hs
    cases hs

/-- An operational module has its services. -/
theorem Inv.services (h : Inv env m) (hop : m.state = .operational) :
    m.services = true := by
  rcases h with ⟨-, h⟩ | ⟨he, -⟩
  · exact h.services
  · rw [hop] at he
    cases he

/-- A smooth step keeps the module operational. -/
theorem Operational.smooth {w : World} (h : Operational m)
    (hw : Smooth m.world w) : Operational { m with world := w } := by
  obtain ⟨es, he, hf⟩ := hw.trace
  obtain ⟨reads, rest, ho⟩ := h.order
  refine ⟨h.services, hw.instantiated h.instantiated,
    ⟨reads, rest ++ es, ?_⟩, ?_⟩
  · simp only [he, ho, List.append_assoc, List.cons_append]
  · simp only [he]
    exact not_failure_append h.no_failure hf

/-- One request keeps the invariant, by the four outcomes: three leave the
state of the module as it was, and the fourth is the error state. -/
theorem Inv.step (h : Inv env m) (r : Request) :
    Inv env ((r.run rt env).run m).2 := by
  have hout := @outcome rt env _ r h.services
  generalize ((r.run rt env).run m).1 = result at hout
  generalize ((r.run rt env).run m).2 = m' at hout ⊢
  cases hout with
  | answered hstate hsmooth _ =>
      rcases h with ⟨-, hop⟩ | ⟨he, -⟩
      · exact Or.inl ⟨hstate, hop.smooth hsmooth⟩
      · rw [hstate] at he
        cases he
  | stopped _ _ hs =>
      exact Or.inr ⟨hs.state, hs.services, fun _ => ⟨hs.K, hs.V⟩⟩
  | refused _ _ => exact h
  | status _ _ => exact h

/-- The module after start-up and a sequence of calls. -/
def after (rt : Runtime) (env : Env) (requests : List Request) : Module :=
  requests.foldl (fun m r => ((r.run rt env).run m).2) (booted env)

/-- Requests one after another are handled from where the first of them
lead. -/
theorem after_append (past later : List Request) :
    after rt env (past ++ later)
      = later.foldl (fun m r => ((r.run rt env).run m).2)
          (after rt env past) := List.foldl_append

/-- Requests one after another keep the invariant. -/
theorem inv_foldl (h : Inv env m) (requests : List Request) :
    Inv env (requests.foldl (fun m r => ((r.run rt env).run m).2) m) := by
  induction requests generalizing m with
  | nil => exact h
  | cons r rs ih => exact ih (h.step r)

/-- Every state that is reached from start-up has the invariant. -/
theorem inv_after (requests : List Request) :
    Inv env (after rt env requests) :=
  inv_foldl (inv_booted env) requests

/-- A module in the error state leaves a call as it came: it refuses
everything but `status`, and no call leads out of that state. -/
theorem error_step (h : Inv env m) (he : m.state = .error) (r : Request) :
    ((r.run rt env).run m).2 = m
      ∧ (r ≠ .status → RefusedBy ((r.run rt env).run m).1) := by
  have hout := @outcome rt env _ r h.services
  generalize ((r.run rt env).run m).1 = result at hout ⊢
  generalize ((r.run rt env).run m).2 = m' at hout ⊢
  cases hout with
  | answered hstate _ _ =>
      rw [he] at hstate
      cases hstate
  | stopped hstate _ _ =>
      rw [he] at hstate
      cases hstate
  | refused _ hcode => exact ⟨rfl, fun _ => ⟨_, rfl, hcode⟩⟩
  | status _ hr => exact ⟨rfl, fun h => absurd hr h⟩

/-- The error state is not left again: no request changes anything in it. -/
theorem error_foldl (h : Inv env m) (he : m.state = .error)
    (requests : List Request) :
    requests.foldl (fun m r => ((r.run rt env).run m).2) m = m := by
  induction requests with
  | nil => rfl
  | cons r rs ih => rw [List.foldl_cons, (error_step h he r).1, ih]

/-- The events of a call. -/
def eventsOf (m m' : Module) : List Event :=
  m'.world.trace.drop m.world.trace.length

/-- A failure in a call stops the module, and its caller is told: whatever
the call was, it ends in the error state and throws. -/
theorem failure_stops (h : Inv env m) (r : Request)
    (hf : Failure (eventsOf m ((r.run rt env).run m).2)) :
    Stopped ((r.run rt env).run m).2
      ∧ RefusedBy ((r.run rt env).run m).1 := by
  have hout := @outcome rt env _ r h.services
  generalize ((r.run rt env).run m).1 = result at hout ⊢
  generalize ((r.run rt env).run m).2 = m' at hout hf ⊢
  have hsame : ¬Failure (eventsOf m m) := by
    rw [eventsOf, List.drop_length]
    exact not_failure_nil
  cases hout with
  | answered _ hsmooth _ =>
      obtain ⟨es, he, hnf⟩ := hsmooth.trace
      rw [eventsOf, he, List.drop_left] at hf
      exact absurd hf hnf
  | stopped _ hcode hs => exact ⟨hs, _, rfl, hcode⟩
  | refused _ _ => exact absurd hf hsame
  | status _ _ => exact absurd hf hsame

/-- **The state machine.** After start-up and any calls:

- the module is operational only if start-up succeeded in its order and
  nothing has failed since;
- once it is in the error state it stays there whatever is called, with
  no services and nothing left of the DRBG they used, and every call but
  `status` is refused with the module's error code;
- `generateKeypair` returns only pairs its pairwise test passed on, in
  that call;
- every failure in a call, of a pairwise test, a self-test or the DRBG,
  stops the module and is reported with the module's error code. -/
theorem module_stateMachine (rt : Runtime) (env : Env)
    (past : List Request) :
    let m := after rt env past
    (m.state = .operational → Operational m)
      ∧ (m.state = .error → ∀ later : List Request,
        let m' := after rt env (past ++ later)
        m'.state = .error ∧ m'.services = false
          ∧ ((booted env).state = .operational →
            m'.world.drbg.K = none ∧ m'.world.drbg.V = none)
          ∧ ∀ r : Request, r ≠ .status →
            RefusedBy ((r.run rt env).run m').1)
      ∧ (∀ alg o,
        ((Request.run rt env (.generateKeypair alg)).run m).1 = .ok o →
        ∃ name publicKey secretKey seed,
          o = .output (.keyPair name publicKey secretKey (some seed))
            ∧ PairwisePassed env alg publicKey secretKey m.world.clock
              ((Request.run rt env (.generateKeypair alg)).run
                m).2.world.clock)
      ∧ ∀ r : Request, Failure (eventsOf m ((r.run rt env).run m).2) →
        Stopped ((r.run rt env).run m).2
          ∧ RefusedBy ((r.run rt env).run m).1 := by
  intro m
  have hinv : Inv env m := inv_after past
  refine ⟨fun hop => ?_, fun he later => ?_, fun alg o ho => ?_,
    fun r hf => failure_stops hinv r hf⟩
  · rcases hinv with ⟨-, h⟩ | ⟨he, -⟩
    · exact h
    · rw [hop] at he
      cases he
  · intro m'
    have hm' : m' = m := by
      show after rt env (past ++ later) = m
      rw [after_append, error_foldl hinv he]
    rw [hm']
    rcases hinv with ⟨hop, -⟩ | ⟨-, hserv, hdrbg⟩
    · rw [he] at hop
      cases hop
    · exact ⟨he, hserv, hdrbg,
        fun r hr => (error_step (Or.inr ⟨he, hserv, hdrbg⟩) he r).2 hr⟩
  · have hout := @outcome rt env _ (.generateKeypair alg)
      hinv.services
    generalize ((Request.run rt env (.generateKeypair alg)).run m).2 = m'
      at hout ⊢
    rw [ho] at hout
    cases hout with
    | answered _ _ hpair => exact hpair alg rfl o rfl
    | status _ hr => cases hr

end KxcoPostQuantum.Fips
