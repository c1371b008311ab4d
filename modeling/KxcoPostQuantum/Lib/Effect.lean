/-
Computations that read and write a state and may throw: the semantics
of a single-threaded imperative program, with the pre- and
postcondition rules its proofs run on.

# The monad

`Eff σ ε α` maps a state to a result and a state. The state survives a
throw: a `catch` resumes from the state the throw left behind, not from
the one the `try` began in. That is what separates it from
`StateT σ (Except ε)`, where a throw rolls the state back.

# The rules

`wp m Q E s` holds when the run of `m` from `s` ends in `Q` if it
returns and in `E` if it throws. Every combinator has an equation
(`wp_pure`, `wp_bind`, `wp_throw`, `wp_tryCatch`, `wp_tryFinally`),
tagged for simp, so a straight-line program reduces to its
postcondition; a called function enters through its own lemma and
`wp_mono`. Since runs are deterministic the predicate is exact: `wp`
with `Q := (· = ·)` computes a result, not only a bound on it.
-/
import Mathlib.Tactic.Common

namespace Lib

/-- A computation over the state `σ` that may throw an `ε`. -/
def Eff (σ ε α : Type) : Type := σ → Except ε α × σ

namespace Eff

variable {σ ε α β : Type}

/-- Run a computation from a state. -/
def run (m : Eff σ ε α) (s : σ) : Except ε α × σ := m s

instance : Monad (Eff σ ε) where
  pure a := fun s => (.ok a, s)
  bind m f := fun s =>
    match m s with
    | (.ok a, s') => f a s'
    | (.error e, s') => (.error e, s')

instance : MonadExcept ε (Eff σ ε) where
  throw e := fun s => (.error e, s)
  tryCatch m h := fun s =>
    match m s with
    | (.ok a, s') => (.ok a, s')
    | (.error e, s') => h e s'

/-- The current state. -/
def get : Eff σ ε σ := fun s => (.ok s, s)

/-- Update the state. -/
def modify (f : σ → σ) : Eff σ ε Unit := fun s => (.ok (), f s)

/-- A value or a throw, without touching the state. -/
def ofExcept : Except ε α → Eff σ ε α
  | .ok a => pure a
  | .error e => throw e

/-- `try m finally c`: `c` runs on both paths; a throw of `c` replaces
the result of `m`. -/
def tryFinally (m : Eff σ ε α) (c : Eff σ ε Unit) : Eff σ ε α := fun s =>
  match m s with
  | (r, s') =>
      match c s' with
      | (.ok _, s'') => (r, s'')
      | (.error e, s'') => (.error e, s'')

-- ============================================== postconditions

/-- The run of `m` from `s` ends in `Q` if it returns and in `E` if it
throws. -/
def wp (m : Eff σ ε α) (Q : α → σ → Prop) (E : ε → σ → Prop) (s : σ) :
    Prop :=
  match m.run s with
  | (.ok a, s') => Q a s'
  | (.error e, s') => E e s'

variable {m : Eff σ ε α} {Q Q' : α → σ → Prop} {E E' : ε → σ → Prop}
variable {s s' : σ}

/-- `wp` of a run known to return. -/
theorem wp_of_ok {a : α} (h : m.run s = (.ok a, s')) :
    wp m Q E s = Q a s' := by
  unfold wp
  rw [h]

/-- `wp` of a run known to throw. -/
theorem wp_of_error {e : ε} (h : m.run s = (.error e, s')) :
    wp m Q E s = E e s' := by
  unfold wp
  rw [h]

@[simp] theorem wp_pure (a : α) : wp (pure a) Q E = Q a := rfl

@[simp] theorem wp_throw (e : ε) : wp (throw e : Eff σ ε α) Q E = E e := rfl

@[simp] theorem wp_get {Q : σ → σ → Prop} :
    wp (get : Eff σ ε σ) Q E = fun s => Q s s := rfl

@[simp] theorem wp_modify (f : σ → σ) {Q : Unit → σ → Prop} :
    wp (modify f : Eff σ ε Unit) Q E = fun s => Q () (f s) := rfl

@[simp] theorem wp_ofExcept_ok (a : α) :
    wp (ofExcept (Except.ok a) : Eff σ ε α) Q E = Q a := rfl

@[simp] theorem wp_ofExcept_error (e : ε) :
    wp (ofExcept (Except.error e) : Eff σ ε α) Q E = E e := rfl

@[simp] theorem wp_bind (f : α → Eff σ ε β) {Q : β → σ → Prop} :
    wp (m >>= f) Q E = wp m (fun a => wp (f a) Q E) E := by
  funext s
  rcases hm : m.run s with ⟨e | a, s'⟩
  · have hb : (m >>= f).run s = (.error e, s') := by
      show (match m.run s with
        | (.ok a, s') => f a s' | (.error e, s') => (.error e, s')) = _
      rw [hm]
    rw [wp_of_error hm, wp_of_error hb]
  · have hb : (m >>= f).run s = (f a).run s' := by
      show (match m.run s with
        | (.ok a, s') => f a s' | (.error e, s') => (.error e, s')) = _
      rw [hm]
      rfl
    rw [wp_of_ok hm]
    unfold wp
    rw [hb]

@[simp] theorem wp_map (f : α → β) {Q : β → σ → Prop} :
    wp (f <$> m) Q E = wp m (fun a => Q (f a)) E :=
  wp_bind (m := m) (fun a => pure (f a))

@[simp] theorem wp_tryCatch (h : ε → Eff σ ε α) :
    wp (tryCatch m h) Q E = wp m Q (fun e => wp (h e) Q E) := by
  funext s
  rcases hm : m.run s with ⟨e | a, s'⟩
  · have hb : (tryCatch m h : Eff σ ε α).run s = (h e).run s' := by
      show (match m.run s with
        | (.ok a, s') => (Except.ok a, s') | (.error e, s') => h e s') = _
      rw [hm]
      rfl
    rw [wp_of_error hm]
    unfold wp
    rw [hb]
  · have hb : (tryCatch m h : Eff σ ε α).run s = (.ok a, s') := by
      show (match m.run s with
        | (.ok a, s') => (Except.ok a, s') | (.error e, s') => h e s') = _
      rw [hm]
    rw [wp_of_ok hm, wp_of_ok hb]

@[simp] theorem wp_tryFinally (c : Eff σ ε Unit) :
    wp (tryFinally m c) Q E
      = wp m (fun a => wp c (fun _ => Q a) E)
          (fun e => wp c (fun _ => E e) E) := by
  funext s
  have hf : (tryFinally m c).run s
      = match c.run (m.run s).2 with
        | (Except.ok _, s'') => ((m.run s).1, s'')
        | (Except.error e, s'') => (Except.error e, s'') := rfl
  rcases hm : m.run s with ⟨e | a, s'⟩
  · rw [wp_of_error hm]
    rw [hm] at hf
    rcases hc : c.run s' with ⟨e' | u, s''⟩
    · rw [wp_of_error hc, wp_of_error (hf.trans (by rw [hc]))]
    · rw [wp_of_ok hc, wp_of_error (hf.trans (by rw [hc]))]
  · rw [wp_of_ok hm]
    rw [hm] at hf
    rcases hc : c.run s' with ⟨e' | u, s''⟩
    · rw [wp_of_error hc, wp_of_error (hf.trans (by rw [hc]))]
    · rw [wp_of_ok hc, wp_of_ok (hf.trans (by rw [hc]))]

@[simp] theorem wp_ite (c : Prop) [Decidable c] (m₁ m₂ : Eff σ ε α) :
    wp (if c then m₁ else m₂) Q E s
      ↔ (c → wp m₁ Q E s) ∧ (¬c → wp m₂ Q E s) := by
  by_cases hc : c <;> simp [hc]

/-- `wp` read off the run it describes. -/
theorem wp_iff_run :
    wp m Q E s ↔ (∀ a s', m.run s = (.ok a, s') → Q a s')
      ∧ ∀ e s', m.run s = (.error e, s') → E e s' := by
  rcases hm : m.run s with ⟨e | a, s'⟩
  · rw [wp_of_error hm]
    simp
  · rw [wp_of_ok hm]
    simp

/-- Consequence: both postconditions may be weakened. -/
theorem wp_mono (h : wp m Q E s) (hQ : ∀ a s', Q a s' → Q' a s')
    (hE : ∀ e s', E e s' → E' e s') : wp m Q' E' s := by
  rw [wp_iff_run] at h ⊢
  exact ⟨fun a s' hr => hQ a s' (h.1 a s' hr),
    fun e s' hr => hE e s' (h.2 e s' hr)⟩

/-- What the two postconditions say of a run, said of its result. -/
theorem run_of_wp {P : Except ε α → σ → Prop}
    (h : wp m (fun a => P (.ok a)) (fun e => P (.error e)) s) :
    P (m.run s).1 (m.run s).2 := by
  rw [wp_iff_run] at h
  rcases hm : m.run s with ⟨e | a, s'⟩
  · exact h.2 e s' hm
  · exact h.1 a s' hm

-- ===================================================== sequences of calls

section Sequences

variable {ι τ ε' ω : Type}

/-- The state after each of a sequence of calls, whether it returned or
threw. -/
def states (step : ι → Eff σ ε α) : List ι → σ → List σ
  | [], _ => []
  | c :: cs, s =>
      ((step c).run s).2 :: states step cs ((step c).run s).2

/-- Every call of a sequence meets a condition on itself and on the state
it finds. -/
def Along (step : ι → Eff σ ε α) (C : ι → σ → Prop) : List ι → σ → Prop
  | [], _ => True
  | c :: cs, s => C c s ∧ Along step C cs ((step c).run s).2

instance Along.decidable (step : ι → Eff σ ε α) (C : ι → σ → Prop)
    [∀ c s, Decidable (C c s)] :
    (cs : List ι) → (s : σ) → Decidable (Along step C cs s)
  | [], _ => inferInstanceAs (Decidable True)
  | c :: cs, s =>
      have := Along.decidable step C cs ((step c).run s).2
      inferInstanceAs (Decidable (C c s ∧ _))

/-- A property that every call meeting the condition keeps holds after
each call of a sequence that meets it throughout. -/
theorem states_induct {step : ι → Eff σ ε α} {C : ι → σ → Prop}
    {I : σ → Prop} (hstep : ∀ c s, C c s → I s → I ((step c).run s).2)
    {cs : List ι} {s : σ} (hC : Along step C cs s) (hs : I s) :
    ∀ s' ∈ states step cs s, I s' := by
  induction cs generalizing s with
  | nil =>
      intro s' h
      cases h
  | cons c cs ih =>
      intro s' h
      rcases List.mem_cons.mp h with rfl | h
      · exact hstep c s hC.1 hs
      · exact ih hC.2 (hstep c s hC.1 hs) s' h

/-- What a sequence of calls shows: the result of each, and the view of
the state it leaves. -/
def observe (step : ι → Eff σ ε α) (view : σ → ω) :
    List ι → σ → List (Except ε α × ω)
  | [], _ => []
  | c :: cs, s =>
      (((step c).run s).1, view ((step c).run s).2)
        :: observe step view cs ((step c).run s).2

/-- Two systems whose calls answer alike and keep a relation between
their states show the same, whatever the calls. -/
theorem observe_eq {step : ι → Eff σ ε α} {step' : ι → Eff τ ε' α}
    {view : σ → ω} {view' : τ → ω} {f : ε' → ε} {R : σ → τ → Prop}
    (hview : ∀ s t, R s t → view s = view' t)
    (hstep : ∀ c s t, R s t →
      ((step c).run s).1 = ((step' c).run t).1.mapError f
        ∧ R ((step c).run s).2 ((step' c).run t).2)
    (cs : List ι) {s : σ} {t : τ} (h : R s t) :
    observe step view cs s
      = (observe step' view' cs t).map fun o => (o.1.mapError f, o.2) := by
  induction cs generalizing s t with
  | nil => rfl
  | cons c cs ih =>
      obtain ⟨hr, hR⟩ := hstep c s t h
      simp only [observe, List.map_cons]
      rw [hr, hview _ _ hR, ih hR]

end Sequences

end Eff

end Lib
