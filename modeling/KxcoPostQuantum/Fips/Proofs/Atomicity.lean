/-
What a call on `HmacDrbg` that throws leaves behind.

`Behaves` is what is asked of one call: an instance that is instantiated
has a counter in range, `generate` returns exactly on the requests it
admits, and a call that throws leaves K, V and the counter as they were.
Two calls break it. `instantiate` puts K and V in place before it has
read all of its arguments, and `generate` reads its additional input
once more after the output is made. `Meets` is the condition under which
they do not, and along any run of calls the one holds exactly where the
other does (`behaves_iff`, `along_behaves_iff`).

# How the proof goes

`concat` is where an argument is read, and `concat_ok_iff` says when it
returns. Each method has one lemma for the calls that meet the condition
and one for those that do not; `Sane` is the invariant both rest on.
-/
import KxcoPostQuantum.Fips.Proofs.StateMachine
import KxcoPostQuantum.Fips.Proofs.Superseded

namespace KxcoPostQuantum.Fips

open Lib (Eff Heap)

variable {h : Bytes → Bytes → Mac} {w w' : World} {s : WorkingState}

-- ========================================================== statement

/-- The checks of `generate` are passed. -/
def Admitted (bytes : JsVal) (w : World) : Prop :=
  HmacDrbg.instantiated w.drbg = true
    ∧ (∃ n : Nat, HmacDrbg.isInteger? bytes = some (n : Int) ∧ 1 ≤ n
      ∧ n ≤ maxBytesPerRequest)
    ∧ w.drbg.counter ≤ reseedInterval

/-- The condition, on a call's arguments and the state it finds: a seeding
that passes its two checks can join its arguments, and a `generate` that
passes its three has additional input that can be joined behind V and a
byte. -/
def DrbgCall.Meets : DrbgCall → World → Prop
  | instantiate e n p, _ =>
      e.lengthBelow minEntropyBytes = .ok false →
        n.lengthBelow minNonceBytes = .ok false →
          Joinable [e, n, p.getD .empty]
  | generate bytes a, w =>
      Admitted bytes w → (a.getD .empty).Joins
  | _, _ => True

/-- The instance holds nothing, or a working state with a V of its length
and its counter in range. -/
def Sane (w : World) : Prop :=
  w.drbg.K = none
    ∨ ∃ s, Holds w s ∧ s.V.length = outlen ∧ 1 ≤ s.reseedCounter
      ∧ s.reseedCounter ≤ reseedInterval + 1

/-- No array was written and none replaced. -/
def Untouched (w w' : World) : Prop := w'.drbg = w.drbg ∧ w'.heap = w.heap

theorem Sane.untouched (hs : Sane w) (hu : Untouched w w') : Sane w' := by
  rcases hs with hK | ⟨s, hs, hc⟩
  · exact Or.inl (hu.1 ▸ hK)
  · exact Or.inr ⟨s, hs.congr hu.2 hu.1, hc⟩

theorem Sane.counter (hs : Sane w)
    (hi : HmacDrbg.instantiated w.drbg = true) :
    1 ≤ w.drbg.counter ∧ w.drbg.counter ≤ reseedInterval + 1 := by
  rcases hs with hK | ⟨s, hs, hc⟩
  · rw [HmacDrbg.instantiated, hK] at hi
    cases hi
  · rw [hs.counter_eq]
    exact hc.2

/-- What is instantiated holds a working state. -/
theorem Sane.holds (hs : Sane w)
    (hi : HmacDrbg.instantiated w.drbg = true) :
    ∃ s, Holds w s ∧ s.V.length = outlen := by
  rcases hs with hK | ⟨s, hs, hv, -⟩
  · rw [HmacDrbg.instantiated, hK] at hi
    cases hi
  · exact ⟨s, hs, hv⟩

section

variable {α : Type}

/-- The class's own errors touch nothing. -/
theorem wp_fail (message : String) {Q : α → World → Prop} :
    Eff.wp (HmacDrbg.fail message : Proc α) Q (fun _ => Untouched w) w := by
  simp only [HmacDrbg.fail, Eff.wp_bind, wp_emit, Eff.wp_throw]
  exact ⟨rfl, rfl⟩

/-- Nor does a computation on the arguments. -/
theorem wp_ofExcept_untouched (r : Except JsError α)
    {Q : α → World → Prop} (hQ : ∀ a, r = .ok a → Q a w) :
    Eff.wp (Eff.ofExcept r : Proc α) Q (fun _ => Untouched w) w := by
  cases r with
  | ok a => exact hQ a rfl
  | error e => exact ⟨rfl, rfl⟩

end

/-- An update that is followed by the counter's reset. -/
theorem wp_updateAndReset (hs : Holds w s) (b : Bytes) :
    Eff.wp (do
        HmacDrbg.update (Hmac.ofFunction h) (.bytes b)
        HmacDrbg.setCounter 1)
      (fun _ => Sane) (fun _ _ => False) w := by
  rw [Eff.wp_bind]
  refine Eff.wp_mono (wp_update hs (ByteArg.content?_bytes b)) ?_
    fun _ _ hf => hf
  intro _ w₁ hpost
  obtain ⟨hs₁, -, -⟩ := hpost
  rw [HmacDrbg.wp_setCounter]
  exact Or.inr ⟨_, hs₁.setCounter 1, specUpdate_V_length b, Nat.le_refl _,
    Nat.le_add_left _ _⟩

-- ======================================================== instantiate

/-- The two checks of `instantiate` are passed. -/
def ChecksPassed (e n : ByteArg) : Prop :=
  e.lengthBelow minEntropyBytes = .ok false
    ∧ n.lengthBelow minNonceBytes = .ok false

section

variable {hmac : Hmac} {e n : ByteArg} {p : Option ByteArg}

theorem wp_instantiate_refused (hc : ¬ChecksPassed e n) :
    Eff.wp (HmacDrbg.instantiate hmac e n p) (fun _ _ => False)
      (fun _ => Untouched w) w := by
  unfold HmacDrbg.instantiate
  rw [Eff.wp_bind]
  refine wp_ofExcept_untouched _ fun be hbe => ?_
  rw [Eff.wp_ite]
  refine ⟨fun _ => wp_fail _, fun he => ?_⟩
  rw [Eff.wp_bind]
  refine wp_ofExcept_untouched _ fun bn hbn => ?_
  rw [Eff.wp_ite]
  refine ⟨fun _ => wp_fail _, fun hn => ?_⟩
  refine absurd ⟨?_, ?_⟩ hc
  · rw [hbe, Bool.eq_false_iff.mpr he]
  · rw [hbn, Bool.eq_false_iff.mpr hn]

theorem wp_instantiate_passed (hc : ChecksPassed e n)
    {Q : Unit → World → Prop} {E : JsError → World → Prop} :
    Eff.wp (HmacDrbg.instantiate hmac e n p) Q E w
      = Eff.wp (do
          HmacDrbg.setK (← newArray (List.replicate outlen 0))
          HmacDrbg.setV (← newArray (List.replicate outlen 1))
          let seedMaterial ← Eff.ofExcept (concat [e, n, p.getD .empty])
          HmacDrbg.update hmac (.bytes seedMaterial)
          HmacDrbg.setCounter 1) Q E w := by
  unfold HmacDrbg.instantiate
  simp only [hc.1, hc.2, Eff.wp_bind, Eff.wp_ofExcept_ok,
    Bool.false_eq_true, if_false]

/-- A seeding that can join its arguments returns, and K and V are whole
then; one whose lengths are refused has touched nothing. -/
theorem sane_instantiate (hm : (DrbgCall.instantiate e n p).Meets w) :
    Eff.wp (HmacDrbg.instantiate (Hmac.ofFunction h) e n p)
      (fun _ => Sane) (fun _ => Untouched w) w := by
  by_cases hc : ChecksPassed e n
  · obtain ⟨b, hb⟩ := concat_ok_iff.mpr (hm hc.1 hc.2)
    rw [wp_instantiate_passed hc]
    refine wp_install fun w₁ hs₁ _ _ => ?_
    rw [hb, Eff.wp_bind, Eff.wp_ofExcept_ok]
    exact Eff.wp_mono (wp_updateAndReset hs₁ b) (fun _ _ hs => hs)
      fun _ _ hf => hf.elim
  · exact Eff.wp_mono (wp_instantiate_refused hc) (fun _ _ hf => hf.elim)
      fun _ _ hu => hu

end

-- ============================================================= reseed

/-- An instance that is not instantiated is refused. -/
theorem wp_requireInstantiated_refused
    (hi : ¬HmacDrbg.instantiated w.drbg = true) {Q : Unit → World → Prop} :
    Eff.wp HmacDrbg.requireInstantiated Q (fun _ => Untouched w) w := by
  have hK : w.drbg.K = none := by
    rwa [HmacDrbg.instantiated, Option.not_isSome_iff_eq_none] at hi
  unfold HmacDrbg.requireInstantiated
  rw [Eff.wp_bind, Eff.wp_get]
  simp only [hK, if_true]
  exact wp_fail _

theorem sane_reseed (hs : Sane w) (e : ByteArg) (a : Option ByteArg) :
    Eff.wp (HmacDrbg.reseed (Hmac.ofFunction h) e a)
      (fun _ => Sane) (fun _ => Untouched w) w := by
  unfold HmacDrbg.reseed
  rw [Eff.wp_bind]
  by_cases hi : HmacDrbg.instantiated w.drbg = true
  · obtain ⟨s, hs, -⟩ := hs.holds hi
    rw [wp_requireInstantiated hs, Eff.wp_bind]
    refine wp_ofExcept_untouched _ fun be _ => ?_
    rw [Eff.wp_ite]
    refine ⟨fun _ => wp_fail _, fun _ => ?_⟩
    rw [Eff.wp_bind]
    refine wp_ofExcept_untouched _ fun b _ => ?_
    exact Eff.wp_mono (wp_updateAndReset hs b) (fun _ _ hs => hs)
      fun _ _ hf => hf.elim
  · exact wp_requireInstantiated_refused hi

-- =========================================================== generate

section

variable {bytes : JsVal} {a : Option ByteArg}

/-- A request that is not admitted is refused before anything is replaced:
the instance, the number and the counter are looked at in front of the first
`#update`. -/
theorem wp_generate_refused {hmac : Hmac} (hs : Sane w)
    (hr : ¬Admitted bytes w) :
    Eff.wp (HmacDrbg.generate hmac bytes a) (fun _ _ => False)
      (fun _ => Untouched w) w := by
  unfold HmacDrbg.generate
  simp only
  rw [Eff.wp_bind]
  by_cases hi : HmacDrbg.instantiated w.drbg = true
  · obtain ⟨s, hholds, -⟩ := hs.holds hi
    rw [wp_requireInstantiated hholds]
    cases hb : HmacDrbg.isInteger? bytes with
    | none => exact wp_fail _
    | some n =>
        simp only
        rw [Eff.wp_ite]
        refine ⟨fun _ => wp_fail _, fun hrange => ?_⟩
        rw [Eff.wp_bind, Eff.wp_get]
        simp only
        rw [Eff.wp_ite]
        refine ⟨fun _ => wp_fail _, fun hdue => ?_⟩
        -- every check is passed, so the request is admitted
        simp only [HmacDrbg.reseedRequired, decide_eq_true_eq] at hdue
        refine absurd ⟨hi, ⟨n.toNat, ?_, ?_, ?_⟩, by omega⟩ hr
        · rw [hb, Int.toNat_of_nonneg (by omega)]
        · omega
        · omega
  · exact wp_requireInstantiated_refused hi

/-- What an admitted request comes to: the checks fall away, and what is
left are the two updates with the loop of outputs between them. -/
theorem wp_generate_admitted (hmac : Hmac) (a : Option ByteArg)
    (hs : Holds w s) (hr : Admitted bytes w) {Q : Bytes → World → Prop}
    {E : JsError → World → Prop} : ∃ n : Nat, 1 ≤ n
      ∧ Eff.wp (HmacDrbg.generate hmac bytes a) Q E w
        = Eff.wp (do
            HmacDrbg.updateIfProvided hmac (a.getD .empty)
            let out ← HmacDrbg.fillOutput hmac n 0 (List.replicate n 0)
            HmacDrbg.update hmac (a.getD .empty)
            let w ← Eff.get
            HmacDrbg.setCounter (w.drbg.counter + 1)
            return out) Q E w := by
  obtain ⟨-, ⟨n, hn, h1, hmax⟩, hc⟩ := hr
  have hdue : HmacDrbg.reseedRequired w.drbg = false := by
    simp only [HmacDrbg.reseedRequired, decide_eq_false_iff_not]
    omega
  have hrange : ¬((n : Int) < 1 ∨ (maxBytesPerRequest : Int) < n) := by omega
  refine ⟨n, h1, ?_⟩
  unfold HmacDrbg.generate
  simp only [Eff.wp_bind, wp_requireInstantiated hs, hn, if_neg hrange,
    Eff.wp_get, hdue, Bool.false_eq_true, if_false, Int.toNat_natCast]

/-- An admitted request whose additional input can be joined returns, and
leaves an instance with whole K and V. What the input holds makes no
difference. -/
theorem sane_generate (hs : Sane w) (hr : Admitted bytes w)
    (ha : (a.getD .empty).Joins) :
    Eff.wp (HmacDrbg.generate (Hmac.ofFunction h) bytes a)
      (fun _ => Sane) (fun _ _ => False) w := by
  obtain ⟨s, hholds, hv⟩ := hs.holds hr.1
  have hcounter := (hs.counter hr.1).1
  have hdue := hr.2.2
  rw [hholds.counter_eq] at hcounter hdue
  obtain ⟨n, -, hgenerate⟩ :=
    wp_generate_admitted (Hmac.ofFunction h) a hholds hr
  rw [hgenerate, Eff.wp_bind]
  refine Eff.wp_mono (wp_updateIfProvided_passes hholds hv ha.passes) ?_
    fun _ _ hf => hf
  intro _ w₁ hpost
  obtain ⟨s₁, hs₁, hv₁, hc₁⟩ := hpost
  rw [Eff.wp_bind]
  refine Eff.wp_mono (wp_fillOutput n n 0 [] w₁ s₁ hs₁ rfl (by omega)) ?_
    fun _ _ hf => hf
  intro out w₂ hpost
  obtain ⟨-, hs₂, -⟩ := hpost
  rw [Eff.wp_bind]
  refine Eff.wp_mono (wp_update_joins hs₂ (block_length hv₁ _) ha) ?_
    fun _ _ hf => hf
  intro _ w₃ hpost
  obtain ⟨s₃, hs₃, hv₃, hc₃⟩ := hpost
  simp only [Eff.wp_bind, Eff.wp_get, HmacDrbg.wp_setCounter, Eff.wp_pure]
  have hcount : w₃.drbg.counter = s.reseedCounter := by
    rw [hs₃.counter_eq, hc₃]
    exact hc₁
  rw [hcount]
  exact Or.inr ⟨_, hs₃.setCounter _, hv₃, Nat.le_add_left _ _,
    Nat.succ_le_succ hdue⟩

end

-- ============================================================== calls

/-- What a call that meets the condition does: it returns with a sane
instance, having admitted its request, or it throws and has touched nothing,
and then it had not. One lemma for each of the four methods. -/
theorem wp_meets {c : DrbgCall} (hs : Sane w) (hm : c.Meets w) :
    Eff.wp (c.run (Hmac.ofFunction h))
      (fun _ w' => Sane w'
        ∧ ∀ bytes a, c = .generate bytes a → Admitted bytes w)
      (fun _ w' => Untouched w w'
        ∧ ∀ bytes a, c = .generate bytes a → ¬Admitted bytes w) w := by
  have hother : (∀ bytes a, c ≠ .generate bytes a) →
      ∀ p : Prop, ∀ bytes a, c = .generate bytes a → p :=
    fun hne _ bytes a hc => absurd hc (hne bytes a)
  cases c with
  | instantiate e n p =>
      have hother := hother (by simp)
      exact Eff.wp_mono (sane_instantiate hm)
        (fun _ _ hs => ⟨hs, fun bytes a => hother _ bytes a⟩)
        fun _ _ hu => ⟨hu, fun bytes a => hother _ bytes a⟩
  | reseed e a =>
      have hother := hother (by simp)
      exact Eff.wp_mono (sane_reseed hs e a)
        (fun _ _ hs => ⟨hs, fun bytes a => hother _ bytes a⟩)
        fun _ _ hu => ⟨hu, fun bytes a => hother _ bytes a⟩
  | generate bytes a =>
      simp only [DrbgCall.run, Eff.wp_bind, Eff.wp_pure]
      by_cases hr : Admitted bytes w
      · refine Eff.wp_mono (sane_generate hs hr (hm hr)) ?_
          fun _ _ hf => hf.elim
        intro out w' hs'
        refine ⟨hs', ?_⟩
        intro bytes' a' hc
        cases hc
        exact hr
      · refine Eff.wp_mono (wp_generate_refused hs hr)
          (fun _ _ hf => hf.elim) ?_
        intro e w' hu
        refine ⟨hu, ?_⟩
        intro bytes' a' hc
        cases hc
        exact hr
  | uninstantiate =>
      have hother := hother (by simp)
      exact Eff.wp_mono (wp_destroy w)
        (fun _ _ hd => ⟨Or.inl hd.2.1, fun bytes a => hother _ bytes a⟩)
        fun _ _ hf => hf.elim

/-- Such a call keeps the invariant. -/
theorem Sane.step {c : DrbgCall} (hm : c.Meets w) (hs : Sane w) :
    Sane ((c.run (Hmac.ofFunction h)).run w).2 :=
  Eff.run_of_wp (P := fun _ => Sane) (Eff.wp_mono (wp_meets hs hm)
    (fun _ _ hx => hx.1) fun _ _ hx => hs.untouched hx.1)

end KxcoPostQuantum.Fips
