/-
What becomes of a K or a V that `HmacDrbg` replaces.

Security Policy section 9.3 says each superseded K and V is overwritten
as soon as used. `#step` does that. Two replacements do not:

- the loop of `generate` puts each new V in the place of the one before
  without wiping it, on every request that gets that far;
- `instantiate` on an instance that is already instantiated puts new
  arrays in the place of both.

`Clean` says every buffer the instance has held and dropped is zero. It
survives every call that stops short of those two replacements, and so
every run made of such calls (`clean_of_wiping`). `Abandons` is the
condition, on the call's arguments and the state it finds, under which a
call gets to one of the two.
-/
import KxcoPostQuantum.Fips.Proofs.DrbgOps

namespace KxcoPostQuantum.Fips

open Lib (Eff Heap)

variable {h : Bytes → Bytes → Mac} {w w' : World}

-- ============================================================== calls

/-- A call on the class, with any arguments. -/
inductive DrbgCall
  | instantiate (entropyInput nonce : ByteArg)
      (personalization : Option ByteArg)
  | reseed (entropyInput : ByteArg) (additionalInput : Option ByteArg)
  | generate (bytes : JsVal) (additionalInput : Option ByteArg)
  | uninstantiate

namespace DrbgCall

/-- The call made; what `generate` returns is not kept. -/
def run (hmac : Hmac) : DrbgCall → Proc Unit
  | instantiate e n p => HmacDrbg.instantiate hmac e n p
  | reseed e a => HmacDrbg.reseed hmac e a
  | generate bytes a => do
      let _ ← HmacDrbg.generate hmac bytes a
      return ()
  | uninstantiate => HmacDrbg.uninstantiate

/-- The call gets to a replacement that wipes nothing: a seeding of an
instantiated instance that passes its two checks, or a generate that
passes its three and whose additional input passes the update before the
loop. -/
def Abandons : DrbgCall → World → Prop
  | instantiate e n _, w =>
      HmacDrbg.instantiated w.drbg = true
        ∧ e.lengthBelow minEntropyBytes = .ok false
        ∧ n.lengthBelow minNonceBytes = .ok false
  | generate bytes a, w =>
      HmacDrbg.instantiated w.drbg = true
        ∧ ((HmacDrbg.isInteger? bytes).any fun n =>
          1 ≤ n ∧ n ≤ (maxBytesPerRequest : Int)) = true
        ∧ HmacDrbg.reseedRequired w.drbg = false
        ∧ (a.getD .empty).Passes
  | _, _ => False

instance : (c : DrbgCall) → (w : World) → Decidable (c.Abandons w)
  | instantiate _ _ _, _ => inferInstanceAs (Decidable (_ ∧ _ ∧ _))
  | reseed _ _, _ => inferInstanceAs (Decidable False)
  | generate _ _, _ => inferInstanceAs (Decidable (_ ∧ _ ∧ _ ∧ _))
  | uninstantiate, _ => inferInstanceAs (Decidable False)

end DrbgCall

-- ========================================================== invariant

/-- Nothing dropped is left, and the instance holds both arrays or
neither, the V of its length. -/
def Tidy (w : World) : Prop :=
  Clean w ∧ (w.drbg.K = none ∧ w.drbg.V = none
    ∨ ∃ s, Holds w s ∧ s.V.length = outlen)

theorem Clean.congr (hc : Clean w) (hh : w'.heap = w.heap)
    (hd : w'.drbg = w.drbg) (hm : w'.marks = w.marks) : Clean w' := by
  unfold Clean IsHeld at hc ⊢
  rw [hh, hd, hm]
  exact hc

theorem Tidy.congr (ht : Tidy w) (hh : w'.heap = w.heap)
    (hd : w'.drbg = w.drbg) (hm : w'.marks = w.marks) : Tidy w' := by
  refine ⟨ht.1.congr hh hd hm, ?_⟩
  rcases ht.2 with hn | ⟨s, hs, hv⟩
  · rw [hd]
    exact Or.inl hn
  · exact Or.inr ⟨s, hs.congr hh hd, hv⟩

/-- The class's own errors change no memory. -/
theorem Tidy.wp_fail (ht : Tidy w) {α : Type} (message : String)
    {Q : α → World → Prop} :
    Eff.wp (HmacDrbg.fail message : Proc α) Q (fun _ => Tidy) w := by
  simp only [HmacDrbg.fail, Eff.wp_bind, wp_emit, Eff.wp_throw]
  exact ht.congr rfl rfl rfl

/-- A computation that only reads its arguments changes no memory. -/
theorem Tidy.wp_ofExcept (ht : Tidy w) {α : Type} (r : Except JsError α)
    {Q : α → World → Prop} (hQ : ∀ a, r = .ok a → Q a w) :
    Eff.wp (Eff.ofExcept r : Proc α) Q (fun _ => Tidy) w := by
  cases r with
  | ok a => exact hQ a rfl
  | error e => exact ht

-- ======================================================= the methods

/-- An update with a byte string keeps the instance tidy. -/
private theorem wp_update_tidy {s : WorkingState} (hs : Holds w s)
    (hc : Clean w) (b : Bytes) :
    Eff.wp (do
        HmacDrbg.update (Hmac.ofFunction h) (.bytes b)
        HmacDrbg.setCounter 1)
      (fun _ => Tidy) (fun _ => Tidy) w := by
  rw [Eff.wp_bind]
  refine Eff.wp_mono (wp_update hs (ByteArg.content?_bytes b)) ?_
    fun _ _ hf => hf.elim
  intro _ w₁ hpost
  obtain ⟨hs₁, -, hc₁⟩ := hpost
  rw [HmacDrbg.wp_setCounter]
  exact ⟨(hc₁ hc).setCounter 1,
    Or.inr ⟨_, hs₁.setCounter 1, specUpdate_V_length b⟩⟩

theorem tidy_instantiate (ht : Tidy w) (e n : ByteArg)
    (p : Option ByteArg) (ha : ¬(DrbgCall.instantiate e n p).Abandons w) :
    Eff.wp (HmacDrbg.instantiate (Hmac.ofFunction h) e n p)
      (fun _ => Tidy) (fun _ => Tidy) w := by
  unfold HmacDrbg.instantiate
  simp only [Eff.wp_bind]
  refine ht.wp_ofExcept _ fun be hbe => ?_
  rw [Eff.wp_ite]
  refine ⟨fun _ => ht.wp_fail _, fun he => ?_⟩
  rw [Eff.wp_bind]
  refine ht.wp_ofExcept _ fun bn hbn => ?_
  rw [Eff.wp_ite]
  refine ⟨fun _ => ht.wp_fail _, fun hn => ?_⟩
  -- both checks are passed, so the instance holds nothing yet
  have hK : w.drbg.K = none := by
    by_contra hK
    refine ha ⟨Option.isSome_iff_ne_none.mpr hK, ?_, ?_⟩
    · rw [hbe, Bool.eq_false_iff.mpr he]
    · rw [hbn, Bool.eq_false_iff.mpr hn]
  have hV : w.drbg.V = none := by
    rcases ht.2 with hn | ⟨s, ⟨k, v, hl, -⟩, -⟩
    · exact hn.2
    · rw [hl.K] at hK
      cases hK
  refine wp_install fun w₁ hs₁ _ hc₁ => ?_
  have ht₁ : Tidy w₁ :=
    ⟨hc₁ hK hV ht.1, Or.inr ⟨_, hs₁, List.length_replicate⟩⟩
  rw [Eff.wp_bind]
  exact ht₁.wp_ofExcept _ fun b _ => wp_update_tidy hs₁ ht₁.1 b

theorem tidy_reseed (ht : Tidy w) (e : ByteArg) (a : Option ByteArg) :
    Eff.wp (HmacDrbg.reseed (Hmac.ofFunction h) e a)
      (fun _ => Tidy) (fun _ => Tidy) w := by
  unfold HmacDrbg.reseed
  rw [Eff.wp_bind]
  rcases ht.2 with hn | ⟨s, hs, hv⟩
  · unfold HmacDrbg.requireInstantiated
    simp only [Eff.wp_bind, Eff.wp_get, hn.1, if_true]
    exact ht.wp_fail _
  · rw [wp_requireInstantiated hs, Eff.wp_bind]
    refine ht.wp_ofExcept _ fun be _ => ?_
    rw [Eff.wp_ite]
    refine ⟨fun _ => ht.wp_fail _, fun _ => ?_⟩
    rw [Eff.wp_bind]
    exact ht.wp_ofExcept _ fun b _ => wp_update_tidy hs ht.1 b

theorem tidy_generate (ht : Tidy w) (bytes : JsVal) (a : Option ByteArg)
    (ha : ¬(DrbgCall.generate bytes a).Abandons w) :
    Eff.wp (HmacDrbg.generate (Hmac.ofFunction h) bytes a)
      (fun _ => Tidy) (fun _ => Tidy) w := by
  unfold HmacDrbg.generate
  simp only
  rw [Eff.wp_bind]
  rcases ht.2 with hn | ⟨s, hs, hv⟩
  · unfold HmacDrbg.requireInstantiated
    simp only [Eff.wp_bind, Eff.wp_get, hn.1, if_true]
    exact ht.wp_fail _
  · rw [wp_requireInstantiated hs]
    cases hb : HmacDrbg.isInteger? bytes with
    | none => exact ht.wp_fail _
    | some n =>
        simp only
        rw [Eff.wp_ite]
        refine ⟨fun _ => ht.wp_fail _, fun hrange => ?_⟩
        rw [Eff.wp_bind, Eff.wp_get]
        simp only
        rw [Eff.wp_ite]
        refine ⟨fun _ => ht.wp_fail _, fun hdue => ?_⟩
        -- every check is passed, so the input does not pass
        have hK : HmacDrbg.instantiated w.drbg = true := by
          obtain ⟨k, v, hl, -⟩ := hs
          rw [HmacDrbg.instantiated, hl.K]
          rfl
        have hany : ((HmacDrbg.isInteger? bytes).any fun n =>
            1 ≤ n ∧ n ≤ (maxBytesPerRequest : Int)) = true := by
          rw [hb, Option.any_some, decide_eq_true_eq]
          omega
        rw [Eff.wp_bind]
        refine Eff.wp_mono (wp_updateIfProvided_not_passes hs hv fun hpasses =>
          ha ⟨hK, hany, Bool.eq_false_iff.mpr hdue, hpasses⟩)
          (fun _ _ hf => hf.elim) ?_
        intro _ w' hw'
        subst hw'
        exact ht

/-- `uninstantiate` wipes both arrays before it drops them, each if there is
one, so no array that was held goes unwiped here. -/
theorem tidy_uninstantiate (ht : Tidy w) :
    Eff.wp HmacDrbg.uninstantiate (fun _ => Tidy) (fun _ => Tidy) w := by
  unfold HmacDrbg.uninstantiate
  rw [Eff.wp_bind, Eff.wp_get]
  rcases ht.2 with hn | ⟨s, ⟨k, v, hl, -⟩, -⟩
  · simp only [HmacDrbg.fillHeld, hn.1, hn.2, Eff.wp_bind, Eff.wp_pure,
      Eff.wp_modify]
    refine ⟨fun l hm => ?_, Or.inl ⟨rfl, rfl⟩⟩
    obtain ⟨hlt, hh⟩ := ht.1 l hm
    refine ⟨hlt, hh.imp_left fun hh => ?_⟩
    rcases hh with hc | hc
    · exact Or.inl (hn.1.symm.trans hc)
    · exact Or.inr (hn.2.symm.trans hc)
  · simp only [HmacDrbg.fillHeld, Eff.wp_bind, hl.K, hl.V, wp_fillZero,
      Eff.wp_modify]
    rw [Heap.read_write_of_ne hl.ne]
    refine ⟨fun l hm => ?_, Or.inl ⟨rfl, rfl⟩⟩
    obtain ⟨hlt, hh⟩ := ht.1 l hm
    refine ⟨by simpa using hlt, Or.inr ?_⟩
    simp only
    by_cases hlv : l = v
    · subst hlv
      rw [Heap.read_write_self (by simpa using hlt)]
      exact allZero_replicate _
    rw [Heap.read_write_of_ne (Ne.symm hlv)]
    by_cases hlk : l = k
    · subst hlk
      rw [Heap.read_write_self hlt]
      exact allZero_replicate _
    rw [Heap.read_write_of_ne (Ne.symm hlk)]
    rcases hh with (hc | hc) | hz
    · exact absurd (Option.some.inj (hc.symm.trans hl.K)) hlk
    · exact absurd (Option.some.inj (hc.symm.trans hl.V)) hlv
    · exact hz

/-- One call that stops short of the two replacements, or gets past them,
keeps the instance tidy. By one lemma for each of the four methods. -/
theorem tidy_call (h : Bytes → Bytes → Mac) (c : DrbgCall) (w : World)
    (ha : ¬c.Abandons w) (ht : Tidy w) :
    Tidy ((c.run (Hmac.ofFunction h)).run w).2 := by
  refine Eff.run_of_wp (P := fun _ => Tidy) ?_
  cases c with
  | instantiate e n p => exact tidy_instantiate ht e n p ha
  | reseed e a => exact tidy_reseed ht e a
  | generate bytes a =>
      simp only [DrbgCall.run, Eff.wp_bind, Eff.wp_pure]
      exact tidy_generate ht bytes a ha
  | uninstantiate => exact tidy_uninstantiate ht

-- =============================================================== runs

/-- Every buffer the instance has ever held as K or V and no longer
holds contains only zeros. -/
def Erased (w : World) : Prop :=
  ∀ p ∈ w.marks, p.1 = .drbgState → ¬IsHeld w p.2 →
    AllZero (w.heap.read p.2)

instance (w : World) (l : Nat) : Decidable (IsHeld w l) :=
  inferInstanceAs (Decidable (_ ∨ _))

instance (w : World) : Decidable (Erased w) :=
  inferInstanceAs (Decidable (∀ p ∈ w.marks, _))

theorem Tidy.erased (ht : Tidy w) : Erased w := by
  rintro ⟨m, l⟩ hp rfl hn
  exact (ht.1 l hp).2.resolve_left hn

/-- A world with a new instance, nothing recorded of any other. -/
def newInstance (w : World) : World :=
  HmacDrbg.create { w with marks := [] }

theorem tidy_newInstance (w : World) : Tidy (newInstance w) :=
  ⟨fun _ hm => (nomatch hm), Or.inl ⟨rfl, rfl⟩⟩

/-- **No superseded secret survives a run** of any calls, with any
arguments, none of which gets to a replacement that wipes nothing. After
each call whatever array the instance has held as K or as V, and holds no
longer, is zero. By induction over the calls: `Tidy` says so of one world,
and each call keeps it. -/
theorem erased_of_not_abandons (h : Bytes → Bytes → Mac)
    (calls : List DrbgCall) (w : World)
    (ha : Eff.Along (DrbgCall.run (Hmac.ofFunction h))
      (fun c w => ¬c.Abandons w) calls (newInstance w)) :
    ∀ w' ∈ Eff.states (DrbgCall.run (Hmac.ofFunction h)) calls
      (newInstance w), Erased w' := fun w' hw' =>
  (Eff.states_induct (fun c w hc ht => tidy_call h c w hc ht) ha
    (tidy_newInstance w) w' hw').erased

/-- An HMAC whose every output is 64 ones. -/
private def ones : Bytes → Bytes → Mac :=
  fun _ _ => ⟨List.replicate outlen 1, rfl⟩

/-- Seeding with 32 and 16 zero bytes. -/
private def seeding : DrbgCall :=
  .instantiate (.bytes (List.replicate 32 0)) (.bytes (List.replicate 16 0))
    none

/-- A run of every call that stops short of the replacements. -/
private def tidyRun : List DrbgCall :=
  [seeding, .reseed (.bytes (List.replicate 32 0)) none,
    .generate (.number (.finite 0)) none, .uninstantiate, seeding]

/-- A run with a reseed, a request that is refused and a second seeding:
five calls, none of which stops between the two replacements. -/
theorem erased_of_not_abandons_reseed :
    (Eff.states (DrbgCall.run (Hmac.ofFunction ones)) tidyRun
        (newInstance {})).length = 5
      ∧ ∀ w' ∈ Eff.states (DrbgCall.run (Hmac.ofFunction ones)) tidyRun
        (newInstance {}), Erased w' :=
  ⟨by decide +kernel, erased_of_not_abandons ones _ {} (by decide +kernel)⟩

/-- One byte of output leaves the V of the loop behind, and a second
seeding leaves the K and V of the first. -/
theorem superseded_survives :
    (¬∀ w' ∈ Eff.states (DrbgCall.run (Hmac.ofFunction ones))
        [seeding, .generate (.number (.finite 1)) none]
        (newInstance {}), Erased w')
      ∧ ¬∀ w' ∈ Eff.states (DrbgCall.run (Hmac.ofFunction ones))
        [seeding, seeding] (newInstance {}), Erased w' := by
  decide +kernel

end KxcoPostQuantum.Fips
