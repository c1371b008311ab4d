/-
`HmacDrbg` refines SP 800-90A: on calls of admitted lengths the class
and the mechanism of the specification cannot be told apart.

A run of the class is a list of calls on a fresh instance. What it shows
after each call is the result, bytes or error, and the working state
read off the heap. The mechanism's run of the same calls shows the same,
its two refusals under the class's messages. The relation between the
two is `Holds`, or that neither has a state; `DrbgOps` has one lemma per
method, and `Eff.observe_eq` is the induction over the run.
-/
import KxcoPostQuantum.Fips.Proofs.DrbgOps

namespace KxcoPostQuantum.Fips

open Lib (Eff)

variable {h : Bytes → Bytes → Mac} {w : World}

-- ======================================================== admitted calls

/-- A byte string of at least that length. -/
abbrev BytesFrom (n : Nat) : Type := {b : Bytes // n ≤ b.length}

/-- A call with byte strings of the lengths section 10.1.2 admits, and a
request of a length it admits. -/
inductive AdmittedCall
  | instantiate (entropyInput : BytesFrom minEntropyBytes)
      (nonce : BytesFrom minNonceBytes) (personalization : Option Bytes)
  | reseed (entropyInput : BytesFrom minEntropyBytes)
      (additionalInput : Option Bytes)
  | generate (requested : {n : Nat // 1 ≤ n ∧ n ≤ maxBytesPerRequest})
      (additionalInput : Option Bytes)

namespace AdmittedCall

/-- The call made on the class: what `generate` returns, and nothing of
the others. -/
def run (hmac : Hmac) : AdmittedCall → Proc (Option Bytes)
  | instantiate e n p => do
      HmacDrbg.instantiate hmac (.bytes e.1) (.bytes n.1) (p.map .bytes)
      return none
  | reseed e a => do
      HmacDrbg.reseed hmac (.bytes e.1) (a.map .bytes)
      return none
  | generate n a =>
      some <$> HmacDrbg.generate hmac (.number (.finite n.1))
        (a.map .bytes)

/-- The same call made on the mechanism, an absent string the empty
one. -/
def spec : AdmittedCall → Lib.HmacDrbg.Call UInt8
  | instantiate e n p => .instantiate e.1 n.1 (p.getD [])
  | reseed e a => .reseed e.1 (a.getD [])
  | generate n a => .generate n.1 (a.getD [])

end AdmittedCall

/-- An optional byte string has content, the empty one by default. -/
theorem ByteArg.content?_getD (a : Option Bytes) :
    ((a.map ByteArg.bytes).getD .empty).content? = some (a.getD []) := by
  cases a with
  | none => rfl
  | some b => rfl

/-- A length is an integer. -/
theorem HmacDrbg.isInteger?_natCast (n : Nat) :
    isInteger? (.number (.finite n)) = some (n : Int) := by
  simp [isInteger?]

-- ============================================================ one call

/-- The class's message for each refusal. -/
def refusal : Lib.HmacDrbg.Refusal → JsError
  | .notInstantiated => error (js "DRBG: not instantiated")
  | .reseedRequired => error (js "DRBG: reseed required")

/-- The working state of an instance, read off the heap. -/
def workingState (w : World) : Option WorkingState := do
  let k ← w.drbg.K
  let v ← w.drbg.V
  return {
    K := w.heap.read k
    V := w.heap.read v
    reseedCounter := w.drbg.counter }

/-- The instance and the mechanism have the same state, or neither has
one. -/
def SameState (w : World) : Option WorkingState → Prop
  | none => w.drbg.K = none
  | some s => Holds w s

theorem SameState.workingState_eq {o : Option WorkingState}
    (hs : SameState w o) : workingState w = o := by
  cases o with
  | none =>
      show (w.drbg.K.bind _) = none
      rw [show w.drbg.K = none from hs]
      rfl
  | some s =>
      obtain ⟨k, v, hl, rfl⟩ := hs
      simp [workingState, hl.K, hl.V]

/-- An instance that holds nothing is refused. -/
private theorem wp_requireInstantiated_none (hK : w.drbg.K = none)
    {Q : Unit → World → Prop} {E : JsError → World → Prop} :
    Eff.wp HmacDrbg.requireInstantiated Q E w
      = E (refusal .notInstantiated)
          { w with trace := w.trace ++ [.drbgThrow] } := by
  unfold HmacDrbg.requireInstantiated HmacDrbg.fail
  simp [hK, refusal]

/-- A generate after a due reseed is refused, with the error of that name
and without a change, whatever else the request is. -/
private theorem wp_generate_due {s : WorkingState} (hs : Holds w s)
    (hdue : reseedInterval < s.reseedCounter)
    (n : {n : Nat // 1 ≤ n ∧ n ≤ maxBytesPerRequest})
    (a : Option ByteArg) {Q : Bytes → World → Prop}
    {E : JsError → World → Prop}
    (hE : E (refusal .reseedRequired)
      { w with trace := w.trace ++ [.drbgThrow] }) :
    Eff.wp (HmacDrbg.generate (Hmac.ofFunction h) (.number (.finite n.1)) a)
      Q E w := by
  obtain ⟨n, hn⟩ := n
  have hrequired : HmacDrbg.reseedRequired w.drbg = true := by
    rw [HmacDrbg.reseedRequired, hs.counter_eq]
    exact decide_eq_true hdue
  unfold HmacDrbg.generate
  simp only [Eff.wp_bind, wp_requireInstantiated hs,
    HmacDrbg.isInteger?_natCast]
  rw [Eff.wp_ite]
  refine ⟨fun hor => absurd hor (by omega), fun _ => ?_⟩
  simp only [Eff.wp_bind, Eff.wp_get, hrequired, if_true, HmacDrbg.fail,
    wp_emit, Eff.wp_throw]
  exact hE

/-- One call: the class and the mechanism answer alike and stay in the
same state. -/
theorem sameState_call (c : AdmittedCall) (w : World)
    (o : Option WorkingState) (hs : SameState w o) :
    let code := (c.run (Hmac.ofFunction h)).run w
    let spec := (Lib.HmacDrbg.call (macOf h) 0 1 outlen reseedInterval
      c.spec).run o
    code.1 = spec.1.mapError refusal ∧ SameState code.2 spec.2 := by
  intro code spec
  refine Eff.run_of_wp (P := fun r w' =>
    r = spec.1.mapError refusal ∧ SameState w' spec.2) ?_
  cases c with
  | instantiate e n p =>
      simp only [AdmittedCall.run, Eff.wp_bind, Eff.wp_pure]
      refine Eff.wp_mono (wp_instantiate w (ByteArg.content?_bytes _)
        (ByteArg.content?_bytes _) (ByteArg.content?_getD p) e.2 n.2) ?_
        fun _ _ hf => hf.elim
      exact fun _ w' hw => ⟨rfl, hw.1⟩
  | reseed e a =>
      simp only [AdmittedCall.run, Eff.wp_bind, Eff.wp_pure]
      cases o with
      | none =>
          unfold HmacDrbg.reseed
          rw [Eff.wp_bind, wp_requireInstantiated_none hs]
          exact ⟨rfl, hs⟩
      | some s =>
          refine Eff.wp_mono (wp_reseed hs (ByteArg.content?_bytes _)
            (ByteArg.content?_getD a) e.2) ?_ fun _ _ hf => hf.elim
          exact fun _ w' hw => ⟨rfl, hw.1⟩
  | generate n a =>
      simp only [AdmittedCall.run, Eff.wp_map]
      cases o with
      | none =>
          unfold HmacDrbg.generate
          simp only [Eff.wp_bind]
          rw [wp_requireInstantiated_none hs]
          exact ⟨rfl, hs⟩
      | some s =>
          by_cases hdue : reseedInterval < s.reseedCounter
          · have hspec : spec = (.error .reseedRequired, some s) :=
              if_pos hdue
            rw [hspec]
            exact wp_generate_due hs hdue n _
              ⟨rfl, Holds.congr hs rfl rfl⟩
          · have hspec : spec
                = (.ok (some (specGenerate h s n.1 (a.getD [])).1),
                  some (specGenerate h s n.1 (a.getD [])).2) :=
              if_neg hdue
            rw [hspec]
            refine Eff.wp_mono (wp_generate hs
              (HmacDrbg.isInteger?_natCast n.1) n.2.1 n.2.2 (by omega)
              (ByteArg.content?_getD a)) ?_ fun _ _ hf => hf.elim
            intro out w' hpost
            obtain ⟨rfl, hs', -⟩ := hpost
            exact ⟨rfl, hs'⟩

-- ============================================================== a run

/-- **Refinement.** On every sequence of admitted calls, from a new
instance, each call of the class answers as the mechanism of SP 800-90A
does and leaves the same K, V and reseed counter. -/
theorem hmacDrbg_refines_sp80090a (h : Bytes → Bytes → Mac)
    (calls : List AdmittedCall) (w : World) :
    Eff.observe (AdmittedCall.run (Hmac.ofFunction h)) workingState calls
        (HmacDrbg.create w)
      = (Eff.observe
          (fun c => Lib.HmacDrbg.call (macOf h) 0 1 outlen reseedInterval
            (AdmittedCall.spec c))
          id calls none).map fun o => (o.1.mapError refusal, o.2) :=
  Eff.observe_eq (fun _ _ hs => hs.workingState_eq)
    (fun c w o hs => sameState_call c w o hs) calls
    (show SameState (HmacDrbg.create w) none from rfl)

end KxcoPostQuantum.Fips
