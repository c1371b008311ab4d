/-
Which procedures of the module can hide a failure: none.

`Smooth w w'` says that between two worlds nothing failed: no self-test,
entropy read or HMAC, no error of the DRBG's own, no fatal error, and
every pairwise test that began has passed. Two properties of a procedure
follow a failure to where it goes, under any environment:

- `Quiet`: if the procedure returns, nothing failed. What it throws is
  left open. The DRBG's methods and the self-test runs are quiet.
- `Candid`: if the procedure returns, or throws an error that is not
  fatal, nothing failed. So a failure comes out as a fatal error. Every
  service is candid.

Both are kept by sequencing; a `catch` that ends in a fatal error turns
a quiet procedure into a candid one (`Quiet.orFatal`).
-/
import KxcoPostQuantum.Fips.Module
import KxcoPostQuantum.Fips.Proofs.Primitives
import KxcoPostQuantum.Lib.ConstantTime

namespace KxcoPostQuantum.Fips

open Lib (Eff)

variable {α β : Type} {w w' w'' : World}

-- ============================================================ failures

/-- The event is a failure. -/
def Event.failed : Event → Bool
  | cast _ b | integrity b | entropy b | hmac b => !b
  | drbgThrow | fatal => true
  | instantiated | pct _ _ | pctPassed => false

/-- The event is the beginning of a pairwise test. -/
def Event.isPct : Event → Bool
  | pct _ _ => true
  | _ => false

/-- A failure happened, or a pairwise test began and none passed. -/
def Failure (es : List Event) : Prop :=
  (∃ e ∈ es, e.failed = true)
    ∨ (∃ e ∈ es, e.isPct = true) ∧ Event.pctPassed ∉ es

instance (es : List Event) : Decidable (Failure es) :=
  inferInstanceAs (Decidable (_ ∨ _ ∧ _))

/-- Between the two worlds nothing failed. -/
structure Smooth (w w' : World) : Prop where
  clock_le : w.clock ≤ w'.clock
  instantiated : HmacDrbg.instantiated w.drbg = true →
    HmacDrbg.instantiated w'.drbg = true
  trace : ∃ es, w'.trace = w.trace ++ es ∧ ¬Failure es

/-- Where nothing is logged, nothing has failed. -/
theorem not_failure_nil : ¬Failure [] := by
  intro h
  rcases h with ⟨e, he, -⟩ | ⟨⟨e, he, -⟩, -⟩
  · cases he
  · cases he

/-- A log that is made of two has failed only where one of them has. -/
theorem not_failure_append {es es' : List Event} (h : ¬Failure es)
    (h' : ¬Failure es') : ¬Failure (es ++ es') := by
  intro hx
  rcases hx with ⟨e, he, hf⟩ | ⟨⟨e, he, hp⟩, hn⟩
  · rcases List.mem_append.mp he with he | he
    · exact h (Or.inl ⟨e, he, hf⟩)
    · exact h' (Or.inl ⟨e, he, hf⟩)
  · rw [List.mem_append, not_or] at hn
    rcases List.mem_append.mp he with he | he
    · exact h (Or.inr ⟨⟨e, he, hp⟩, hn.1⟩)
    · exact h' (Or.inr ⟨⟨e, he, hp⟩, hn.2⟩)

/-- An event that reports no failure, and is no pairwise test, is no
failure. -/
theorem not_failure_singleton {e : Event} (hf : e.failed = false)
    (hp : e.isPct = false) : ¬Failure [e] := by
  intro hx
  rcases hx with ⟨e', he, h⟩ | ⟨⟨e', he, h⟩, -⟩
  · rw [List.mem_singleton.mp he, hf] at h
    cases h
  · rw [List.mem_singleton.mp he, hp] at h
    cases h

/-- A world is smooth on the way to itself. -/
theorem Smooth.refl (w : World) : Smooth w w :=
  ⟨Nat.le_refl _, id, [], (List.append_nil _).symm, not_failure_nil⟩

/-- Two smooth stretches make one. -/
theorem Smooth.trans (h₁ : Smooth w w') (h₂ : Smooth w' w'') :
    Smooth w w'' := by
  obtain ⟨es₁, he₁, hf₁⟩ := h₁.trace
  obtain ⟨es₂, he₂, hf₂⟩ := h₂.trace
  refine ⟨Nat.le_trans h₁.clock_le h₂.clock_le,
    fun h => h₂.instantiated (h₁.instantiated h), es₁ ++ es₂, ?_,
    not_failure_append hf₁ hf₂⟩
  rw [he₂, he₁, List.append_assoc]

/-- Memory may change, and time pass, without an event. -/
theorem Smooth.silent (hc : w.clock ≤ w'.clock)
    (hd : HmacDrbg.instantiated w.drbg = true →
      HmacDrbg.instantiated w'.drbg = true)
    (ht : w'.trace = w.trace) : Smooth w w' :=
  ⟨hc, hd, [], by rw [ht, List.append_nil], not_failure_nil⟩

/-- One event that is not a failure. -/
theorem Smooth.event {e : Event} (hf : e.failed = false)
    (hp : e.isPct = false) (hc : w.clock ≤ w'.clock)
    (hd : w'.drbg = w.drbg) (ht : w'.trace = w.trace ++ [e]) :
    Smooth w w' :=
  ⟨hc, fun h => hd ▸ h, [e], ht, not_failure_singleton hf hp⟩

-- =============================================================== quiet

/-- If the procedure returns, nothing failed. -/
def Quiet (p : Proc α) : Prop :=
  ∀ w, Eff.wp p (fun _ => Smooth w) (fun _ _ => True) w

namespace Quiet

/-- Returning a value logs nothing. -/
theorem pure (a : α) : Quiet (pure a : Proc α) := fun w => Smooth.refl w

/-- A throw ends the stretch, and nothing is asked of it. -/
theorem throw (e : JsError) : Quiet (throw e : Proc α) := fun _ => trivial

/-- Reading the world logs nothing. -/
theorem get : Quiet (Eff.get : Proc World) := fun w => Smooth.refl w

/-- A quiet procedure and what follows it are quiet if each is. -/
theorem bind {p : Proc α} {f : α → Proc β} (hp : Quiet p)
    (hf : ∀ a, Quiet (f a)) : Quiet (p >>= f) := by
  intro w
  rw [Eff.wp_bind]
  refine Eff.wp_mono (hp w) (fun a w₁ h₁ => ?_) fun _ _ h => h
  exact Eff.wp_mono (hf a w₁) (fun _ _ h₂ => h₁.trans h₂) fun _ _ h => h

/-- Either branch of a quiet choice is quiet. -/
theorem ite {c : Prop} [Decidable c] {p q : Proc α} (hp : Quiet p)
    (hq : Quiet q) : Quiet (if c then p else q) := by
  by_cases hc : c
  · rw [if_pos hc]
    exact hp
  · rw [if_neg hc]
    exact hq

/-- A value or a throw from outside is quiet. -/
theorem ofExcept (r : Except JsError α) :
    Quiet (Eff.ofExcept r : Proc α) := by
  cases r with
  | ok a => exact pure a
  | error e => exact throw e

/-- An update of memory that leaves the trace, and never takes K away. -/
theorem modify {f : World → World} (hc : ∀ w, w.clock ≤ (f w).clock)
    (hd : ∀ w, HmacDrbg.instantiated w.drbg = true →
      HmacDrbg.instantiated (f w).drbg = true)
    (ht : ∀ w, (f w).trace = w.trace) :
    Quiet (Eff.modify f : Proc Unit) := fun w =>
  Smooth.silent (hc w) (hd w) (ht w)

/-- Reading an array logs nothing. -/
theorem contents (l : Nat) : Quiet (contents l) := fun w => Smooth.refl w

/-- An allocation logs nothing. -/
theorem newArray (b : Bytes) : Quiet (newArray b) := fun _ =>
  Smooth.silent (Nat.le_refl _) id rfl

/-- A mark on an array is not an entry of the log. -/
theorem mark (m : Mark) (l : Nat) : Quiet (mark m l) :=
  modify (fun _ => Nat.le_refl _) (fun _ => id) fun _ => rfl

/-- Nor is a mark on an array that is being allocated. -/
theorem newMarked (m : Mark) (b : Bytes) : Quiet (newMarked m b) :=
  .bind (.newArray b) fun l => .bind (.mark m l) fun _ => .pure l

/-- Overwriting an array logs nothing. -/
theorem fillZero (l : Nat) : Quiet (fillZero l) :=
  modify (fun _ => Nat.le_refl _) (fun _ => id) fun _ => rfl

/-- A question whose answer is no failure. -/
theorem askLogged {event : Bool → Event} (f : Nat → Except JsError α)
    (hf : (event true).failed = false) (hp : (event true).isPct = false) :
    Quiet (askLogged event f) := fun _ =>
  wp_askLogged (fun _ _ => Smooth.event hf hp (Nat.le_succ _) rfl rfl)
    fun _ _ => trivial

/-- An HMAC is computed, and no event says so. -/
theorem hmacSha512 (hmac : Hmac) (key message : Bytes) :
    Quiet (hmacSha512 hmac key message) := fun _ =>
  wp_hmacSha512
    (fun _ _ => Smooth.event rfl rfl (Nat.le_refl _) rfl rfl)
    fun _ _ => trivial

end Quiet

-- ============================================================ the DRBG

section Drbg

variable (hmac : Hmac)

/-- The setters of the DRBG log nothing. -/
theorem quiet_setK (l : Nat) : Quiet (HmacDrbg.setK l) :=
  .bind (.modify (fun _ => Nat.le_refl _) (fun _ _ => rfl) fun _ => rfl)
    fun _ => .mark _ _

theorem quiet_setV (l : Nat) : Quiet (HmacDrbg.setV l) :=
  .bind (.modify (fun _ => Nat.le_refl _) (fun _ => id) fun _ => rfl)
    fun _ => .mark _ _

theorem quiet_setCounter (n : Nat) : Quiet (HmacDrbg.setCounter n) :=
  .modify (fun _ => Nat.le_refl _) (fun _ => id) fun _ => rfl

/-- An error of the DRBG's own is thrown, not returned. -/
theorem quiet_fail (message : String) :
    Quiet (HmacDrbg.fail message : Proc α) := fun _ => trivial

/-- Of the primitives only HMAC can fail, and where it does it throws, so a
procedure that returns has called none that failed. -/
theorem quiet_closed : Closed @Quiet where
  pure := .pure
  throw := .throw
  get := .get
  bind := .bind
  contents := .contents
  newArray := .newArray
  fillZero := .fillZero
  hmacSha512 := .hmacSha512
  setK := quiet_setK
  setV := quiet_setV

/-- `update` is quiet, being built of quiet steps only (`quiet_closed`). -/
theorem quiet_update (provided : ByteArg) :
    Quiet (HmacDrbg.update hmac provided) := quiet_closed.update hmac provided

/-- The guard of the DRBG's methods throws, or does nothing. -/
theorem quiet_requireInstantiated : Quiet HmacDrbg.requireInstantiated :=
  .bind .get fun _ => .ite (quiet_fail _) (.pure _)

/-- A reseed logs no failure: where its checks fail it throws. -/
theorem quiet_reseed (e : ByteArg) (a : Option ByteArg) :
    Quiet (HmacDrbg.reseed hmac e a) :=
  .bind quiet_requireInstantiated fun _ =>
  .bind (.ofExcept _) fun _ => .ite (quiet_fail _) <|
  .bind (.ofExcept _) fun _ =>
  .bind (quiet_update hmac _) fun _ => quiet_setCounter 1

/-- Nor does a request for bytes. -/
theorem quiet_generate (bytes : JsVal) (a : Option ByteArg) :
    Quiet (HmacDrbg.generate hmac bytes a) := by
  unfold HmacDrbg.generate
  refine .bind quiet_requireInstantiated fun _ => ?_
  cases HmacDrbg.isInteger? bytes with
  | none => exact quiet_fail _
  | some n =>
      exact .ite (quiet_fail _) <|
        .bind .get fun w => .ite (quiet_fail _) <|
        .bind (quiet_closed.updateIfProvided hmac _) fun _ =>
        .bind (quiet_closed.fillOutput hmac _ _ _) fun out =>
        .bind (quiet_update hmac _) fun _ =>
        .bind .get fun w =>
        .bind (quiet_setCounter _) fun _ => .pure out

end Drbg

-- ==================================================== the random bits

section Module

variable (rt : Runtime) (env : Env)

/-- A known-answer test that does not throw has not failed. -/
theorem quiet_cast (c : Cast) : Quiet (cast env c) :=
  .askLogged _ rfl rfl

/-- So have the tests of the integrity check, taken together. -/
theorem quiet_runIntegrityCasts : Quiet (runIntegrityCasts env) :=
  .bind (quiet_cast env _) fun _ => quiet_cast env _

/-- And so have the tests of the algorithms. -/
theorem quiet_runAlgorithmCasts : Quiet (runAlgorithmCasts env) :=
  .bind (quiet_cast env _) fun _ => .bind (quiet_cast env _) fun _ =>
  .bind (quiet_cast env _) fun _ => .bind (quiet_cast env _) fun _ =>
  quiet_cast env _

/-- Entropy that is returned has passed the health test, which logs its
success only. -/
theorem quiet_getEntropy (n : Nat) : Quiet (getEntropy env n) :=
  .bind (.askLogged _ rfl rfl) fun b => .newMarked _ b.1

/-- The reseed in front of a request is quiet, whether it is due or not. -/
theorem quiet_reseedIfRequired : Quiet (reseedIfRequired env) :=
  .bind .get fun _ => .ite
    (.bind (quiet_getEntropy env _) fun entropy =>
      .bind (.contents entropy) fun _ =>
      .bind (quiet_reseed env.hmac _ _) fun _ => .fillZero entropy)
    (.pure _)

-- ============================================================== candid

/-- If the procedure returns, or throws an error that is not fatal,
nothing failed. -/
def Candid (p : Proc α) : Prop :=
  ∀ w, Eff.wp p (fun _ => Smooth w)
    (fun e w' => e.fatal = true ∨ Smooth w w') w

/-- What is candid is quiet: its throws are looked at as well. -/
theorem Candid.quiet {p : Proc α} (h : Candid p) : Quiet p := fun w =>
  Eff.wp_mono (h w) (fun _ _ hs => hs) fun _ _ _ => trivial

namespace Candid

/-- Returning a value is candid. -/
theorem pure (a : α) : Candid (pure a : Proc α) := fun w => Smooth.refl w

/-- A throw that nothing has been logged for is candid. -/
theorem throw (e : JsError) : Candid (throw e : Proc α) := fun w =>
  Or.inr (Smooth.refl w)

/-- A candid procedure and what follows it are candid if each is. -/
theorem bind {p : Proc α} {f : α → Proc β} (hp : Candid p)
    (hf : ∀ a, Candid (f a)) : Candid (p >>= f) := by
  intro w
  rw [Eff.wp_bind]
  refine Eff.wp_mono (hp w) (fun a w₁ h₁ => ?_) fun _ _ h => h
  exact Eff.wp_mono (hf a w₁) (fun _ _ h₂ => h₁.trans h₂)
    fun _ _ h => h.imp_right h₁.trans

/-- A value or a throw from outside is candid. -/
theorem ofExcept (r : Except JsError α) :
    Candid (Eff.ofExcept r : Proc α) := by
  cases r with
  | ok a => exact pure a
  | error e => exact throw e

/-- Reading an array cannot throw. -/
theorem contents (l : Nat) : Candid (contents l) := fun w => Smooth.refl w

/-- A question that is answered with a throw has logged nothing. -/
theorem ask (f : Nat → Except JsError α) : Candid (ask f) := fun _ =>
  wp_ask (fun _ _ => Smooth.silent (Nat.le_succ _) id rfl)
    fun _ _ => Or.inr (Smooth.silent (Nat.le_succ _) id rfl)

/-- A `finally` that is smooth, and does not throw, leaves a procedure
candid. -/
theorem tryFinally {p : Proc α} {c : Proc Unit} (hp : Candid p)
    (hc : ∀ w, Eff.wp c (fun _ => Smooth w) (fun _ _ => False) w) :
    Candid (Eff.tryFinally p c) := by
  intro w
  rw [Eff.wp_tryFinally]
  refine Eff.wp_mono (hp w) (fun a w₁ h₁ => ?_) fun e w₁ h₁ => ?_
  · exact Eff.wp_mono (hc w₁) (fun _ _ h₂ => h₁.trans h₂)
      fun _ _ h => h.elim
  · exact Eff.wp_mono (hc w₁)
      (fun _ _ h₂ => h₁.imp_right fun h₁ => h₁.trans h₂)
      fun _ _ h => h.elim

end Candid

/-- A quiet procedure whose every error is made fatal. -/
theorem Quiet.orFatal {p : Proc α} (hp : Quiet p)
    (message : JsError → JsString) :
    Candid (tryCatch p fun err => fatal (message err)) := by
  intro w
  rw [Eff.wp_tryCatch]
  exact Eff.wp_mono (hp w) (fun _ _ h => h) fun _ _ _ => Or.inl rfl

/-- A request for random bytes logs a failure only where it throws a fatal
error. -/
theorem candid_random (n : Nat) : Candid (random env n) :=
  Quiet.orFatal
    (.bind (quiet_reseedIfRequired env) fun _ =>
      .bind (quiet_generate env.hmac _ _) fun out => .newMarked _ out)
    _

-- ====================================================== pairwise tests

/-- The comparison without an early exit is equality. -/
theorem equal_iff (a b : Bytes) : equal a b = true ↔ a = b := by
  rw [equal]
  exact Lib.ConstantTime.compared_iff beq_iff_eq

/-- The ML-KEM pairwise test passed on that pair: between the two times
the set's encapsulate under the public key returned a ciphertext that its
decapsulate under the secret key opened to the same shared secret. -/
def PctKemPassed (kem : KemSet) (publicKey secretKey : Bytes)
    (start stop : Nat) : Prop :=
  ∃ t m e, start ≤ t ∧ t + 1 < stop
    ∧ env.encapsulate t kem publicKey m = .ok e
    ∧ env.decapsulate (t + 1) kem e.cipherText secretKey
      = .ok e.sharedSecret

/-- The ML-DSA pairwise test passed on that pair: between the two times
the set's sign under the secret key returned a signature that its verify
under the public key accepted. -/
def PctDsaPassed (dsa : DsaSet) (publicKey secretKey : Bytes)
    (start stop : Nat) : Prop :=
  ∃ t rnd sig, start ≤ t ∧ t + 1 < stop
    ∧ env.sign t dsa pctMessage secretKey none rnd = .ok sig
    ∧ env.verify (t + 1) dsa sig pctMessage publicKey none = .ok true

/-- The pairwise test of a KEM logs no failure itself. Where it says yes,
the two secrets have been found equal. -/
theorem wp_pctKemBody (kem : KemSet) (publicKey secretKey : Bytes)
    (w : World) :
    Eff.wp (pctKemBody env kem publicKey secretKey)
      (fun ok w' => Smooth w w' ∧ (ok = true →
        PctKemPassed env kem publicKey secretKey w.clock w'.clock))
      (fun _ _ => True) w := by
  unfold pctKemBody
  rw [Eff.wp_bind]
  refine Eff.wp_mono ((candid_random env 32).quiet w) ?_ fun _ _ h => h
  intro m w₁ h₁
  unfold compareSecrets
  simp only [Eff.wp_bind, wp_contents, wp_newMarked, wp_fillZero,
    Eff.wp_pure]
  refine wp_ask (fun e he => ?_) fun _ _ => trivial
  refine wp_ask (fun r hr => ?_) fun _ _ => trivial
  have hclock := h₁.clock_le
  refine ⟨h₁.trans (.silent (by simp only; omega) id rfl), fun heq => ?_⟩
  refine ⟨w₁.clock, _, e, hclock, Nat.lt_succ_self _, he, ?_⟩
  rw [(equal_iff _ _).mp heq]
  exact hr

/-- The pairwise test of a signature logs no failure itself. Where it says
yes, the signature has verified. -/
theorem wp_pctDsaBody (dsa : DsaSet) (publicKey secretKey : Bytes)
    (w : World) :
    Eff.wp (pctDsaBody env dsa publicKey secretKey)
      (fun ok w' => Smooth w w' ∧ (ok = true →
        PctDsaPassed env dsa publicKey secretKey w.clock w'.clock))
      (fun _ _ => True) w := by
  unfold pctDsaBody
  rw [Eff.wp_bind]
  refine Eff.wp_mono ((candid_random env 32).quiet w) ?_ fun _ _ h => h
  intro rnd w₁ h₁
  simp only [Eff.wp_bind, wp_contents, wp_fillZero]
  refine wp_ask (fun sig hsig => ?_) fun _ _ => trivial
  refine wp_ask (fun ok hok => ?_) fun _ _ => trivial
  have hclock := h₁.clock_le
  refine ⟨h₁.trans (.silent (by simp only; omega) id rfl), fun heq => ?_⟩
  subst heq
  exact ⟨w₁.clock, _, sig, hclock, Nat.lt_succ_self _, hsig, hok⟩

/-- The frame of both pairwise tests: a test that returns has passed, and
whatever goes wrong inside comes out as a fatal error. -/
theorem wp_pct {publicKey secretKey : Bytes} {body : Proc Bool}
    {message : JsString} {P : Nat → Nat → Prop}
    (hbody : ∀ w, Eff.wp body
      (fun ok w' => Smooth w w' ∧ (ok = true → P w.clock w'.clock))
      (fun _ _ => True) w) (w : World) :
    Eff.wp (do
        emit (.pct publicKey secretKey)
        let ok ← tryCatch body pctCaught
        if ok then emit .pctPassed else fatal message)
      (fun _ w' => Smooth w w' ∧ P w.clock w'.clock)
      (fun e _ => e.fatal = true) w := by
  have hfail : ∀ w', Eff.wp (fatal message : Proc Unit)
      (fun _ w' => Smooth w w' ∧ P w.clock w'.clock)
      (fun e _ => e.fatal = true) w' := fun _ => rfl
  rw [Eff.wp_bind, wp_emit, Eff.wp_bind, Eff.wp_tryCatch]
  refine Eff.wp_mono (hbody _) ?_ ?_
  · intro ok w₁ hpost
    obtain ⟨hs, hp⟩ := hpost
    cases ok with
    | false => exact hfail w₁
    | true =>
        refine ⟨⟨hs.clock_le, hs.instantiated, ?_⟩, hp rfl⟩
        obtain ⟨es, he, hf⟩ := hs.trace
        refine ⟨.pct publicKey secretKey :: es ++ [.pctPassed], ?_, ?_⟩
        · simp [he]
        · -- the test that began is the one that passed
          intro h
          rcases h with ⟨e, hm, hx⟩ | ⟨-, hn⟩
          · simp only [List.cons_append, List.mem_cons, List.mem_append,
              List.not_mem_nil, or_false] at hm
            rcases hm with rfl | hm | rfl
            · cases hx
            · exact hf (Or.inl ⟨e, hm, hx⟩)
            · cases hx
          · exact hn (by simp)
  · intro e w₁ _
    unfold pctCaught
    rw [Eff.wp_ite]
    refine ⟨fun hname => ?_, fun _ => hfail w₁⟩
    show e.fatal = true
    rw [JsError.fatal, hname]
    rfl

/-- A pair whose test returns has passed it. Where the test throws, the
error is fatal. -/
theorem wp_pctKem (kem : KemSet) (publicKey secretKey : Bytes)
    (w : World) :
    Eff.wp (pctKem env kem publicKey secretKey)
      (fun _ w' => Smooth w w'
        ∧ PctKemPassed env kem publicKey secretKey w.clock w'.clock)
      (fun e _ => e.fatal = true) w :=
  wp_pct (wp_pctKemBody env kem publicKey secretKey) w

/-- The same of a pair of signature keys. -/
theorem wp_pctDsa (dsa : DsaSet) (publicKey secretKey : Bytes)
    (w : World) :
    Eff.wp (pctDsa env dsa publicKey secretKey)
      (fun _ w' => Smooth w w'
        ∧ PctDsaPassed env dsa publicKey secretKey w.clock w'.clock)
      (fun e _ => e.fatal = true) w :=
  wp_pct (wp_pctDsaBody env dsa publicKey secretKey) w

-- =========================================================== services

/-- The pairwise test of the parameter set passed on that pair between
the two times. -/
def PairwisePassed (alg : JsVal) (publicKey secretKey : Bytes)
    (start stop : Nat) : Prop :=
  (∃ kem, entryOf KEM alg = some kem
      ∧ PctKemPassed env kem publicKey secretKey start stop)
    ∨ ∃ dsa, entryOf DSA alg = some dsa
      ∧ PctDsaPassed env dsa publicKey secretKey start stop

/-- `generateKeypair` returns a pair its pairwise test passed on, and a
failure on the way is fatal. -/
theorem wp_generateKeypair (alg : JsVal) (w : World) :
    Eff.wp (generateKeypair rt env alg)
      (fun o w' => Smooth w w' ∧ ∃ name publicKey secretKey seed,
        o = .keyPair name publicKey secretKey (some seed)
          ∧ PairwisePassed env alg publicKey secretKey w.clock w'.clock)
      (fun e w' => e.fatal = true ∨ Smooth w w') w := by
  unfold generateKeypair
  rw [Eff.wp_bind]
  refine Eff.wp_mono (Candid.ofExcept (requireOffered rt alg) w) ?_
    fun _ _ h => h
  intro name w₁ h₁
  cases hk : entryOf KEM alg with
  | some kem =>
      simp only
      rw [Eff.wp_bind]
      refine Eff.wp_mono (candid_random env 64 w₁) ?_
        fun _ _ h => h.imp_right h₁.trans
      intro seed w₂ h₂
      simp only [Eff.wp_bind, wp_contents]
      have h₃ : Smooth w { w₂ with clock := w₂.clock + 1 } :=
        (h₁.trans h₂).trans (.silent (Nat.le_succ _) id rfl)
      refine wp_ask (fun kp _ => ?_) fun _ _ => Or.inr h₃
      refine Eff.wp_mono (wp_pctKem env kem kp.publicKey kp.secretKey _) ?_
        fun _ _ h => Or.inl h
      intro _ w₄ hpost
      obtain ⟨h₄, t, m, e, hle, hlt, hx⟩ := hpost
      refine ⟨h₃.trans h₄, name, _, _, seed, rfl, Or.inl ⟨kem, hk, ?_⟩⟩
      exact ⟨t, m, e, Nat.le_trans h₃.clock_le hle, hlt, hx⟩
  | none =>
      simp only
      rw [Eff.wp_bind]
      cases hd : dsaOf rt alg with
      | error e => exact Or.inr h₁
      | ok dsa =>
          rw [Eff.wp_ofExcept_ok, Eff.wp_bind]
          refine Eff.wp_mono (candid_random env 32 w₁) ?_
            fun _ _ h => h.imp_right h₁.trans
          intro seed w₂ h₂
          simp only [Eff.wp_bind, wp_contents]
          have h₃ : Smooth w { w₂ with clock := w₂.clock + 1 } :=
            (h₁.trans h₂).trans (.silent (Nat.le_succ _) id rfl)
          refine wp_ask (fun kp _ => ?_) fun _ _ => Or.inr h₃
          refine Eff.wp_mono
            (wp_pctDsa env dsa kp.publicKey kp.secretKey _) ?_
            fun _ _ h => Or.inl h
          intro _ w₄ hpost
          obtain ⟨h₄, t, rnd, sig, hle, hlt, hx⟩ := hpost
          refine ⟨h₃.trans h₄, name, _, _, seed, rfl,
            Or.inr ⟨dsa, entryOf_of_dsaOf hd, ?_⟩⟩
          exact ⟨t, rnd, sig, Nat.le_trans h₃.clock_le hle, hlt, hx⟩

/-- A question is candid, whether its error is caught or not. -/
theorem candid_asks : Asks @Candid where
  ofExcept := .ofExcept
  askOr f a := by
    intro w
    rw [Eff.wp_tryCatch]
    exact wp_ask (fun _ _ => Smooth.silent (Nat.le_succ _) id rfl)
      fun _ _ => Smooth.silent (Nat.le_succ _) id rfl
  ask := .ask
  pure := .pure
  bind := .bind

/-- Wiping one buffer neither fails nor throws. -/
private theorem wp_fillZero_smooth (l : Nat) (w : World) :
    Eff.wp (fillZero l) (fun _ => Smooth w) (fun _ _ => False) w :=
  Smooth.silent (Nat.le_refl _) id rfl

/-- Encapsulation logs a failure only where it throws a fatal error. -/
theorem candid_encapsulate (alg publicKey : JsVal) :
    Candid (encapsulate rt env alg publicKey) :=
  .bind (.ofExcept _) fun _ => .bind (.ofExcept _) fun _ =>
  .bind (candid_random env _) fun m =>
  .tryFinally
    (.bind (.contents m) fun _ => .bind (.ask _) fun _ => .pure _)
    (wp_fillZero_smooth m)

/-- So does signing. -/
theorem candid_sign (alg secretKey message opts : JsVal) :
    Candid (sign rt env alg secretKey message opts) :=
  .bind (.ofExcept _) fun _ => .bind (.ofExcept _) fun _ =>
  .bind (.ofExcept _) fun _ => .bind (.ofExcept _) fun _ =>
  .bind (candid_random env _) fun rnd =>
  .tryFinally
    (.bind (.contents rnd) fun _ => .bind (.ask _) fun _ => .pure _)
    (wp_fillZero_smooth rnd)

end Module

end KxcoPostQuantum.Fips
