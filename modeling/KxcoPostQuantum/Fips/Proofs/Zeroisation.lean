/-
Which temporaries the services leave in memory.

Security Policy section 9.3 lists what the module overwrites as soon as
used: entropy input and nonce, the encapsulation and signing randomness,
the values inside the pairwise tests. `encapsulate` and `sign` wipe on
every path. Three places wipe only on the path that succeeds:

- `start`: the entropy input, when the read of the nonce throws;
- the pairwise tests: their randomness, when a primitive throws before
  the line that wipes it;
- `generateKeypair`: the seed, which nobody is given, when the key
  generation or the pairwise test fails.

`leavings` computes, from the environment's answers and the working
state a call finds, the bytes the call leaves behind, and a call
zeroises its temporaries exactly when those are all zero.

# The account

`Acct w₀ w left` is the invariant: of the buffers recorded since `w₀`
every one is zero but those in `left`, whose bytes it lists. Each
procedure has one lemma saying what it does to the account; HMAC is
total, as it is in the vendored code.
-/
import KxcoPostQuantum.Fips.Module
import KxcoPostQuantum.Fips.Index
import KxcoPostQuantum.Fips.Proofs.DrbgRefinement
import KxcoPostQuantum.Fips.Proofs.Primitives

namespace KxcoPostQuantum.Fips

open Lib (Eff Heap)

variable {h : Bytes → Bytes → Mac} {env : Env}
variable {w₀ w w' : World} {s : WorkingState} {left : List (Nat × Bytes)}

-- ========================================================= the account

/-- The buffers recorded since `w₀` are zero, but those in `left`, which
hold what it says. None of them is held by the DRBG. -/
structure Acct (w₀ w : World) (left : List (Nat × Bytes)) : Prop where
  marks : ∃ ms, w.marks = w₀.marks ++ ms
    ∧ (∀ p ∈ ms, p.1 ≠ .drbgState → p.2 < w.heap.size ∧ ¬IsHeld w p.2
      ∧ (AllZero (w.heap.read p.2) ∨ ∃ b, (p.2, b) ∈ left))
    ∧ ∀ q ∈ left, w.heap.read q.1 = q.2
      ∧ ∃ m, m ≠ .drbgState ∧ (m, q.1) ∈ ms

/-- Between a world and itself nothing is left over. -/
theorem Acct.refl (w : World) : Acct w w [] :=
  ⟨[], (List.append_nil _).symm, fun _ hp => (nomatch hp),
    fun _ hq => (nomatch hq)⟩

/-- What is left is recorded, allocated and not held. -/
theorem Acct.of_mem (ha : Acct w₀ w left) {q : Nat × Bytes}
    (hq : q ∈ left) :
    w.heap.read q.1 = q.2 ∧ q.1 < w.heap.size ∧ ¬IsHeld w q.1 := by
  obtain ⟨ms, -, hms, hleft⟩ := ha.marks
  obtain ⟨hread, m, hm, hmem⟩ := hleft q hq
  obtain ⟨hlt, hheld, -⟩ := hms _ hmem hm
  exact ⟨hread, hlt, hheld⟩

/-- Events and questions do not touch the account. -/
theorem Acct.congr (ha : Acct w₀ w left) (hh : w'.heap = w.heap)
    (hd : w'.drbg = w.drbg) (hm : w'.marks = w.marks) :
    Acct w₀ w' left := by
  obtain ⟨ms, he, hms, hleft⟩ := ha.marks
  refine ⟨ms, hm.trans he, ?_, ?_⟩
  · unfold IsHeld at hms ⊢
    rw [hh, hd]
    exact hms
  · rw [hh]
    exact hleft

/-- The DRBG's methods do not touch the account: what they put in memory is
marked as state, and what is recorded they do not write to. -/
theorem Acct.kept (ha : Acct w₀ w left) (hk : Kept w w') :
    Acct w₀ w' left := by
  obtain ⟨ms, he, hms, hleft⟩ := ha.marks
  obtain ⟨ms', he', hms'⟩ := hk.marks
  refine ⟨ms ++ ms', by rw [he', he, List.append_assoc], ?_, ?_⟩
  · intro p hp hne
    rcases List.mem_append.mp hp with hp | hp
    · obtain ⟨hlt, hheld, hz⟩ := hms p hp hne
      refine ⟨Nat.lt_of_lt_of_le hlt hk.size_le, fun hh => ?_, ?_⟩
      · exact (hk.held p.2 hh).elim hheld fun hge => absurd hlt (by omega)
      · rw [hk.read_eq p.2 hlt hheld]
        exact hz
    · exact absurd (hms' p hp).1 hne
  · intro q hq
    obtain ⟨hread, hlt, hheld⟩ := ha.of_mem hq
    obtain ⟨-, m, hm, hmem⟩ := hleft q hq
    exact ⟨(hk.read_eq q.1 hlt hheld).trans hread, m, hm,
      List.mem_append_left _ hmem⟩

/-- A new buffer under a mark is left until it is wiped. It lies behind all
there is in memory, so it is none of the buffers that the account is about
already. -/
theorem Acct.alloc (ha : Acct w₀ w left) {m : Mark} (hm : m ≠ .drbgState)
    (b : Bytes) (hheld : ∀ l, IsHeld w l → l < w.heap.size) :
    Acct w₀ { w with
        heap := (w.heap.alloc b).2
        marks := w.marks ++ [(m, w.heap.size)] }
      ((w.heap.size, b) :: left) := by
  obtain ⟨ms, he, hms, hleft⟩ := ha.marks
  refine ⟨ms ++ [(m, w.heap.size)], by rw [he, List.append_assoc], ?_, ?_⟩
  · intro p hp hne
    simp only [Heap.size_alloc]
    rcases List.mem_append.mp hp with hp | hp
    · obtain ⟨hlt, hn, hz⟩ := hms p hp hne
      refine ⟨by omega, hn, ?_⟩
      rw [Heap.read_alloc_of_lt hlt]
      exact hz.imp_right fun ⟨b', hb'⟩ => ⟨b', List.mem_cons_of_mem _ hb'⟩
    · rw [List.mem_singleton] at hp
      subst hp
      exact ⟨Nat.lt_succ_self _,
        fun hh => absurd (hheld _ hh) (Nat.lt_irrefl _),
        Or.inr ⟨b, List.mem_cons_self⟩⟩
  · intro q hq
    rcases List.mem_cons.mp hq with rfl | hq
    · exact ⟨Heap.read_alloc_self _ _, m, hm, by simp⟩
    · obtain ⟨-, m', hm', hmem⟩ := hleft q hq
      obtain ⟨hread, hlt, -⟩ := ha.of_mem hq
      exact ⟨(Heap.read_alloc_of_lt hlt b).trans hread, m', hm',
        List.mem_append_left _ hmem⟩

/-- Wiping a buffer takes it off what is left. Its number must stand there
once, or the account would go on about bytes that have been overwritten. -/
theorem Acct.wipe {l : Nat} {b : Bytes}
    (ha : Acct w₀ w ((l, b) :: left)) (hnew : ∀ q ∈ left, q.1 ≠ l) :
    Acct w₀ { w with
        heap := w.heap.write l (List.replicate (w.heap.read l).length 0) }
      left := by
  obtain ⟨ms, he, hms, hleft⟩ := ha.marks
  obtain ⟨-, hlt, -⟩ := ha.of_mem List.mem_cons_self
  refine ⟨ms, he, ?_, ?_⟩
  · intro p hp hne
    obtain ⟨hltp, hn, hz⟩ := hms p hp hne
    refine ⟨by simpa using hltp, hn, ?_⟩
    by_cases hl : l = p.2
    · refine Or.inl ?_
      simp only
      rw [← hl, Heap.read_write_self hlt]
      exact allZero_replicate _
    · simp only
      rw [Heap.read_write_of_ne hl]
      refine hz.imp_right ?_
      intro h
      obtain ⟨b', hb'⟩ := h
      rcases List.mem_cons.mp hb' with heq | hb'
      · exact absurd (congrArg Prod.fst heq).symm hl
      · exact ⟨b', hb'⟩
  · intro q hq
    obtain ⟨hread, hm⟩ := hleft q (List.mem_cons_of_mem _ hq)
    exact ⟨(Heap.read_write_of_ne (Ne.symm (hnew q hq)) _).trans hread, hm⟩

/-- The order of what is left does not matter. -/
theorem Acct.perm {left' : List (Nat × Bytes)} (ha : Acct w₀ w left)
    (hp : left.Perm left') : Acct w₀ w left' := by
  obtain ⟨ms, he, hms, hleft⟩ := ha.marks
  refine ⟨ms, he, fun p hp' hne => ?_, fun q hq => hleft q (hp.mem_iff.mpr hq)⟩
  obtain ⟨hlt, hn, hz⟩ := hms p hp' hne
  exact ⟨hlt, hn, hz.imp_right fun ⟨b, hb⟩ => ⟨b, hp.mem_iff.mp hb⟩⟩

-- ============================================= the state of the DRBG

/-- The arrays an instance holds are on the heap. -/
theorem Holds.held_lt (hs : Holds w s) {l : Nat} (hl : IsHeld w l) :
    l < w.heap.size := by
  obtain ⟨k, v, hlive, -⟩ := hs
  rcases hl with hl | hl
  · rw [hlive.K] at hl
    injection hl with hl
    exact hl ▸ hlive.k_lt
  · rw [hlive.V] at hl
    injection hl with hl
    exact hl ▸ hlive.v_lt

/-- The instance does not see a new buffer. -/
theorem Holds.alloc (hs : Holds w s) {b : Bytes}
    (hh : w'.heap = (w.heap.alloc b).2) (hd : w'.drbg = w.drbg) :
    Holds w' s := by
  obtain ⟨k, v, hl, rfl⟩ := hs
  have hk := hl.k_lt
  have hv := hl.v_lt
  refine ⟨k, v, ⟨hd ▸ hl.K, hd ▸ hl.V, ?_, ?_, hl.ne⟩, ?_⟩
  · rw [hh, Heap.size_alloc]
    omega
  · rw [hh, Heap.size_alloc]
    omega
  · rw [hh, hd, Heap.read_alloc_of_lt hk, Heap.read_alloc_of_lt hv]

/-- The instance does not see a buffer it does not hold wiped. -/
theorem Holds.write (hs : Holds w s) {l : Nat} {b : Bytes}
    (hl : ¬IsHeld w l) :
    Holds { w with heap := w.heap.write l b } s := by
  obtain ⟨k, v, hlive, rfl⟩ := hs
  have hk : l ≠ k := fun he => hl (Or.inl (he ▸ hlive.K))
  have hv : l ≠ v := fun he => hl (Or.inr (he ▸ hlive.V))
  refine ⟨k, v, ⟨hlive.K, hlive.V, ?_, ?_, hlive.ne⟩, ?_⟩
  · simpa using hlive.k_lt
  · simpa using hlive.v_lt
  · simp only [Heap.read_write_of_ne hk, Heap.read_write_of_ne hv]

-- ======================================================== random bits

/-- The time and the working state after the reseed `random` makes when
one is due, if the entropy read answers. -/
def reseeded (h : Bytes → Bytes → Mac) (env : Env) (t : Nat)
    (s : WorkingState) : Option (Nat × WorkingState) :=
  if reseedInterval < s.reseedCounter then
    match env.getEntropy t entropyBytes with
    | .error _ => none
    | .ok e => some (t + 1, specReseed h s e.1 [])
  else some (t, s)

/-- The bytes `random` draws, and the time and working state after. -/
def draw (h : Bytes → Bytes → Mac) (env : Env) (n t : Nat)
    (s : WorkingState) : Option (Bytes × Nat × WorkingState) :=
  (reseeded h env t s).map fun (t, s) =>
    ((specGenerate h s n []).1, t, (specGenerate h s n []).2)

/-- A read of the entropy device is left until it is wiped. -/
theorem wp_getEntropy (ha : Acct w₀ w left)
    (hheld : ∀ l, IsHeld w l → l < w.heap.size) {n : Nat}
    {Q : Nat → World → Prop} {E : JsError → World → Prop}
    (hQ : ∀ b w', env.getEntropy w.clock n = .ok b →
      Acct w₀ w' ((w.heap.size, b.1) :: left) →
      w'.heap = (w.heap.alloc b.1).2 → w'.drbg = w.drbg →
      w'.clock = w.clock + 1 → Q w.heap.size w')
    (hE : ∀ e w', env.getEntropy w.clock n = .error e →
      Acct w₀ w' left → w'.heap = w.heap → w'.drbg = w.drbg → E e w') :
    Eff.wp (getEntropy env n) Q E w := by
  unfold getEntropy
  simp only [Eff.wp_bind, wp_newMarked]
  refine wp_askLogged (fun b hb => ?_) fun e he => ?_
  · refine hQ b _ hb ?_ rfl rfl rfl
    exact (ha.alloc (m := .entropy) (by decide) b.1 hheld).congr
      rfl rfl rfl
  · exact hE e _ he (ha.congr rfl rfl rfl) rfl rfl

/-- A reseed sets the counter to one. -/
theorem specReseed_counter (e a : Bytes) :
    (specReseed h s e a).reseedCounter = 1 := rfl

/-- The reseed of `random` wipes the entropy it read, so it leaves nothing
of its own behind; a read that throws has recorded nothing yet. -/
theorem wp_reseedIfRequired (hh : env.hmac = Hmac.ofFunction h)
    (hs : Holds w s) (ha : Acct w₀ w left) :
    Eff.wp (reseedIfRequired env)
      (fun _ w' => ∃ s', reseeded h env w.clock s = some (w'.clock, s')
        ∧ Holds w' s' ∧ Acct w₀ w' left
        ∧ s'.reseedCounter ≤ reseedInterval)
      (fun _ w' => reseeded h env w.clock s = none ∧ Holds w' s
        ∧ Acct w₀ w' left) w := by
  unfold reseedIfRequired
  rw [Eff.wp_bind, Eff.wp_get]
  simp only [HmacDrbg.reseedRequired, hs.counter_eq, decide_eq_true_eq]
  rw [Eff.wp_ite]
  unfold reseeded
  refine ⟨fun hdue => ?_, fun hdue => ?_⟩
  · rw [if_pos hdue]
    simp only [Eff.wp_bind, wp_contents, wp_fillZero]
    refine wp_getEntropy ha (fun _ => hs.held_lt) ?_ ?_
    · intro b w₁ hb ha₁ hheap hd hclock
      have hs₁ : Holds w₁ s := hs.alloc hheap hd
      obtain ⟨hread, -, hheld⟩ := ha₁.of_mem List.mem_cons_self
      rw [hb, hh, hread]
      refine Eff.wp_mono (wp_reseed hs₁ (ByteArg.content?_bytes b.1) rfl
        (by rw [b.2]; decide)) ?_ fun _ _ hf => hf.elim
      intro _ w₂ hpost
      obtain ⟨hs₂, hk₂, -⟩ := hpost
      have hold : ∀ q ∈ left, q.1 ≠ w.heap.size := fun q hq =>
        Nat.ne_of_lt (ha.of_mem hq).2.1
      have ha₂ := ha₁.kept hk₂
      refine ⟨_, by rw [hk₂.clock_eq, hclock], hs₂.write ?_, ha₂.wipe hold,
        by rw [specReseed_counter]; decide⟩
      exact (ha₂.of_mem List.mem_cons_self).2.2
    · intro e w₁ he ha₁ hheap hd
      rw [he]
      exact ⟨rfl, hs.congr hheap hd, ha₁⟩
  · rw [if_neg hdue]
    exact ⟨s, rfl, hs, ha, by omega⟩

/-- What `random` draws is left until it is wiped, and nothing else: its
caller holds the one buffer, and the account names it with its bytes. -/
theorem wp_random (hh : env.hmac = Hmac.ofFunction h) (hs : Holds w s)
    (ha : Acct w₀ w left) {n : Nat} (h1 : 1 ≤ n)
    (hmax : n ≤ maxBytesPerRequest) :
    Eff.wp (random env n)
      (fun l w' => ∃ b s', draw h env n w.clock s = some (b, w'.clock, s')
        ∧ Holds w' s' ∧ Acct w₀ w' ((l, b) :: left)
        ∧ ∀ q ∈ left, q.1 ≠ l)
      (fun _ w' => draw h env n w.clock s = none ∧ Holds w' s
        ∧ Acct w₀ w' left) w := by
  unfold random draw
  simp only [Eff.wp_tryCatch, Eff.wp_bind, wp_newMarked]
  refine Eff.wp_mono (wp_reseedIfRequired hh hs ha) ?_ ?_
  · intro _ w₁ hpost
    obtain ⟨s₁, hr, hs₁, ha₁, hc₁⟩ := hpost
    rw [hr, hh]
    refine Eff.wp_mono (wp_generate (a := none) hs₁
      (HmacDrbg.isInteger?_natCast n) h1 hmax hc₁ rfl) ?_
      fun _ _ hf => hf.elim
    intro out w₂ hpost
    obtain ⟨hout, hs₂, hk₂⟩ := hpost
    have ha₂ := ha₁.kept hk₂
    refine ⟨out, _, ?_, hs₂.alloc rfl rfl,
      ha₂.alloc (m := .draw) (by decide) out fun _ => hs₂.held_lt,
      fun q hq => Nat.ne_of_lt (ha₂.of_mem hq).2.1⟩
    rw [hout, hk₂.clock_eq]
    rfl
  · intro e w₁ hpost
    obtain ⟨hr, hs₁, ha₁⟩ := hpost
    rw [hr]
    exact ⟨rfl, hs₁.congr rfl rfl, ha₁.congr rfl rfl rfl⟩

-- ===================================================== pairwise tests

/-- Whether the ML-KEM pairwise test passes, and the bytes it leaves. -/
def kemTest (h : Bytes → Bytes → Mac) (env : Env) (kem : KemSet)
    (kp : KeyPair) (t : Nat) (s : WorkingState) : Bool × List Bytes :=
  match draw h env 32 t s with
  | none => (false, [])
  | some (m, t, _) =>
      match env.encapsulate t kem kp.publicKey m with
      | .error _ => (false, [m])
      | .ok e =>
          match env.decapsulate (t + 1) kem e.cipherText kp.secretKey with
          | .error _ => (false, [m])
          | .ok r => (equal e.sharedSecret r, [])

/-- Whether the ML-DSA pairwise test passes, and the bytes it leaves. -/
def dsaTest (h : Bytes → Bytes → Mac) (env : Env) (dsa : DsaSet)
    (kp : KeyPair) (t : Nat) (s : WorkingState) : Bool × List Bytes :=
  match draw h env 32 t s with
  | none => (false, [])
  | some (rnd, t, _) =>
      match env.sign t dsa pctMessage kp.secretKey none rnd with
      | .error _ => (false, [rnd])
      | .ok sig =>
          match env.verify (t + 1) dsa sig pctMessage kp.publicKey none with
          | .error _ => (false, [])
          | .ok ok => (ok, [])

/-- A test that passes leaves nothing. -/
theorem kemTest_passed {kem : KemSet} {kp : KeyPair} {t : Nat}
    (hp : (kemTest h env kem kp t s).1 = true) :
    (kemTest h env kem kp t s).2 = [] := by
  unfold kemTest at hp ⊢
  split at hp
  · cases hp
  · split at hp
    · cases hp
    · split at hp
      · cases hp
      · rfl

/-- A test that passes leaves nothing. -/
theorem dsaTest_passed {dsa : DsaSet} {kp : KeyPair} {t : Nat}
    (hp : (dsaTest h env dsa kp t s).1 = true) :
    (dsaTest h env dsa kp t s).2 = [] := by
  unfold dsaTest at hp ⊢
  split at hp
  · cases hp
  · split at hp
    · cases hp
    · split at hp
      · cases hp
      · rfl

/-- A pairwise test has come out as `test` says, and left what it
says on top of what was left before. -/
def Tested (w₀ : World) (left : List (Nat × Bytes))
    (test : Bool × List Bytes) (ok : Bool) (w : World) : Prop :=
  test.1 = ok ∧ (∃ more, Acct w₀ w (more ++ left)
    ∧ more.map (·.2) = test.2) ∧ ∃ s, Holds w s

/-- Whether a pair has passed is kept by what leaves the heap, the instance
and the marks as they are. -/
theorem Tested.congr {test : Bool × List Bytes} {ok : Bool}
    (ht : Tested w₀ left test ok w) (hh : w'.heap = w.heap)
    (hd : w'.drbg = w.drbg) (hm : w'.marks = w.marks) :
    Tested w₀ left test ok w' := by
  obtain ⟨hok, ⟨more, ha, hmore⟩, s, hs⟩ := ht
  exact ⟨hok, ⟨more, ha.congr hh hd hm, hmore⟩, s, hs.congr hh hd⟩

/-- A new recorded buffer is left until it is wiped. -/
theorem acct_newMarked (hs : Holds w s) (ha : Acct w₀ w left) {m : Mark}
    (hm : m ≠ .drbgState) (b : Bytes) :
    Eff.wp (newMarked m b)
      (fun l w' => Holds w' s ∧ Acct w₀ w' ((l, b) :: left)
        ∧ ∀ q ∈ left, q.1 ≠ l)
      (fun _ _ => False) w := by
  rw [wp_newMarked]
  exact ⟨hs.alloc rfl rfl, ha.alloc hm b fun _ => hs.held_lt,
    fun q hq => Nat.ne_of_lt (ha.of_mem hq).2.1⟩

/-- Wiping a buffer takes it off what is left, wherever it stands. -/
theorem acct_fillZero {l : Nat} {b : Bytes} {left' : List (Nat × Bytes)}
    (hs : Holds w s) (ha : Acct w₀ w left)
    (hp : left.Perm ((l, b) :: left')) (hnew : ∀ q ∈ left', q.1 ≠ l) :
    Eff.wp (fillZero l)
      (fun _ w' => Holds w' s ∧ Acct w₀ w' left' ∧ w'.clock = w.clock)
      (fun _ _ => False) w := by
  have ha' := ha.perm hp
  rw [wp_fillZero]
  exact ⟨hs.write (ha'.of_mem List.mem_cons_self).2.2, ha'.wipe hnew, rfl⟩

/-- The comparison of the shared secrets wipes them and the randomness, if
it is reached; a primitive that throws before it is what leaves the
randomness behind. -/
theorem acct_compareSecrets {m : Nat} {b : Bytes} (hs : Holds w s)
    (ha : Acct w₀ w ((m, b) :: left)) (hm : ∀ q ∈ left, q.1 ≠ m)
    (sharedSecret recovered : Bytes) :
    Eff.wp (compareSecrets m sharedSecret recovered)
      (fun ok w' => ok = equal sharedSecret recovered ∧ Holds w' s
        ∧ Acct w₀ w' left)
      (fun _ _ => False) w := by
  unfold compareSecrets
  simp only [Eff.wp_bind, Eff.wp_pure]
  refine Eff.wp_mono (acct_newMarked hs ha (by decide) sharedSecret) ?_
    fun _ _ hf => hf
  intro ss w₁ hpost
  obtain ⟨hs₁, ha₁, hss⟩ := hpost
  refine Eff.wp_mono (acct_newMarked hs₁ ha₁ (by decide) recovered) ?_
    fun _ _ hf => hf
  intro r w₂ hpost
  obtain ⟨hs₂, ha₂, hr⟩ := hpost
  rw [List.forall_mem_cons] at hss
  rw [List.forall_mem_cons, List.forall_mem_cons] at hr
  have hpm : ((r, recovered) :: (ss, sharedSecret) :: (m, b) :: left).Perm
      ((m, b) :: (r, recovered) :: (ss, sharedSecret) :: left) :=
    ((List.Perm.swap _ _ _).cons _).trans (List.Perm.swap _ _ _)
  refine Eff.wp_mono (acct_fillZero hs₂ ha₂ hpm ?_) ?_ fun _ _ hf => hf
  · rw [List.forall_mem_cons, List.forall_mem_cons]
    exact ⟨Ne.symm hr.2.1, Ne.symm hss.1, hm⟩
  intro _ w₃ hpost
  obtain ⟨hs₃, ha₃, -⟩ := hpost
  refine Eff.wp_mono (acct_fillZero hs₃ ha₃ (List.Perm.swap _ _ _) ?_) ?_
    fun _ _ hf => hf
  · rw [List.forall_mem_cons]
    exact ⟨Ne.symm hr.1, hss.2⟩
  intro _ w₄ hpost
  obtain ⟨hs₄, ha₄, -⟩ := hpost
  refine Eff.wp_mono (acct_fillZero hs₄ ha₄ (List.Perm.refl _) hr.2.2) ?_
    fun _ _ hf => hf
  intro _ w₅ hpost
  obtain ⟨hs₅, ha₅, -⟩ := hpost
  exact ⟨trivial, hs₅, ha₅⟩

/-- What the pairwise test of a KEM leaves, and what it says: both as
`kemTest` has them, of the draws of the instance. -/
theorem tested_pctKemBody (hh : env.hmac = Hmac.ofFunction h)
    (hs : Holds w s) (ha : Acct w₀ w left) (kem : KemSet) (kp : KeyPair) :
    Eff.wp (pctKemBody env kem kp.publicKey kp.secretKey)
      (Tested w₀ left (kemTest h env kem kp w.clock s))
      (fun _ => Tested w₀ left (kemTest h env kem kp w.clock s) false)
      w := by
  unfold pctKemBody kemTest
  rw [Eff.wp_bind]
  refine Eff.wp_mono (wp_random hh hs ha (by decide) (by decide)) ?_ ?_
  · intro m w₁ hpost
    obtain ⟨b, s₁, hd, hs₁, ha₁, hnew⟩ := hpost
    rw [hd]
    simp only [Eff.wp_bind, wp_contents, (ha₁.of_mem List.mem_cons_self).1]
    refine wp_ask (fun e he => ?_) fun e he => ?_
    · simp only [he]
      refine wp_ask (fun r hr => ?_) fun e hr => ?_
      · simp only [hr]
        refine Eff.wp_mono (acct_compareSecrets
          (w := { w₁ with clock := w₁.clock + 1 + 1 })
          (hs₁.congr rfl rfl) (ha₁.congr rfl rfl rfl) hnew
          e.sharedSecret r) ?_ fun _ _ (hf : False) => hf.elim
        intro ok w₂ hpost
        obtain ⟨hok, hs₂, ha₂⟩ := hpost
        exact ⟨hok.symm, ⟨[], ha₂, rfl⟩, s₁, hs₂⟩
      · simp only [hr]
        exact ⟨rfl, ⟨[(m, b)], ha₁.congr rfl rfl rfl, rfl⟩, s₁,
          hs₁.congr rfl rfl⟩
    · simp only [he]
      exact ⟨rfl, ⟨[(m, b)], ha₁.congr rfl rfl rfl, rfl⟩, s₁,
        hs₁.congr rfl rfl⟩
  · intro e w₁ hpost
    obtain ⟨hd, hs₁, ha₁⟩ := hpost
    rw [hd]
    exact ⟨rfl, ⟨[], ha₁, rfl⟩, s, hs₁⟩

/-- The same of the pairwise test of a signature, by `dsaTest`. Its
randomness is wiped after the signature is made, so it is left where signing
throws. -/
theorem tested_pctDsaBody (hh : env.hmac = Hmac.ofFunction h)
    (hs : Holds w s) (ha : Acct w₀ w left) (dsa : DsaSet) (kp : KeyPair) :
    Eff.wp (pctDsaBody env dsa kp.publicKey kp.secretKey)
      (Tested w₀ left (dsaTest h env dsa kp w.clock s))
      (fun _ => Tested w₀ left (dsaTest h env dsa kp w.clock s) false)
      w := by
  unfold pctDsaBody dsaTest
  rw [Eff.wp_bind]
  refine Eff.wp_mono (wp_random hh hs ha (by decide) (by decide)) ?_ ?_
  · intro rnd w₁ hpost
    obtain ⟨b, s₁, hd, hs₁, ha₁, hnew⟩ := hpost
    rw [hd]
    simp only [Eff.wp_bind, wp_contents, (ha₁.of_mem List.mem_cons_self).1]
    refine wp_ask (fun sig hsig => ?_) fun e hsig => ?_
    · simp only [hsig]
      refine Eff.wp_mono (acct_fillZero (hs₁.congr rfl rfl)
        (ha₁.congr rfl rfl rfl) (List.Perm.refl _) hnew) ?_
        fun _ _ (hf : False) => hf.elim
      intro _ w₂ hpost
      obtain ⟨hs₂, ha₂, hclock⟩ := hpost
      have hclock' : w₂.clock = w₁.clock + 1 := hclock
      refine wp_ask (fun ok hok => ?_) fun e hok => ?_
      · rw [hclock'] at hok
        simp only [hok]
        exact ⟨rfl, ⟨[], ha₂.congr rfl rfl rfl, rfl⟩, s₁,
          hs₂.congr rfl rfl⟩
      · rw [hclock'] at hok
        simp only [hok]
        exact ⟨rfl, ⟨[], ha₂.congr rfl rfl rfl, rfl⟩, s₁,
          hs₂.congr rfl rfl⟩
    · simp only [hsig]
      exact ⟨rfl, ⟨[(rnd, b)], ha₁.congr rfl rfl rfl, rfl⟩, s₁,
        hs₁.congr rfl rfl⟩
  · intro e w₁ hpost
    obtain ⟨hd, hs₁, ha₁⟩ := hpost
    rw [hd]
    exact ⟨rfl, ⟨[], ha₁, rfl⟩, s, hs₁⟩

/-- The frame of both pairwise tests adds nothing to the account: it turns
what its body throws into a fatal error, and holds no secret itself. -/
theorem tested_pct {publicKey secretKey : Bytes} {body : Proc Bool}
    {message : JsString} {test : Bool × List Bytes}
    (hbody : Eff.wp body (Tested w₀ left test)
      (fun _ => Tested w₀ left test false)
      { w with trace := w.trace ++ [.pct publicKey secretKey] }) :
    Eff.wp (do
        emit (.pct publicKey secretKey)
        let ok ← tryCatch body pctCaught
        if ok then emit .pctPassed else fatal message)
      (fun _ => Tested w₀ left test true)
      (fun _ => Tested w₀ left test false) w := by
  have hfail : ∀ w', Tested w₀ left test false w' →
      Eff.wp (fatal message : Proc Unit)
        (fun _ => Tested w₀ left test true)
        (fun _ => Tested w₀ left test false) w' := fun w' ht =>
    ht.congr rfl rfl rfl
  rw [Eff.wp_bind, wp_emit, Eff.wp_bind, Eff.wp_tryCatch]
  refine Eff.wp_mono hbody ?_ ?_
  · intro ok w₁ ht
    cases ok with
    | false => exact hfail w₁ ht
    | true => exact ht.congr rfl rfl rfl
  · intro e w₁ ht
    unfold pctCaught
    rw [Eff.wp_ite]
    exact ⟨fun _ => ht, fun _ => hfail w₁ ht⟩

/-- The test returns where `kemTest` says yes, and throws where it says no,
with the same left over. -/
theorem tested_pctKem (hh : env.hmac = Hmac.ofFunction h) (hs : Holds w s)
    (ha : Acct w₀ w left) (kem : KemSet) (kp : KeyPair) :
    Eff.wp (pctKem env kem kp.publicKey kp.secretKey)
      (fun _ => Tested w₀ left (kemTest h env kem kp w.clock s) true)
      (fun _ => Tested w₀ left (kemTest h env kem kp w.clock s) false) w :=
  tested_pct (tested_pctKemBody
    (w := { w with trace := w.trace ++ [.pct kp.publicKey kp.secretKey] })
    hh (hs.congr rfl rfl) (ha.congr rfl rfl rfl) kem kp)

/-- The same of `dsaTest`. -/
theorem tested_pctDsa (hh : env.hmac = Hmac.ofFunction h) (hs : Holds w s)
    (ha : Acct w₀ w left) (dsa : DsaSet) (kp : KeyPair) :
    Eff.wp (pctDsa env dsa kp.publicKey kp.secretKey)
      (fun _ => Tested w₀ left (dsaTest h env dsa kp w.clock s) true)
      (fun _ => Tested w₀ left (dsaTest h env dsa kp w.clock s) false) w :=
  tested_pct (tested_pctDsaBody
    (w := { w with trace := w.trace ++ [.pct kp.publicKey kp.secretKey] })
    hh (hs.congr rfl rfl) (ha.congr rfl rfl rfl) dsa kp)

-- ========================================================= generation

/-- What generating a key pair leaves, given what it drew: the seed when
the key generation or the pairwise test fails, and what the test left. -/
def keypairLeavings (keygen : Nat → Bytes → Except JsError KeyPair)
    (test : KeyPair → Nat → WorkingState → Bool × List Bytes) :
    Option (Bytes × Nat × WorkingState) → List Bytes
  | none => []
  | some (seed, t, s) =>
      match keygen t seed with
      | .error _ => [seed]
      | .ok kp =>
          match test kp (t + 1) s with
          | (true, _) => []
          | (false, more) => more ++ [seed]

/-- What a service call leaves behind, from the environment's answers,
the time and the working state it finds. -/
def leavings (h : Bytes → Bytes → Mac) (env : Env) (r : Request)
    (t : Nat) (s : WorkingState) : List Bytes :=
  match r with
  | .generateKeypair alg =>
      match entryOf KEM alg, entryOf DSA alg with
      | some kem, _ =>
          keypairLeavings (fun t b => env.kemKeygen t kem b)
            (kemTest h env kem) (draw h env 64 t s)
      | none, some dsa =>
          keypairLeavings (fun t b => env.dsaKeygen t dsa b)
            (dsaTest h env dsa) (draw h env 32 t s)
      | none, none => []
  | _ => []

/-- The buffer an output hands to the caller. -/
def Output.seed? : Output → Option Nat
  | keyPair _ _ _ seed => seed
  | _ => none

/-- A service returned: all it recorded is zero but what it returns, and
its leavings are empty. -/
def Returned (w₀ : World) (leavings : List Bytes) (o : Output)
    (w : World) : Prop :=
  leavings = [] ∧ (∃ left, Acct w₀ w left
    ∧ ∀ q ∈ left, o.seed? = some q.1) ∧ ∃ s, Holds w s

/-- A service threw: all it recorded is zero but its leavings. -/
def Threw (w₀ : World) (leavings : List Bytes) (w : World) : Prop :=
  (∃ left, Acct w₀ w left ∧ left.map (·.2) = leavings)
    ∧ ∃ s, Holds w s

/-- The steps of `generateKeypair` after its checks: the seed is drawn, the
pair derived and tested. Where one of the last two throws the seed is left,
and where both pass it is what the caller is given. -/
private theorem wp_keypair (hh : env.hmac = Hmac.ofFunction h)
    (hs : Holds w s) (ha : Acct w₀ w []) (n : Nat) (h1 : 1 ≤ n)
    (hmax : n ≤ maxBytesPerRequest)
    (keygen : Nat → Bytes → Except JsError KeyPair)
    (test : KeyPair → Nat → WorkingState → Bool × List Bytes)
    (pct : KeyPair → Proc Unit) (name : JsString)
    (hpassed : ∀ kp t s, (test kp t s).1 = true → (test kp t s).2 = [])
    (hpct : ∀ kp w s left, Holds w s → Acct w₀ w left →
      Eff.wp (pct kp) (fun _ => Tested w₀ left (test kp w.clock s) true)
        (fun _ => Tested w₀ left (test kp w.clock s) false) w) :
    Eff.wp (do
        let seed ← random env n
        let seedBytes ← contents seed
        let kp ← ask fun t => keygen t seedBytes
        pct kp
        return Output.keyPair name kp.publicKey kp.secretKey (some seed))
      (Returned w₀ (keypairLeavings keygen test (draw h env n w.clock s)))
      (fun _ => Threw w₀
        (keypairLeavings keygen test (draw h env n w.clock s))) w := by
  simp only [Eff.wp_bind, wp_contents, Eff.wp_pure]
  refine Eff.wp_mono (wp_random hh hs ha h1 hmax) ?_ ?_
  · intro seed w₁ hpost
    obtain ⟨b, s₁, hd, hs₁, ha₁, -⟩ := hpost
    simp only [hd, keypairLeavings, (ha₁.of_mem List.mem_cons_self).1]
    refine wp_ask (fun kp hkp => ?_) fun e hkp => ?_
    · simp only [hkp]
      refine Eff.wp_mono (hpct kp { w₁ with clock := w₁.clock + 1 } s₁ _
        (hs₁.congr rfl rfl) (ha₁.congr rfl rfl rfl)) ?_ ?_
      · intro _ w₂ hpost
        obtain ⟨hok, ⟨more, ha₂, hmore⟩, s₂, hs₂⟩ := hpost
        have hok : (test kp (w₁.clock + 1) s₁).1 = true := hok
        have hnil := hmore.trans (hpassed _ _ _ hok)
        rw [List.map_eq_nil_iff] at hnil
        subst hnil
        refine ⟨?_, ⟨_, ha₂, ?_⟩, s₂, hs₂⟩
        · rcases ht : test kp (w₁.clock + 1) s₁ with ⟨ok, l⟩
          rw [ht] at hok
          simp only at hok
          subst hok
          rfl
        · intro q hq
          rw [List.nil_append, List.mem_singleton] at hq
          subst hq
          rfl
      · intro e w₂ hpost
        obtain ⟨hok, ⟨more, ha₂, hmore⟩, s₂, hs₂⟩ := hpost
        have hok : (test kp (w₁.clock + 1) s₁).1 = false := hok
        have hmore : more.map (·.2) = (test kp (w₁.clock + 1) s₁).2 := hmore
        refine ⟨⟨_, ha₂, ?_⟩, s₂, hs₂⟩
        rcases ht : test kp (w₁.clock + 1) s₁ with ⟨ok, l⟩
        rw [ht] at hok hmore
        simp only at hok hmore
        subst hok
        rw [List.map_append, hmore]
        rfl
    · simp only [hkp]
      exact ⟨⟨_, ha₁.congr rfl rfl rfl, rfl⟩, s₁, hs₁.congr rfl rfl⟩
  · intro e w₁ hpost
    obtain ⟨hd, hs₁, ha₁⟩ := hpost
    rw [hd]
    exact ⟨⟨_, ha₁, rfl⟩, s, hs₁⟩

-- =========================================================== services

variable {rt : Runtime}

/-- **What generating a pair leaves over** is `leavings` of it, whether it
returns or throws. -/
theorem acct_generateKeypair (hh : env.hmac = Hmac.ofFunction h)
    (hs : Holds w s) (alg : JsVal) :
    Eff.wp (generateKeypair rt env alg)
      (Returned w (leavings h env (.generateKeypair alg) w.clock s))
      (fun _ => Threw w (leavings h env (.generateKeypair alg) w.clock s))
      w := by
  unfold generateKeypair leavings
  rw [Eff.wp_bind]
  cases ho : requireOffered rt alg with
  | error e =>
      obtain ⟨hk, hd⟩ := entryOf_of_requireOffered_error rt ho
      simp only [hk, hd]
      exact ⟨⟨[], Acct.refl w, rfl⟩, s, hs⟩
  | ok name =>
      rw [Eff.wp_ofExcept_ok]
      cases hk : entryOf KEM alg with
      | some kem =>
          simp only [hk]
          exact wp_keypair hh hs (Acct.refl w) 64 (by decide) (by decide)
            (fun t b => env.kemKeygen t kem b) (kemTest h env kem)
            (fun kp => pctKem env kem kp.publicKey kp.secretKey) name
            (fun _ _ _ => kemTest_passed)
            fun kp _ _ _ hs₁ ha₁ => tested_pctKem hh hs₁ ha₁ kem kp
      | none =>
          simp only [hk]
          rw [Eff.wp_bind]
          cases hd : dsaOf rt alg with
          | error e =>
              simp only [entryOf_of_dsaOf_error hd]
              exact ⟨⟨[], Acct.refl w, rfl⟩, s, hs⟩
          | ok dsa =>
              rw [Eff.wp_ofExcept_ok, entryOf_of_dsaOf hd]
              exact wp_keypair hh hs (Acct.refl w) 32 (by decide)
                (by decide) (fun t b => env.dsaKeygen t dsa b)
                (dsaTest h env dsa)
                (fun kp => pctDsa env dsa kp.publicKey kp.secretKey) name
                (fun _ _ _ => dsaTest_passed)
                fun kp _ _ _ hs₁ ha₁ => tested_pctDsa hh hs₁ ha₁ dsa kp

/-- A procedure that leaves memory as it is. -/
def Idle {α : Type} (p : Proc α) : Prop :=
  ∀ w, Eff.wp p (fun _ w' => ∃ t, w' = { w with clock := t })
    (fun _ w' => ∃ t, w' = { w with clock := t }) w

namespace Idle

variable {α β : Type}

/-- An idle procedure moves the clock only; returning does not even do
that. -/
theorem pure (a : α) : Idle (pure a : Proc α) := fun w => ⟨w.clock, rfl⟩

/-- A question to the environment moves the clock on by one. -/
theorem ask (f : Nat → Except JsError α) : Idle (ask f) := fun _ =>
  wp_ask (fun _ _ => ⟨_, rfl⟩) fun _ _ => ⟨_, rfl⟩

/-- A value or a throw from outside is idle. -/
theorem ofExcept (r : Except JsError α) :
    Idle (Eff.ofExcept r : Proc α) := by
  cases r with
  | ok a => exact pure a
  | error e => exact fun w => ⟨w.clock, rfl⟩

/-- An idle procedure and what follows it are idle if each is. -/
theorem bind {p : Proc α} {f : α → Proc β} (hp : Idle p)
    (hf : ∀ a, Idle (f a)) : Idle (p >>= f) := by
  intro w
  rw [Eff.wp_bind]
  refine Eff.wp_mono (hp w) ?_ fun _ _ h => h
  intro a w₁ hpost
  obtain ⟨t, rfl⟩ := hpost
  exact hf a _

/-- Catching a throw of an idle procedure, and returning instead, is
idle. -/
theorem orElse {p : Proc α} (hp : Idle p) (a : α) :
    Idle (tryCatch p fun _ => Pure.pure a) := by
  intro w
  rw [Eff.wp_tryCatch]
  exact Eff.wp_mono (hp w) (fun _ _ h => h) fun _ _ h => h

/-- An idle service records nothing and leaves nothing. -/
theorem outcome {p : Proc Output} (hp : Idle p) (hs : Holds w s) :
    Eff.wp p (Returned w []) (fun _ => Threw w []) w := by
  refine Eff.wp_mono (hp w) ?_ ?_
  · intro o w' hpost
    obtain ⟨t, rfl⟩ := hpost
    exact ⟨rfl, ⟨[], (Acct.refl w).congr rfl rfl rfl,
      fun _ hq => (nomatch hq)⟩, s, hs.congr rfl rfl⟩
  · intro e w' hpost
    obtain ⟨t, rfl⟩ := hpost
    exact ⟨⟨[], (Acct.refl w).congr rfl rfl rfl, rfl⟩, s,
      hs.congr rfl rfl⟩

end Idle

/-- What is made of questions and checks is idle. -/
theorem idle_asks : Asks @Idle where
  ofExcept := .ofExcept
  askOr f a := (Idle.ask f).orElse a
  ask := .ask
  pure := .pure
  bind := .bind

/-- Randomness drawn for one question and wiped on both paths: the wipe
stands in a `finally`, so even what throws leaves nothing. -/
private theorem wp_drawn (hh : env.hmac = Hmac.ofFunction h)
    (hs : Holds w s) (ha : Acct w w []) {f : Bytes → Proc Output}
    (hf : ∀ b, Idle (f b)) :
    Eff.wp (do
        let l ← random env 32
        Eff.tryFinally (do
          let b ← contents l
          f b) (fillZero l))
      (Returned w []) (fun _ => Threw w []) w := by
  rw [Eff.wp_bind]
  refine Eff.wp_mono (wp_random hh hs ha (by decide) (by decide)) ?_ ?_
  · intro l w₁ hpost
    obtain ⟨b, s₁, -, hs₁, ha₁, hnew⟩ := hpost
    rw [Eff.wp_tryFinally, Eff.wp_bind, wp_contents]
    have hwipe : ∀ t, Eff.wp (fillZero l)
        (fun _ w' => Holds w' s₁ ∧ Acct w w' [] ∧ w'.clock = t)
        (fun _ _ => False) { w₁ with clock := t } := fun t =>
      acct_fillZero (w := { w₁ with clock := t }) (hs₁.congr rfl rfl)
        (ha₁.congr rfl rfl rfl) (List.Perm.refl _) hnew
    refine Eff.wp_mono (hf _ w₁) ?_ ?_
    · intro o w₂ hpost
      obtain ⟨t, rfl⟩ := hpost
      refine Eff.wp_mono (hwipe t) ?_ fun _ _ hf => hf.elim
      intro _ w₃ hpost
      obtain ⟨hs₃, ha₃, -⟩ := hpost
      exact ⟨rfl, ⟨[], ha₃, fun _ hq => (nomatch hq)⟩, s₁, hs₃⟩
    · intro e w₂ hpost
      obtain ⟨t, rfl⟩ := hpost
      refine Eff.wp_mono (hwipe t) ?_ fun _ _ hf => hf.elim
      intro _ w₃ hpost
      obtain ⟨hs₃, ha₃, -⟩ := hpost
      exact ⟨⟨[], ha₃, rfl⟩, s₁, hs₃⟩
  · intro e w₁ hpost
    obtain ⟨-, hs₁, ha₁⟩ := hpost
    exact ⟨⟨[], ha₁, rfl⟩, s, hs₁⟩

/-- An argument check before a service's steps. -/
private theorem wp_check {α : Type} {f : α → Proc Output}
    (r : Except JsError α) (hs : Holds w s)
    (hf : ∀ a, Eff.wp (f a) (Returned w []) (fun _ => Threw w []) w) :
    Eff.wp (Eff.ofExcept r >>= f) (Returned w []) (fun _ => Threw w [])
      w := by
  rw [Eff.wp_bind]
  cases r with
  | ok a => exact hf a
  | error e => exact ⟨⟨[], Acct.refl w, rfl⟩, s, hs⟩

/-- Encapsulation leaves nothing over, whether it returns or throws. -/
theorem acct_encapsulate (hh : env.hmac = Hmac.ofFunction h)
    (hs : Holds w s) (alg publicKey : JsVal) :
    Eff.wp (encapsulate rt env alg publicKey) (Returned w [])
      (fun _ => Threw w []) w :=
  wp_check _ hs fun kem => wp_check _ hs fun pk =>
    wp_drawn hh hs (Acct.refl w) fun b =>
      .bind (.ask fun t => env.encapsulate t kem pk b) fun _ => .pure _

/-- Nor does signing. -/
theorem acct_sign (hh : env.hmac = Hmac.ofFunction h) (hs : Holds w s)
    (alg secretKey message opts : JsVal) :
    Eff.wp (sign rt env alg secretKey message opts) (Returned w [])
      (fun _ => Threw w []) w :=
  wp_check _ hs fun dsa => wp_check _ hs fun sk =>
  wp_check _ hs fun ctx => wp_check _ hs fun msg =>
    wp_drawn hh hs (Acct.refl w) fun b =>
      .bind (.ask fun t => env.sign t dsa msg sk (some ctx) b) fun _ =>
        .pure _

/-- What a service call leaves is its leavings, by one case for each
request. A call that returns has none, apart from the seed that it
returns. -/
theorem acct_service (hh : env.hmac = Hmac.ofFunction h) (hs : Holds w s)
    {r : Request} {p : Proc Output} (hr : r.service? rt env = some p) :
    Eff.wp p (Returned w (leavings h env r w.clock s))
      (fun _ => Threw w (leavings h env r w.clock s)) w := by
  cases r with
  | generateKeypair alg =>
      cases hr
      exact acct_generateKeypair hh hs alg
  | keypairFromSeed alg seed =>
      cases hr
      exact (idle_asks.keypairFromSeed rt env alg seed).outcome hs
  | encapsulate alg publicKey =>
      cases hr
      exact acct_encapsulate hh hs alg publicKey
  | decapsulate alg cipherText secretKey =>
      cases hr
      exact (idle_asks.decapsulate rt env alg cipherText secretKey).outcome hs
  | sign alg secretKey message opts =>
      cases hr
      exact acct_sign hh hs alg secretKey message opts
  | verify alg publicKey message signature opts =>
      cases hr
      exact (idle_asks.verify rt env alg publicKey message signature
        opts).outcome hs
  | selfTest => cases hr
  | status => cases hr

-- =========================================================== start-up

/-- The algorithm self-tests made from that time on pass. -/
def castsPass (env : Env) (t : Nat) : Bool :=
  (env.cast t .sha512).isOk && (env.cast (t + 1) .hmac).isOk
    && (env.cast (t + 2) .drbg).isOk && (env.cast (t + 3) .mlKem).isOk
    && (env.cast (t + 4) .mlDsa).isOk

/-- What `start` leaves: the entropy input, when the read of the nonce
throws. -/
def startLeavings (env : Env) (t : Nat) : List Bytes :=
  if castsPass env t then
    match env.getEntropy (t + 5) entropyBytes,
        env.getEntropy (t + 6) nonceBytes with
    | .ok e, .error _ => [e.1]
    | _, _ => []
  else []

/-- What has returned is a success. -/
private theorem isOk_of_ok {α : Type} {r : Except JsError α} {a : α}
    (hr : r = .ok a) : r.isOk = true := by
  rw [hr]
  rfl

/-- What has thrown is not. -/
private theorem isOk_of_error {α : Type} {r : Except JsError α}
    {e : JsError} (hr : r = .error e) : r.isOk = false := by
  rw [hr]
  rfl

/-- The self-tests touch no memory and take five questions, so they leave
the account as they find it and only the clock goes on. -/
private theorem wp_casts (w : World) :
    Eff.wp (runAlgorithmCasts env)
      (fun _ w' => castsPass env w.clock = true
        ∧ ∃ tr, w' = { w with clock := w.clock + 5, trace := tr })
      (fun _ w' => castsPass env w.clock = false
        ∧ ∃ t tr, w' = { w with clock := t, trace := tr }) w := by
  unfold runAlgorithmCasts cast castsPass
  simp only [Eff.wp_bind]
  refine wp_askLogged (fun _ h₁ => ?_) fun _ h₁ =>
    ⟨by simp [isOk_of_error h₁], _, _, rfl⟩
  refine wp_askLogged (fun _ h₂ => ?_) fun _ h₂ =>
    ⟨by simp [isOk_of_error h₂], _, _, rfl⟩
  refine wp_askLogged (fun _ h₃ => ?_) fun _ h₃ =>
    ⟨by simp [isOk_of_error h₃], _, _, rfl⟩
  refine wp_askLogged (fun _ h₄ => ?_) fun _ h₄ =>
    ⟨by simp [isOk_of_error h₄], _, _, rfl⟩
  refine wp_askLogged (fun _ h₅ => ?_) fun _ h₅ =>
    ⟨by simp [isOk_of_error h₅], _, _, rfl⟩
  refine ⟨?_, _, rfl⟩
  rw [isOk_of_ok h₁, isOk_of_ok h₂, isOk_of_ok h₃, isOk_of_ok h₄,
    isOk_of_ok h₅]
  rfl

/-- What the seeding of `start` leaves. -/
def seedingLeavings (env : Env) (t : Nat) : List Bytes :=
  match env.getEntropy t entropyBytes,
      env.getEntropy (t + 1) nonceBytes with
  | .ok e, .error _ => [e.1]
  | _, _ => []

/-- What start-up may leave over is left by the seeding, which comes behind
the known-answer tests. -/
theorem startLeavings_eq (env : Env) (t : Nat) :
    startLeavings env t
      = if castsPass env t then seedingLeavings env (t + 5) else [] := rfl

/-- A new instance holds nothing. -/
private theorem not_isHeld_new {w : World} (hd : w.drbg = {}) (l : Nat) :
    ¬IsHeld w l := by
  intro hl
  rcases hl with hl | hl
  · rw [hd] at hl
    cases hl
  · rw [hd] at hl
    cases hl

/-- The seeding of a new instance wipes both reads at its end. If the read
of the nonce throws, the entropy input is in memory still, and that is what
is left. -/
theorem acct_instantiateDrbg (hh : env.hmac = Hmac.ofFunction h)
    (ha : Acct w₀ w []) (hd : w.drbg = {}) :
    Eff.wp (instantiateDrbg env)
      (fun _ w' => seedingLeavings env w.clock = [] ∧ Acct w₀ w' []
        ∧ ∃ s, Holds w' s)
      (fun _ w' => ∃ left, Acct w₀ w' left
        ∧ left.map (·.2) = seedingLeavings env w.clock) w := by
  unfold instantiateDrbg seedingLeavings
  simp only [Eff.wp_bind, wp_contents]
  refine wp_getEntropy ha (fun l hl => absurd hl (not_isHeld_new hd l)) ?_ ?_
  swap
  · intro e w₁ he ha₁ _ _
    rw [he]
    exact ⟨[], ha₁, rfl⟩
  intro e w₁ he ha₁ _ hd₁ hclock
  rw [he]
  refine wp_getEntropy ha₁
    (fun l hl => absurd hl (not_isHeld_new (hd₁.trans hd) l)) ?_ ?_
  swap
  · intro err w₂ hn ha₂ _ _
    rw [hclock] at hn
    rw [hn]
    exact ⟨_, ha₂, rfl⟩
  intro n w₂ hn ha₂ _ _ _
  rw [hclock] at hn
  rw [hn]
  -- what the two buffers hold when the generator reads them
  have hread : w₂.heap.read w.heap.size = e.1 :=
    (ha₂.of_mem (List.mem_cons_of_mem _ List.mem_cons_self)).1
  have hread' : w₂.heap.read w₁.heap.size = n.1 :=
    (ha₂.of_mem List.mem_cons_self).1
  have hne : w.heap.size ≠ w₁.heap.size :=
    Nat.ne_of_lt (ha₁.of_mem List.mem_cons_self).2.1
  rw [hread, hread', hh]
  refine Eff.wp_mono (wp_instantiate w₂ (p := some (.bytes _))
    (ByteArg.content?_bytes e.1) (ByteArg.content?_bytes n.1) rfl
    (by rw [e.2]; decide) (by rw [n.2]; decide)) ?_
    fun _ _ (hf : False) => hf.elim
  intro _ w₃ hpost
  obtain ⟨hs₃, hk₃, -⟩ := hpost
  refine Eff.wp_mono (acct_fillZero hs₃ (ha₂.kept hk₃)
    (List.Perm.swap _ _ _) ?_) ?_ fun _ _ (hf : False) => hf.elim
  · intro q hq
    rw [List.mem_singleton] at hq
    subst hq
    exact Ne.symm hne
  intro _ w₄ hpost
  obtain ⟨hs₄, ha₄, -⟩ := hpost
  refine Eff.wp_mono (acct_fillZero hs₄ ha₄ (List.Perm.refl _)
    fun _ hq => nomatch hq) ?_ fun _ _ (hf : False) => hf.elim
  intro _ w₅ hpost
  obtain ⟨hs₅, ha₅, -⟩ := hpost
  exact ⟨rfl, ha₅, _, hs₅⟩

/-- **What start-up leaves over**: nothing where it returns, and what
`startLeavings` says where it throws. -/
theorem acct_start (hh : env.hmac = Hmac.ofFunction h) (w : World) :
    Eff.wp (start env)
      (fun _ w' => startLeavings env w.clock = [] ∧ Acct w w' []
        ∧ ∃ s, Holds w' s)
      (fun _ w' => ∃ left, Acct w w' left
        ∧ left.map (·.2) = startLeavings env w.clock) w := by
  unfold start
  rw [startLeavings_eq]
  simp only [Eff.wp_bind, Eff.wp_modify, Eff.wp_tryCatch, wp_emit]
  refine Eff.wp_mono (wp_casts w) ?_ ?_
  · intro _ w₁ hpost
    obtain ⟨hc, tr, rfl⟩ := hpost
    rw [if_pos hc]
    -- nothing is recorded yet
    have ha : Acct w (HmacDrbg.create
        { w with clock := w.clock + 5, trace := tr }) [] :=
      ⟨[], (List.append_nil _).symm, fun _ hp => (nomatch hp),
        fun _ hq => (nomatch hq)⟩
    refine Eff.wp_mono (acct_instantiateDrbg hh ha rfl) ?_ ?_
    · intro _ w₂ hpost
      obtain ⟨hnil, ha₂, s, hs⟩ := hpost
      exact ⟨hnil, ha₂.congr rfl rfl rfl, s, hs.congr rfl rfl⟩
    · intro err w₂ hpost
      obtain ⟨left, ha₂, hleft⟩ := hpost
      exact ⟨left, ha₂.congr rfl rfl rfl, hleft⟩
  · intro e w₁ hpost
    obtain ⟨hc, t, tr, rfl⟩ := hpost
    rw [hc]
    exact ⟨[], (Acct.refl w).congr rfl rfl rfl, rfl⟩

-- ============================================================== calls

/-- Every buffer recorded between the two worlds, read from the entropy
device, drawn from `random` or compared in a pairwise test, contains only
zeros, unless it is the one returned. -/
def Zeroised (returned : Option Nat) (w w' : World) : Prop :=
  ∀ p ∈ w'.marks.drop w.marks.length, p.1 ≠ .drbgState →
    returned ≠ some p.2 → AllZero (w'.heap.read p.2)

instance (returned : Option Nat) (w w' : World) :
    Decidable (Zeroised returned w w') :=
  inferInstanceAs (Decidable (∀ p ∈ _, _))

/-- The seed a call returns to its caller, if it does. -/
def returnedSeed : Except JsError Output → Option Nat
  | .ok o => o.seed?
  | .error _ => none

/-- What is not zero and not returned is among what is left, so whether a
call has zeroised is read off the account. -/
theorem Acct.zeroised (ha : Acct w w' left) (returned : Option Nat) :
    Zeroised returned w w'
      ↔ ∀ q ∈ left, returned ≠ some q.1 → AllZero q.2 := by
  obtain ⟨ms, he, hms, hleft⟩ := ha.marks
  unfold Zeroised
  rw [he, List.drop_left]
  constructor
  · intro hz q hq hret
    obtain ⟨hread, m, hm, hmem⟩ := hleft q hq
    rw [← hread]
    exact hz _ hmem hm hret
  · intro hz p hp hne hret
    rcases (hms p hp hne).2.2 with h0 | ⟨b, hb⟩
    · exact h0
    · rw [(hleft _ hb).1]
      exact hz _ hb hret

/-- The world after a sequence of service calls. -/
def served (rt : Runtime) (env : Env) (requests : List Request)
    (w : World) : World :=
  requests.foldl (fun w r =>
    match r.service? rt env with
    | some p => (p.run w).2
    | none => w) w

/-- Every service call leaves the DRBG with a working state, whether it
returns or throws; so each finds one. By induction over the calls. -/
theorem holds_served (hh : env.hmac = Hmac.ofFunction h)
    (requests : List Request) (hs : ∃ s, Holds w s) :
    ∃ s, Holds (served rt env requests w) s := by
  induction requests generalizing w with
  | nil => exact hs
  | cons r rs ih =>
      refine ih ?_
      cases hr : r.service? rt env with
      | none =>
          simp only [hr]
          exact hs
      | some p =>
          simp only [hr]
          obtain ⟨s, hs⟩ := hs
          refine Eff.run_of_wp (P := fun _ w' => ∃ s, Holds w' s) ?_
          exact Eff.wp_mono (acct_service hh hs hr) (fun _ _ h => h.2.2)
            fun _ _ h => h.2

/-- The module with a total HMAC. -/
def Env.withHmac (env : Env) (h : Bytes → Bytes → Mac) : Env :=
  { env with hmac := Hmac.ofFunction h }

/-- **Zeroisation**, of `start` from any world and of a service call after
any others: each zeroises its temporaries exactly when its leavings are
all zero. -/
theorem zeroised_iff (h : Bytes → Bytes → Mac) (env : Env) (rt : Runtime)
    (w₀ : World) (past : List Request) :
    let env := env.withHmac h
    let started := (start env).run w₀
    (Zeroised none w₀ started.2
        ↔ ∀ b ∈ startLeavings env w₀.clock, AllZero b)
      ∧ (started.1 = .ok () → ∀ r p, r.service? rt env = some p →
        let w := served rt env past started.2
        ∃ s, workingState w = some s
          ∧ (Zeroised (returnedSeed (p.run w).1) w (p.run w).2
            ↔ ∀ b ∈ leavings h env r w.clock s, AllZero b)) := by
  intro env started
  have hh : env.hmac = Hmac.ofFunction h := rfl
  have hstart := acct_start hh w₀
  constructor
  · refine Eff.run_of_wp (P := fun _ w' => Zeroised none w₀ w'
      ↔ ∀ b ∈ startLeavings env w₀.clock, AllZero b) ?_
    refine Eff.wp_mono hstart ?_ ?_
    · intro _ w' hpost
      obtain ⟨hnil, ha, -⟩ := hpost
      rw [ha.zeroised, hnil]
      exact ⟨fun _ _ hb => (nomatch hb), fun _ _ hq => (nomatch hq)⟩
    · intro e w' hpost
      obtain ⟨left, ha, hleft⟩ := hpost
      rw [ha.zeroised, ← hleft, List.forall_mem_map]
      exact ⟨fun hz q hq => hz q hq (by simp), fun hz q hq _ => hz q hq⟩
  · intro hok r p hr w
    have hholds : ∃ s, Holds started.2 s := by
      have hrun : (start env).run w₀ = (.ok (), started.2) :=
        Prod.ext hok rfl
      rw [Eff.wp_of_ok hrun] at hstart
      exact hstart.2.2
    obtain ⟨s, hs⟩ := @holds_served h env _ rt hh past hholds
    refine ⟨s, SameState.workingState_eq (o := some s) hs, ?_⟩
    refine Eff.run_of_wp (P := fun res w' =>
      Zeroised (returnedSeed res) w w'
        ↔ ∀ b ∈ leavings h env r w.clock s, AllZero b) ?_
    refine Eff.wp_mono (acct_service hh hs hr) ?_ ?_
    · intro o w' hpost
      obtain ⟨hnil, ⟨left, ha, hleft⟩, -⟩ := hpost
      rw [ha.zeroised, hnil]
      exact ⟨fun _ _ hb => (nomatch hb),
        fun _ q hq hret => absurd (hleft q hq) hret⟩
    · intro e w' hpost
      obtain ⟨⟨left, ha, hleft⟩, -⟩ := hpost
      rw [ha.zeroised, ← hleft, List.forall_mem_map]
      exact ⟨fun hz q hq => hz q hq (by simp [returnedSeed]),
        fun hz q hq _ => hz q hq⟩

-- ==================================================== failing inputs

/-- An environment in which everything succeeds. -/
def fairEnv : Env where
  fileUrl := true
  importModule _ := .ok ()
  cast _ _ := .ok ()
  integrityTest _ := .ok (.object [] [])
  getEntropy _ n := .ok ⟨List.replicate n 7, List.length_replicate⟩
  hmac := Hmac.ofFunction fun _ _ => ⟨List.replicate outlen 7, rfl⟩
  kemKeygen _ _ _ := .ok ⟨[8], [2]⟩
  encapsulate _ _ _ _ := .ok ⟨[3], [4]⟩
  decapsulate _ _ _ _ := .ok [4]
  dsaKeygen _ _ _ := .ok ⟨[5], [6]⟩
  sign _ _ _ _ _ _ := .ok [7]
  verify _ _ _ _ _ _ := .ok true

example : (booted fairEnv).state = .operational := by decide +kernel

/-- The second entropy read, the nonce's, throws. -/
def nonceFails : Env :=
  { fairEnv with
    getEntropy := fun t n =>
      if t = 6 then .error (error (js "no data"))
      else .ok ⟨List.replicate n 7, List.length_replicate⟩ }

/-- Encapsulation throws. -/
def encapsulateFails : Env :=
  { fairEnv with
    encapsulate := fun _ _ _ _ => .error (error (js "bad key")) }

/-- `start` leaves the entropy input when the nonce cannot be read, and
`generateKeypair` the seed and the randomness of the pairwise test when
encapsulation throws. -/
theorem temporaries_survive :
    ¬Zeroised none {} ((start nonceFails).run {}).2
      ∧ let w := ((start encapsulateFails).run {}).2
        let call := (generateKeypair plainRuntime encapsulateFails
          (.string (js "ML-KEM-768"))).run w
        ¬Zeroised (returnedSeed call.1) w call.2 := by
  decide +kernel

end KxcoPostQuantum.Fips
