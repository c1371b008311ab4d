/-
The live responder and the offline runner.

Both dispatch a test case to a primitive, each with its own `signerFor`.
They pass the same options but in one place: on the internal interface
the responder always passes `externalMu`, and the runner only to a group
that carries the field. A primitive that takes the option for what it is,
or refuses it, then sees two different calls.

# How the proof goes

What the runner computes for a case is what it would pass as the expected
result (`Computes`). A case on which the two call the primitive alike is
answered with that, or by neither (`Same`), and a group of such cases
agrees (`agree_group`). Where the option is not given, a primitive that
refuses it tells them apart (`refusing_disagrees`).
-/
import KxcoPostQuantum.Conformance.RunAcvp
import KxcoPostQuantum.Js.Members
import Mathlib.Tactic.MkIffOfInductiveProp

namespace KxcoPostQuantum.Conformance

-- ========================================================== statement

/-- The expected result has every field of an answer, with its value. -/
@[mk_iff] structure Answer.Covers (exp a : Answer) : Prop where
  ek : a.ek = none ∨ exp.ek = a.ek
  dk : a.dk = none ∨ exp.dk = a.dk
  pk : a.pk = none ∨ exp.pk = a.pk
  sk : a.sk = none ∨ exp.sk = a.sk
  c : a.c = none ∨ exp.c = a.c
  k : a.k = none ∨ exp.k = a.k
  signature : a.signature = none ∨ exp.signature = a.signature
  testPassed : a.testPassed = none ∨ exp.testPassed = a.testPassed

/-- The runner computes an answer for a case: it passes the case against
the expected results with that answer, and against no others. -/
def Computes (prim : Primitives) (mode : Mode) (g : TestGroup)
    (t : TestCase) (a : Answer) : Prop :=
  ∀ exp, RunAcvp.runner prim mode g t exp = .ok .passed ↔ exp.Covers a

/-- The parameter sets of a mode. -/
def Mode.table : Mode → List JsString
  | mlKemKeyGen | mlKemEncapDecap => KEM
  | mlDsaKeyGen | mlDsaSigGen | mlDsaSigVer => DSA
  | slhDsaKeyGen | slhDsaSigGen | slhDsaSigVer => SLH

/-- On a group the responder answers each case with what the runner
computes, and it answers if the runner computes something for every
case. -/
def Agree (prim : Primitives) (mode : Mode) (g : TestGroup) : Prop :=
  (∀ answers, Responders.responder prim mode g = .ok answers →
    List.Forall₂ (fun t r => r.1 = t.tcId ∧ Computes prim mode g t r.2)
      g.tests answers)
  ∧ (g.parameterSet ∈ mode.table →
    (∀ t ∈ g.tests, ∃ a, Computes prim mode g t a) →
    ∃ answers, Responders.responder prim mode g = .ok answers)

/-- SLH-DSA's internal surface throws on an `externalMu` option. -/
structure Primitives.Strict (prim : Primitives) : Prop where
  sign : ∀ set signer, (prim.slh set).internal = some signer →
    ∀ message secretKey opts, opts.externalMu.isSome →
      ∃ e, signer.sign message secretKey opts = .error e
  verify : ∀ set signer, (prim.slh set).internal = some signer →
    ∀ signature message publicKey opts, opts.externalMu.isSome →
      ∃ e, signer.verify signature message publicKey opts = .error e

/-- The modes that sign or verify. -/
def Mode.isSignature : Mode → Bool
  | mlDsaSigGen | mlDsaSigVer | slhDsaSigGen | slhDsaSigVer => true
  | _ => false

/-- A group on the internal interface carries `externalMu`. -/
def OptionGiven (mode : Mode) (g : TestGroup) : Prop :=
  mode.isSignature = true → g.isInternal = true → g.externalMu.isSome = true

-- ============================================================== cases

/-- An answered case is computed as it is answered, and an unanswered one
is passed against nothing. -/
structure Same (answer : Except JsError Answer)
    (grade : Answer → Except JsError RunAcvp.Verdict) : Prop where
  answered : ∀ a, answer = .ok a →
    ∀ exp, grade exp = .ok .passed ↔ exp.Covers a
  thrown : ∀ e, answer = .error e → ∀ exp, grade exp ≠ .ok .passed

/-- An answer covers itself. -/
theorem Answer.covers_self (a : Answer) : a.Covers a :=
  ⟨Or.inr rfl, Or.inr rfl, Or.inr rfl, Or.inr rfl, Or.inr rfl, Or.inr rfl,
    Or.inr rfl, Or.inr rfl⟩

section

variable {g : TestGroup} {t : TestCase}

/-- A signature is covered by an answer with the same signature. -/
theorem covers_signature {exp : Answer} {s : JsString} :
    exp.Covers { signature := some s } ↔ some s = exp.signature := by
  simp [Answer.covers_iff, eq_comm]

/-- A verdict is covered by an answer with the same verdict. -/
theorem covers_testPassed {exp : Answer} {b : Bool} :
    exp.Covers { testPassed := some b } ↔ some b = exp.testPassed := by
  simp [Answer.covers_iff, eq_comm]

/-- Where the option is given the two signing surfaces are one. The runner
passes `externalMu` only if the group has it, the responder always; an
internal group that lacks it is the one case in which they build different
options. -/
theorem signerFor_ok {alg : SignatureAlg}
    (hoption : g.isInternal = true → g.externalMu.isSome = true)
    {s : Signer × SignerOptions} :
    Responders.signerFor alg g t = .ok s
      ↔ RunAcvp.signerFor alg g t = .ok s := by
  unfold Responders.signerFor RunAcvp.signerFor
  split
  next hinternal =>
    rw [if_pos (hoption hinternal)]
    cases alg.internal with
    | none =>
        refine iff_of_false ?_ ?_
        · intro h
          cases h
        · intro h
          cases h
    | some signer => simp [pure, Except.pure]
  next =>
  split
  next =>
    cases (hashName g t).bind fun name => HASHES.lookup name with
    | none =>
        refine iff_of_false ?_ ?_
        · intro h
          cases h
        · intro h
          cases h
    | some hash =>
        simp only [bind_eq_ok, pure_eq_ok]
        cases alg.prehash hash <;> simp
  next => simp [pure, Except.pure]

/-- The signing surface of both, or of neither: an algorithm without the
surface that the group asks for is an error to the one and a skipped case to
the other. -/
theorem signerFor_cases {alg : SignatureAlg}
    (hoption : g.isInternal = true → g.externalMu.isSome = true) :
    (∃ s, Responders.signerFor alg g t = .ok s
      ∧ RunAcvp.signerFor alg g t = .ok s)
    ∨ ∃ e reason, Responders.signerFor alg g t = .error e
      ∧ RunAcvp.signerFor alg g t = .error reason := by
  cases hresponder : Responders.signerFor alg g t with
  | ok s => exact Or.inl ⟨s, rfl, (signerFor_ok hoption).mp hresponder⟩
  | error e =>
      cases hrunner : RunAcvp.signerFor alg g t with
      | error reason => exact Or.inr ⟨e, reason, rfl, rfl⟩
      | ok s =>
          rw [(signerFor_ok hoption).mpr hrunner] at hresponder
          cases hresponder

/-- An answer from a call that returned, graded against what the call
returned. -/
theorem same_returned {a : Answer}
    {grade : Answer → Except JsError RunAcvp.Verdict}
    (h : ∀ exp, grade exp = .ok .passed ↔ exp.Covers a) :
    Same (.ok a) grade where
  answered := by
    intro a' ha
    cases ha
    exact h
  thrown := by
    intro e he
    cases he

/-- A throw, graded as no pass. -/
theorem same_thrown {e : JsError}
    {grade : Answer → Except JsError RunAcvp.Verdict}
    (h : ∀ exp, grade exp ≠ .ok .passed) : Same (.error e) grade where
  answered := by
    intro a ha
    cases ha
  thrown := by
    intro e' _
    exact h

/-- Signing agrees if an internal group says whether `mu` is external. The
surface is chosen by `signerFor`, so this is `signerFor_ok` and then one
call. -/
theorem same_sigGen {rndField : JsString} {alg : SignatureAlg}
    (hoption : g.isInternal = true → g.externalMu.isSome = true) :
    Same (Responders.sigGen rndField alg g t)
      (RunAcvp.runSigGen rndField alg g t) := by
  unfold Responders.sigGen RunAcvp.runSigGen
  rcases @signerFor_cases g t alg hoption with
    ⟨⟨signer, extraOpts⟩, h, h'⟩ | ⟨e, reason, h, h'⟩
  · simp only [h, h']
    change Same (signer.sign _ _ _ >>= _) _
    cases signer.sign (messageOf g t) (bytes (t.get (js "sk")))
        (withEntropy g t rndField (withContext g t extraOpts)) with
    | error e =>
        apply same_thrown
        intro exp hexp
        cases hexp
    | ok sig =>
        apply same_returned
        intro exp
        rw [covers_signature, Except.ok.injEq]
        split <;> simp_all
  · simp only [h, h']
    apply same_thrown
    intro exp hexp
    cases hexp

/-- Verifying agrees under the same condition. A primitive that throws
counts as a signature that does not verify, to the one program as to the
other. -/
theorem same_sigVer {alg : SignatureAlg}
    (hoption : g.isInternal = true → g.externalMu.isSome = true) :
    Same (Responders.sigVer alg g t) (RunAcvp.runSigVer alg g t) := by
  unfold Responders.sigVer RunAcvp.runSigVer
  rcases @signerFor_cases g t alg hoption with
    ⟨⟨signer, extraOpts⟩, h, h'⟩ | ⟨e, reason, h, h'⟩
  · simp only [h, h']
    apply same_returned
    intro exp
    rw [covers_testPassed]
    cases signer.verify (bytes (t.get (js "signature"))) (messageOf g t)
        (bytes (t.get (js "pk"))) (withContext g t extraOpts) with
    | error e =>
        rw [Except.ok.injEq]
        split <;> simp_all
    | ok b =>
        rw [Except.ok.injEq]
        split <;> simp_all
  · simp only [h, h']
    apply same_thrown
    intro exp hexp
    cases hexp

/-- The two halves of a key, for a mode that names them `ek` and `dk` or
`pk` and `sk`. -/
theorem gradeKeys_passed {first second : JsString} {k : Keys}
    {exp exp' : Option JsString} :
    RunAcvp.gradeKeys first second k exp exp' = .passed
      ↔ some (hex k.publicKey) = exp ∧ some (hex k.secretKey) = exp' := by
  unfold RunAcvp.gradeKeys
  split
  next h => simp_all
  next h => split <;> simp_all

/-- Keys from one call of `keygen`, answered and graded under the same
names. -/
theorem same_keys {call : Except JsError Keys} {answer : Keys → Answer}
    {first second : JsString} {pick pick' : Answer → Option JsString}
    (h : ∀ k exp, exp.Covers (answer k)
      ↔ some (hex k.publicKey) = pick exp
        ∧ some (hex k.secretKey) = pick' exp) :
    Same (do return answer (← call)) fun exp => do
      return RunAcvp.gradeKeys first second (← call) (pick exp)
        (pick' exp) := by
  cases call with
  | error e =>
      apply same_thrown
      intro exp hexp
      cases hexp
  | ok k =>
      apply same_returned
      intro exp
      rw [h k exp, ← gradeKeys_passed]
      exact pure_eq_ok

/-- The key generation of ML-KEM agrees. -/
theorem same_mlKemKeyGen {alg : Kem} :
    Same (Responders.mlKemKeyGen alg g t)
      (RunAcvp.runMlKemKeyGen alg g t) := by
  apply same_keys
  intro k exp
  simp [Answer.covers_iff, eq_comm]

/-- That of ML-DSA agrees. -/
theorem same_mlDsaKeyGen {alg : SignatureAlg} :
    Same (Responders.mlDsaKeyGen alg g t)
      (RunAcvp.runMlDsaKeyGen alg g t) := by
  apply same_keys
  intro k exp
  simp [Answer.covers_iff, eq_comm]

/-- That of SLH-DSA agrees. -/
theorem same_slhDsaKeyGen {alg : SignatureAlg} :
    Same (Responders.slhDsaKeyGen alg g t)
      (RunAcvp.runSlhKeyGen alg g t) := by
  apply same_keys
  intro k exp
  simp [Answer.covers_iff, eq_comm]

/-- An input check answers with what it is graded by. -/
theorem gradeCheck_passed {α : Type} {call : Except JsError α}
    {exp : Answer} :
    RunAcvp.gradeCheck call exp = .passed
      ↔ exp.Covers (Responders.keyCheck call) := by
  unfold RunAcvp.gradeCheck Responders.keyCheck
  rw [covers_testPassed]
  cases call with
  | error e => simp
  | ok a => simp

/-- A graded call that throws is a failed case: the runner catches what
grading throws, and so agrees with an answer exactly as the call inside
does. -/
theorem same_caught {answer : Except JsError Answer}
    {grade : Answer → Except JsError RunAcvp.Verdict}
    (h : Same answer grade) :
    Same answer fun exp =>
      match grade exp with
      | .ok verdict => .ok verdict
      | .error err => .ok (RunAcvp.threw err) := by
  have hpassed : ∀ exp, (match grade exp with
      | .ok verdict => .ok verdict
      | .error err => .ok (RunAcvp.threw err) : Except JsError _)
        = .ok .passed ↔ grade exp = .ok .passed := by
    intro exp
    cases grade exp with
    | ok verdict => exact Iff.rfl
    | error err =>
        refine iff_of_false ?_ ?_
        · intro hthrew
          cases hthrew
        · intro hthrew
          cases hthrew
  constructor
  · intro a ha exp
    rw [hpassed, h.answered a ha]
  · intro e he exp
    exact mt (hpassed exp).mp (h.thrown e he exp)

/-- Encapsulation and decapsulation agree. Both programs tell four functions
apart, two that compute and two that check a key, and call one primitive
with the same bytes; what an error means, the runner says for all of them at
once. -/
theorem same_mlKemEncapDecap {alg : Kem} :
    Same (Responders.mlKemEncapDecap alg g t)
      (RunAcvp.runMlKemEncapDecap alg g t) := by
  apply same_caught
  unfold Responders.mlKemEncapDecap RunAcvp.encapDecap
  split
  next =>
    cases alg.encapsulate (bytes (t.get (js "ek")))
        (some (bytes (t.get (js "m")))) with
    | error e =>
        apply same_thrown
        intro exp hexp
        cases hexp
    | ok r =>
        change Same (hexOf _ >>= fun ct => _) fun exp => hexOf _ >>= _
        cases hexOf (r.cipherText.or r.ciphertext) with
        | error e =>
            apply same_thrown
            intro exp hexp
            cases hexp
        | ok ct =>
            apply same_returned
            intro exp
            refine pure_eq_ok.trans ?_
            split
            next h => simp_all [Answer.covers_iff, eq_comm]
            next h => split <;> simp_all [Answer.covers_iff, eq_comm]
  next =>
  split
  next =>
    cases alg.decapsulate (bytes (t.get (js "c")))
        (bytes (t.get (js "dk"))) with
    | error e =>
        apply same_thrown
        intro exp hexp
        cases hexp
    | ok k =>
        apply same_returned
        intro exp
        refine pure_eq_ok.trans ?_
        split <;> simp_all [Answer.covers_iff, eq_comm]
  next =>
  split
  next =>
    apply same_returned
    intro exp
    exact pure_eq_ok.trans gradeCheck_passed
  next =>
  split
  next =>
    apply same_returned
    intro exp
    exact pure_eq_ok.trans gradeCheck_passed
  next =>
    apply same_thrown
    intro exp hexp
    cases hexp

end

-- ============================================================= groups

section

variable {α : Type} {table : List JsString} {alg : JsString → α}
  {answer : α → TestGroup → TestCase → Except JsError Answer}
  {grade : α → TestGroup → TestCase → Answer →
    Except JsError RunAcvp.Verdict}
  {g : TestGroup}

/-- A parameter set of a table has an entry. -/
theorem entry_of_mem {name : JsString} (h : name ∈ table) :
    entry table alg name = some (alg name) := by
  unfold entry
  cases hfind : table.find? fun key => key = name with
  | none =>
      have := List.find?_eq_none.mp hfind name h
      simp at this
  | some key =>
      obtain rfl : key = name := by simpa using List.find?_some hfind
      rfl

/-- An algorithm that is not in the table has no entry. -/
theorem entry_of_notMem {name : JsString} (h : name ∉ table) :
    entry table alg name = none := by
  unfold entry
  rw [List.find?_eq_none.mpr, Option.map_none]
  intro key hkey heq
  exact h (of_decide_eq_true heq ▸ hkey)

/-- A group whose cases are called alike agrees: what is answered passes,
and what can pass is answered. The parameter set is looked up first by both,
and where the table lacks it neither has anything to say. -/
theorem agree_group
    (h : g.parameterSet ∈ table → ∀ t ∈ g.tests,
      Same (answer (alg g.parameterSet) g t)
        (grade (alg g.parameterSet) g t)) :
    (∀ answers, Responders.answerGroup table alg answer g = .ok answers →
      List.Forall₂ (fun t r => r.1 = t.tcId ∧ ∀ exp,
        RunAcvp.gradeCase table alg grade g t exp = .ok .passed
          ↔ exp.Covers r.2) g.tests answers)
    ∧ (g.parameterSet ∈ table →
      (∀ t ∈ g.tests, ∃ a : Answer, ∀ exp,
        RunAcvp.gradeCase table alg grade g t exp = .ok .passed
          ↔ exp.Covers a) →
      ∃ answers, Responders.answerGroup table alg answer g
        = .ok answers) := by
  unfold Responders.answerGroup RunAcvp.gradeCase Responders.backend
  by_cases hmem : g.parameterSet ∈ table
  · rw [entry_of_mem hmem]
    constructor
    · intro answers hanswers
      have hall := forall₂_of_mapM hanswers
      rw [List.forall₂_iff_get] at hall ⊢
      refine ⟨hall.1, ?_⟩
      intro i hi hi'
      obtain ⟨a, ha, hr⟩ := bind_eq_ok.mp (hall.2 i hi hi')
      rw [← pure_eq_ok.mp hr]
      exact ⟨rfl, (h hmem _ (List.get_mem ..)).answered a ha⟩
    · intro _ hcomputes
      refine mapM_returns fun t ht => ?_
      obtain ⟨a, ha⟩ := hcomputes t ht
      cases hanswer : answer (alg g.parameterSet) g t with
      | ok a' => exact ⟨(t.tcId, a'), rfl⟩
      | error e =>
          have hpassed := (ha a).mpr a.covers_self
          exact absurd hpassed ((h hmem t ht).thrown e hanswer a)
  · rw [entry_of_notMem hmem]
    refine ⟨?_, fun h' => absurd h' hmem⟩
    intro answers hanswers
    cases hanswers

end

/-- Where the option is given, or there is nothing to answer, the two
agree on every primitive. -/
theorem agree_of_optionGiven {prim : Primitives} {mode : Mode}
    {g : TestGroup} (h : OptionGiven mode g ∨ g.tests = []
      ∨ g.parameterSet ∉ mode.table) : Agree prim mode g := by
  have hsame : ∀ {P : TestCase → Prop}, (OptionGiven mode g → ∀ t, P t) →
      g.parameterSet ∈ mode.table → ∀ t ∈ g.tests, P t := by
    intro P hP hmem t ht
    rcases h with h | h | h
    · exact hP h t
    · rw [h] at ht
      cases ht
    · exact absurd hmem h
  cases mode with
  | mlKemKeyGen =>
      exact agree_group (hsame fun _ _ => same_mlKemKeyGen)
  | mlKemEncapDecap =>
      exact agree_group (hsame fun _ _ => same_mlKemEncapDecap)
  | mlDsaKeyGen =>
      exact agree_group (hsame fun _ _ => same_mlDsaKeyGen)
  | slhDsaKeyGen =>
      exact agree_group (hsame fun _ _ => same_slhDsaKeyGen)
  | mlDsaSigGen =>
      exact agree_group (hsame fun hoption _ => same_sigGen (hoption rfl))
  | slhDsaSigGen =>
      exact agree_group (hsame fun hoption _ => same_sigGen (hoption rfl))
  | mlDsaSigVer =>
      exact agree_group (hsame fun hoption _ => same_sigVer (hoption rfl))
  | slhDsaSigVer =>
      exact agree_group (hsame fun hoption _ => same_sigVer (hoption rfl))

-- ============================================================ refusal

/-- A surface that refuses the option, and otherwise signs and accepts
everything. -/
def refusingSigner : Signer where
  sign _ _ opts :=
    if opts.externalMu.isSome then
      .error (typeError (js "unknown option externalMu"))
    else .ok [1]
  verify _ _ _ opts :=
    if opts.externalMu.isSome then
      .error (typeError (js "unknown option externalMu"))
    else .ok true

/-- A parameter set with that internal surface. -/
def refusingAlg : SignatureAlg where
  toSigner := refusingSigner
  internal := some refusingSigner
  prehash _ := .ok refusingSigner
  keygen _ := .ok ⟨[], []⟩

/-- Primitives whose internal surfaces refuse the option. -/
def refusing : Primitives where
  kem _ := {
    keygen _ := .ok ⟨[], []⟩
    encapsulate _ _ := .ok ⟨some [], none, []⟩
    decapsulate _ _ := .ok []
    cipherTextBytes := 0 }
  dsa _ := refusingAlg
  slh _ := refusingAlg

/-- These primitives are strict. -/
theorem refusing_strict : refusing.Strict where
  sign := by
    intro set signer hsigner message secretKey opts hoption
    cases hsigner
    exact ⟨_, if_pos hoption⟩
  verify := by
    intro set signer hsigner signature message publicKey opts hoption
    cases hsigner
    exact ⟨_, if_pos hoption⟩

section

variable {g : TestGroup} {t : TestCase}

/-- The responder's call is refused, and the runner's is not. -/
theorem refusing_signerFor (hinternal : g.isInternal = true)
    (hnone : g.externalMu = none) :
    Responders.signerFor refusingAlg g t
        = .ok (refusingSigner, { externalMu := some false })
      ∧ RunAcvp.signerFor refusingAlg g t = .ok (refusingSigner, {}) := by
  unfold Responders.signerFor RunAcvp.signerFor
  rw [if_pos hinternal, if_pos hinternal, hnone]
  exact ⟨rfl, rfl⟩

/-- An internal group takes no context. -/
theorem withContext_internal (hinternal : g.isInternal = true)
    (opts : SignerOptions) : withContext g t opts = opts := by
  rw [withContext, hinternal]
  rfl

/-- In an internal group without the option the responder throws where the
runner signs. -/
theorem refusing_sigGen {rndField : JsString}
    (hinternal : g.isInternal = true) (hnone : g.externalMu = none) :
    (∃ e, Responders.sigGen rndField refusingAlg g t = .error e)
      ∧ ∀ exp, RunAcvp.runSigGen rndField refusingAlg g t exp = .ok .passed
        ↔ exp.Covers { signature := some (hex [1]) } := by
  obtain ⟨h, h'⟩ := @refusing_signerFor g t hinternal hnone
  have hsign : refusingSigner.sign (messageOf g t)
      (bytes (t.get (js "sk"))) (withEntropy g t rndField {})
        = .ok [1] := rfl
  unfold Responders.sigGen RunAcvp.runSigGen
  simp only [h, h', withContext_internal hinternal, hsign]
  refine ⟨⟨_, rfl⟩, ?_⟩
  intro exp
  rw [covers_signature, Except.ok.injEq]
  split <;> simp_all

/-- There the responder says of every signature that it does not verify. -/
theorem refusing_sigVer (hinternal : g.isInternal = true)
    (hnone : g.externalMu = none) :
    Responders.sigVer refusingAlg g t = .ok { testPassed := some false }
      ∧ ∀ exp, RunAcvp.runSigVer refusingAlg g t exp = .ok .passed
        ↔ exp.Covers { testPassed := some true } := by
  obtain ⟨h, h'⟩ := @refusing_signerFor g t hinternal hnone
  have hverify : refusingSigner.verify (bytes (t.get (js "signature")))
      (messageOf g t) (bytes (t.get (js "pk"))) {} = .ok true := rfl
  unfold Responders.sigVer RunAcvp.runSigVer
  simp only [h, h', withContext_internal hinternal, hverify]
  refine ⟨rfl, ?_⟩
  intro exp
  rw [covers_testPassed, Except.ok.injEq]
  split <;> simp_all

/-- A group of signing cases is not answered, though all of it is
computed. -/
theorem sigGen_disagrees {table : List JsString} {rndField : JsString}
    (hmem : g.parameterSet ∈ table) (ht : t ∈ g.tests)
    (hinternal : g.isInternal = true) (hnone : g.externalMu = none) :
    (∀ answers, Responders.answerGroup table (fun _ => refusingAlg)
        (Responders.sigGen rndField) g ≠ .ok answers)
      ∧ ∀ t exp, RunAcvp.gradeCase table (fun _ => refusingAlg)
        (RunAcvp.runSigGen rndField) g t exp = .ok .passed
          ↔ exp.Covers { signature := some (hex [1]) } := by
  unfold Responders.answerGroup RunAcvp.gradeCase Responders.backend
  rw [entry_of_mem hmem]
  refine ⟨?_, fun t => (refusing_sigGen hinternal hnone).2⟩
  intro answers hanswers
  obtain ⟨r, hr⟩ := round_ok hanswers ht
  obtain ⟨e, he⟩ := (@refusing_sigGen g t rndField hinternal hnone).1
  rw [he] at hr
  cases hr

/-- A group of verifying cases is answered with rejections of what is
accepted. -/
theorem sigVer_disagrees {table : List JsString}
    (hmem : g.parameterSet ∈ table)
    (hinternal : g.isInternal = true) (hnone : g.externalMu = none) :
    (∃ answers, Responders.answerGroup table (fun _ => refusingAlg)
        Responders.sigVer g = .ok answers
      ∧ ∀ r ∈ answers, r.2 = { testPassed := some false })
      ∧ ∀ t exp, RunAcvp.gradeCase table (fun _ => refusingAlg)
        RunAcvp.runSigVer g t exp = .ok .passed
          ↔ exp.Covers { testPassed := some true } := by
  unfold Responders.answerGroup RunAcvp.gradeCase Responders.backend
  rw [entry_of_mem hmem]
  refine ⟨?_, fun t => (refusing_sigVer hinternal hnone).2⟩
  have hround : ∀ t : TestCase, (do
      return (t.tcId, ← Responders.sigVer refusingAlg g t)
        : Except JsError (Nat × Answer))
      = .ok (t.tcId, { testPassed := some false }) := by
    intro t
    rw [(refusing_sigVer hinternal hnone).1]
    rfl
  obtain ⟨answers, hanswers⟩ := mapM_returns
    (fun t (_ : t ∈ g.tests) => ⟨_, hround t⟩)
  refine ⟨answers, hanswers, ?_⟩
  intro r hr
  obtain ⟨t, -, ht⟩ := mem_of_mapM hanswers r hr
  rw [hround] at ht
  cases ht
  rfl

/-- Where the option is not given, primitives that refuse it are a
disagreement. -/
theorem refusing_disagrees {mode : Mode} (hmode : mode.isSignature = true)
    (hmem : g.parameterSet ∈ mode.table) (ht : t ∈ g.tests)
    (hinternal : g.isInternal = true) (hnone : g.externalMu = none) :
    ¬Agree refusing mode g := by
  intro hagree
  have hsigGen : ∀ {table rndField}, g.parameterSet ∈ table →
      ¬∃ answers, Responders.answerGroup table (fun _ => refusingAlg)
        (Responders.sigGen rndField) g = .ok answers := by
    intro table rndField hmem h
    obtain ⟨answers, hanswers⟩ := h
    exact (sigGen_disagrees hmem ht hinternal hnone).1 answers hanswers
  have hsigVer : ∀ {table}, g.parameterSet ∈ table →
      ¬∀ answers, Responders.answerGroup table (fun _ => refusingAlg)
          Responders.sigVer g = .ok answers →
        List.Forall₂ (fun t r => r.1 = t.tcId ∧ ∀ exp,
          RunAcvp.gradeCase table (fun _ => refusingAlg)
            RunAcvp.runSigVer g t exp = .ok .passed
              ↔ exp.Covers r.2) g.tests answers := by
    intro table hmem h
    obtain ⟨⟨answers, hanswers, hfalse⟩, hgrade⟩ :=
      sigVer_disagrees hmem hinternal hnone
    have hall := h answers hanswers
    cases htests : g.tests with
    | nil =>
        rw [htests] at ht
        cases ht
    | cons t' rest =>
        rw [htests] at hall
        cases hall with
        | cons hhead _ =>
            have hcovers := ((hgrade t' _).symm.trans
              (hhead.2 { testPassed := some true })).mp
                (Answer.covers_self _)
            rw [hfalse _ List.mem_cons_self, covers_testPassed] at hcovers
            cases hcovers
  cases mode with
  | mlDsaSigGen | slhDsaSigGen =>
      exact hsigGen hmem (hagree.2 hmem fun t _ =>
        ⟨_, (sigGen_disagrees hmem ht hinternal hnone).2 t⟩)
  | mlDsaSigVer | slhDsaSigVer => exact hsigVer hmem hagree.1
  | _ => cases hmode

end

-- =============================================================== main

/-- What a response is made of: each group's own answers, under its number
and in the order of the prompt. The mode is the one whose key the algorithm
and the mode of the prompt make up. -/
theorem respond_ok {prim : Primitives} {prompt : Prompt}
    {r : Responders.Response}
    (h : Responders.respond prim prompt = .ok r) :
    ∃ mode : Mode,
      mode.key = prompt.algorithm ++ js "/" ++ prompt.mode
      ∧ List.Forall₂ (fun g answers => answers.1 = g.tgId
        ∧ Responders.responder prim mode g = .ok answers.2)
        prompt.testGroups r.testGroups := by
  unfold Responders.respond at h
  simp only at h
  split at h
  next => cases h
  next mode hmode =>
    obtain ⟨groups, hgroups, h⟩ := bind_eq_ok.mp h
    rw [← pure_eq_ok.mp h]
    have hkey := List.find?_some hmode
    refine ⟨mode, of_decide_eq_true hkey, ?_⟩
    refine (forall₂_of_mapM hgroups).imp ?_
    intro g answers hanswers
    obtain ⟨a, ha, hpure⟩ := bind_eq_ok.mp hanswers
    rw [← pure_eq_ok.mp hpure]
    exact ⟨rfl, ha⟩

/-- **The responder and the runner.** A response is made of the answers
to its groups. And on a group of a mode the responder and the runner
agree for all primitives, of which SLH-DSA's internal surfaces may refuse
`externalMu`, exactly when the group gives the option wherever it is
signed or verified on the internal interface, or has no test case, or
names no parameter set of the mode. -/
theorem responder_agrees_iff (mode : Mode) (g : TestGroup) :
    (∀ prim prompt r, Responders.respond prim prompt = .ok r →
      ∃ mode : Mode,
        mode.key = prompt.algorithm ++ js "/" ++ prompt.mode
        ∧ List.Forall₂ (fun g answers => answers.1 = g.tgId
          ∧ Responders.responder prim mode g = .ok answers.2)
          prompt.testGroups r.testGroups)
    ∧ ((∀ prim : Primitives, prim.Strict → Agree prim mode g)
      ↔ OptionGiven mode g ∨ g.tests = []
        ∨ g.parameterSet ∉ mode.table) := by
  refine ⟨fun prim prompt r => respond_ok, ?_⟩
  constructor
  · intro hagree
    by_contra hnot
    simp only [not_or, not_not] at hnot
    obtain ⟨hoption, htests, hmem⟩ := hnot
    simp only [OptionGiven, Classical.not_imp, Bool.not_eq_true,
      Option.isSome_eq_false_iff, Option.isNone_iff_eq_none] at hoption
    obtain ⟨hmode, hinternal, hnone⟩ := hoption
    obtain ⟨t, ht⟩ := List.exists_mem_of_ne_nil _ htests
    exact refusing_disagrees hmode hmem ht hinternal hnone
      (hagree refusing refusing_strict)
  · intro h prim _
    exact agree_of_optionGiven h

-- =========================================================== instances

/-- A test case. -/
def slhCase : TestCase where
  tcId := 1
  members := [(js "message", js "00"), (js "pk", js "00"),
    (js "sk", js "00"), (js "signature", js "01")]

/-- An SLH-DSA group on the internal interface, as registered: without
`externalMu`. -/
def slhInternal : TestGroup where
  tgId := 1
  parameterSet := js "SLH-DSA-SHA2-128s"
  tests := [slhCase]
  signatureInterface := some (js "internal")
  deterministic := some true

/-- The responder throws on what the runner signs, and rejects what the
runner accepts. -/
theorem slhInternal_disagrees :
    refusing.Strict
      ∧ Responders.responder refusing .slhDsaSigGen slhInternal
        = .error (typeError (js "unknown option externalMu"))
      ∧ Responders.responder refusing .slhDsaSigVer slhInternal
        = .ok [(1, { testPassed := some false })]
      ∧ (∀ t ∈ slhInternal.tests, Computes refusing .slhDsaSigGen
        slhInternal t { signature := some (js "01") })
      ∧ (∀ t ∈ slhInternal.tests, Computes refusing .slhDsaSigVer
        slhInternal t { testPassed := some true })
      ∧ ¬Agree refusing .slhDsaSigGen slhInternal
      ∧ ¬Agree refusing .slhDsaSigVer slhInternal := by
  have hmem : slhInternal.parameterSet ∈ SLH := List.mem_cons_self
  have ht : slhCase ∈ slhInternal.tests := List.mem_cons_self
  refine ⟨refusing_strict, rfl, rfl, ?_, ?_, ?_, ?_⟩
  · intro t _
    exact (@sigGen_disagrees slhInternal slhCase SLH
      (js "additionalRandomness") hmem ht rfl rfl).2 t
  · intro t _
    exact (sigVer_disagrees hmem rfl rfl).2 t
  · exact refusing_disagrees rfl hmem ht rfl rfl
  · exact refusing_disagrees rfl hmem ht rfl rfl

end KxcoPostQuantum.Conformance
