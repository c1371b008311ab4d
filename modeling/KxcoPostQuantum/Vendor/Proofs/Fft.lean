/-
A run of the transform loop is a run of splittings or of mergings.

The passes of a stage are on slots of their own, so a stage makes of each
two slots what a butterfly makes of them (`stage_slots`). Where the
operations are those of a ring (`Models`), a forward stage with inverted
butterflies is a splitting (`stage_split`) and an inverse one a merging
(`stage_merge`), whose roots the counter of groups walks through: from 1 up
the one, from the end of the table down the other. The whole loop is
`split_stages` and `merge_stages`.
-/
import KxcoPostQuantum.Vendor.Fft
import KxcoPostQuantum.Lib.Ntt

namespace KxcoPostQuantum.Vendor

open Lib Lib.Ntt

variable {ε : Type} [ArrayElement ε] {N : Nat}

-- ================================================================ slots

/-- What a stage has made of the blocks below `B`, and of no other. -/
structure Paired (pair : Nat → Nat → Int → Int → Int × Int) (h B : Nat)
    (v w : Vector ε N) : Prop where
  lower : ∀ b < B, ∀ j < h, get w (b * (2 * h) + j)
    = (pair b j (get v (b * (2 * h) + j)) (get v (b * (2 * h) + h + j))).1
  upper : ∀ b < B, ∀ j < h, get w (b * (2 * h) + h + j)
    = (pair b j (get v (b * (2 * h) + j)) (get v (b * (2 * h) + h + j))).2
  rest : ∀ x, B * (2 * h) ≤ x → get w x = get v x

/-- The passes over one block: of each two slots that are half a block apart
they make what the butterfly makes, and they leave the slots outside the
block. -/
theorem block_slots (pair : Nat → Int → Int → Int × Int) {h k : Nat}
    {v : Vector ε N} (hk : k + 2 * h ≤ N)
    (hkeeps : ∀ j < h, Keeps ε (pair j (get v (k + j)) (get v (k + h + j))).1
      ∧ Keeps ε (pair j (get v (k + j)) (get v (k + h + j))).2) :
    let w := loop h
      (fun j w => set (set w (k + j)
        (pair j (get w (k + j)) (get w (k + j + h))).1) (k + j + h)
        (pair j (get w (k + j)) (get w (k + j + h))).2) v
    (∀ j < h, get w (k + j) = (pair j (get v (k + j)) (get v (k + h + j))).1
        ∧ get w (k + h + j) = (pair j (get v (k + j)) (get v (k + h + j))).2)
      ∧ ∀ x, x < k ∨ k + 2 * h ≤ x → get w x = get v x := by
  -- the passes done so far have had the first slots of both halves
  let P : Nat → Vector ε N → Prop := fun J w =>
    (∀ j < h, j < J → get w (k + j)
        = (pair j (get v (k + j)) (get v (k + h + j))).1
        ∧ get w (k + h + j) = (pair j (get v (k + j)) (get v (k + h + j))).2)
      ∧ (∀ j < h, J ≤ j → get w (k + j) = get v (k + j)
        ∧ get w (k + h + j) = get v (k + h + j))
      ∧ ∀ x, x < k ∨ k + 2 * h ≤ x → get w x = get v x
  have hloop : P h (loop h
      (fun j w => set (set w (k + j)
        (pair j (get w (k + j)) (get w (k + j + h))).1) (k + j + h)
        (pair j (get w (k + j)) (get w (k + j + h))).2) v) := by
    apply loop_induction
    · refine ⟨?_, ?_, ?_⟩
      · intro j _ hj
        exact absurd hj (Nat.not_lt_zero j)
      · intro j _ _
        exact ⟨rfl, rfl⟩
      · intro x _
        rfl
    · intro J hJ w hw
      obtain ⟨hdone, htodo, hrest⟩ := hw
      obtain ⟨hlow, hupp⟩ := htodo J hJ le_rfl
      obtain ⟨hkeep, hkeep'⟩ := hkeeps J hJ
      rw [show k + J + h = k + h + J by omega, hlow, hupp]
      refine ⟨?_, ?_, ?_⟩
      · intro j hj hjJ
        by_cases heq : j = J
        · subst heq
          constructor
          · rw [get_set_of_ne (by omega), get_set (by omega) hkeep]
          · exact get_set (by omega) hkeep'
        · rw [get_set_of_ne (by omega), get_set_of_ne (by omega),
            get_set_of_ne (by omega), get_set_of_ne (by omega)]
          exact hdone j hj (by omega)
      · intro j hj hjJ
        rw [get_set_of_ne (by omega), get_set_of_ne (by omega),
          get_set_of_ne (by omega), get_set_of_ne (by omega)]
        exact htodo j hj (by omega)
      · intro x hx
        rw [get_set_of_ne (by omega), get_set_of_ne (by omega)]
        exact hrest x hx
  obtain ⟨hdone, -, hrest⟩ := hloop
  exact ⟨fun j hj => hdone j hj hj, hrest⟩

/-- The root a butterfly multiplies by, when the groups before the stage
have been `g`. -/
def CoreOpts.omega (o : CoreOpts ε N) (g stride block j : Nat) : Int :=
  o.root (if o.invertButterflies then
    (if o.dit then N - (g + block) else g + block) else j * stride)

/-- **A stage** makes of each two slots what a butterfly makes of them. Its
two loops go over the blocks and over the pairs of each; no pair is met
twice, so each is read as it was. -/
theorem stage_slots (F : FieldOps) (o : CoreOpts ε N) {i s B g : Nat}
    {v : Vector ε N}
    (hs : (if o.dit then i + 1 + o.skipStages else log2 N - i) = s + 1)
    (hN : B * (2 * 2 ^ s) = N)
    (hkeeps : ∀ b < B, ∀ j < 2 ^ s, ∀ x y,
      x = get v (b * (2 * 2 ^ s) + j) → y = get v (b * (2 * 2 ^ s) + 2 ^ s + j) →
      Keeps ε (o.pair F (o.omega g B b j) x y).1
        ∧ Keeps ε (o.pair F (o.omega g B b j) x y).2) :
    (stage F o i (g, v)).1 = g + B
      ∧ Paired (fun b j => o.pair F (o.omega g B b j))
          (2 ^ s) B v (stage F o i (g, v)).2 := by
  have hm : (2 : ℕ) ^ (s + 1) = 2 * 2 ^ s := by
    rw [pow_succ, Nat.mul_comm]
  have hB : N / 2 ^ (s + 1) = B := by
    rw [hm, ← hN]
    exact Nat.mul_div_cancel _ (by positivity)
  have hm2 : 2 ^ (s + 1) / 2 = 2 ^ s := by
    rw [pow_succ, Nat.mul_div_cancel _ two_pos]
  generalize hpair : (fun b j => o.pair F (o.omega g B b j))
    = pair at *
  unfold stage
  simp only [hs, hm2]
  rw [hB]
  apply loop_induction (P := fun b (state : Nat × Vector ε N) =>
    state.1 = g + b ∧ Paired pair (2 ^ s) b v state.2)
  · refine ⟨rfl, ?_, ?_, ?_⟩
    · intro b hb
      exact absurd hb (Nat.not_lt_zero b)
    · intro b hb
      exact absurd hb (Nat.not_lt_zero b)
    · intro x _
      rfl
  · intro block hblock state hstate
    obtain ⟨g', w⟩ := state
    obtain ⟨hg, hlower, hupper, hrest⟩ := hstate
    subst hg
    have hend : block * (2 * 2 ^ s) + 2 * 2 ^ s ≤ N := by
      have := Nat.mul_le_mul_right (2 * 2 ^ s) hblock
      rw [hN, Nat.succ_mul] at this
      exact this
    refine ⟨rfl, ?_⟩
    -- the slots of the block are still those of `v`
    have hold : ∀ x, block * (2 * 2 ^ s) ≤ x → get w x = get v x := hrest
    have hslots := block_slots (pair block) (v := w) hend (by
      intro j hj
      rw [hold _ (by omega), hold _ (by omega), ← hpair]
      exact hkeeps block hblock j hj _ _ rfl rfl)
    rw [← hpair] at hslots
    simp only [hm]
    obtain ⟨hnew, hkept⟩ := hslots
    have hafter : ∀ b, b < block → b * (2 * 2 ^ s) + 2 * 2 ^ s
        ≤ block * (2 * 2 ^ s) := by
      intro b hb
      have := Nat.mul_le_mul_right (2 * 2 ^ s) hb
      rwa [Nat.succ_mul] at this
    refine ⟨?_, ?_, ?_⟩
    · intro b hb j hj
      rcases Nat.lt_succ_iff_lt_or_eq.mp hb with hlt | rfl
      · have := hafter b hlt
        exact (hkept _ (by omega)).trans (hlower b hlt j hj)
      · rw [← hold _ (by omega), ← hold (b * (2 * 2 ^ s) + 2 ^ s + j) (by omega),
          ← hpair]
        exact (hnew j hj).1
    · intro b hb j hj
      rcases Nat.lt_succ_iff_lt_or_eq.mp hb with hlt | rfl
      · have := hafter b hlt
        exact (hkept _ (by omega)).trans (hupper b hlt j hj)
      · rw [← hold _ (by omega), ← hold (b * (2 * 2 ^ s) + 2 ^ s + j) (by omega),
          ← hpair]
        exact (hnew j hj).2
    · intro x hx
      rw [Nat.succ_mul] at hx
      exact (hkept x (by omega)).trans (hold x (by omega))

-- =============================================================== stages

variable {R : Type} [CommRing R] {F : FieldOps} {Ok Red : Int → Prop}

/-- On the numbers that are `Ok`, the operations are those of `R`; what
they make is reduced, and slots keep it. The roots are reduced. -/
structure Models (ε : Type) [ArrayElement ε] (R : Type) [CommRing R]
    (F : FieldOps) (Ok Red : Int → Prop) : Prop where
  keeps : ∀ {x}, Red x → Keeps ε x
  ok : ∀ {x}, Red x → Ok x
  add_red : ∀ {a b}, Ok a → Ok b → Red (F.add a b)
  sub_red : ∀ {a b}, Ok a → Ok b → Red (F.sub a b)
  mul_red : ∀ {a b}, Ok a → Red b → Red (F.mul a b)
  add : ∀ {a b}, Ok a → Ok b → ((F.add a b : ℤ) : R) = a + b
  sub : ∀ {a b}, Ok a → Ok b → ((F.sub a b : ℤ) : R) = a - b
  mul : ∀ {a b}, Ok a → Red b → ((F.mul a b : ℤ) : R) = a * b

/-- All slots are `Ok`. -/
def AllOk (Ok : Int → Prop) (v : Vector ε N) : Prop := ∀ x < N, Ok (get v x)

/-- The numbers of an array in the ring. -/
def image (R : Type) [CommRing R] (v : Vector ε N) (i : ℕ) : R :=
  (get v i : ℤ)

/-- The roots an inverse stage multiplies by, when it leaves `2 ^ t`
blocks of `2 ^ T`. -/
def CoreOpts.inverseRoot (R : Type) [CommRing R] (o : CoreOpts ε N)
    (T t b : ℕ) : R :=
  (o.root (N - (1 + 2 ^ T - 2 ^ (t + 1) + b)) : ℤ)

/-- **A forward stage is a splitting** of the images in the ring. The
butterfly of the code is one of the field operations, and these are those of
the ring on reduced numbers. -/
theorem stage_split (hF : Models ε R F Ok Red) {o : CoreOpts ε N}
    (hdit : o.dit = false) (hinvert : o.invertButterflies = true)
    (hroots : ∀ x, Red (o.root x)) {t s : ℕ} {v : Vector ε N}
    (hs : log2 N - t = s + 1) (hN : 2 ^ t * (2 * 2 ^ s) = N)
    (hv : AllOk Ok v) :
    let w := stage F o t (2 ^ t, v)
    w.1 = 2 ^ (t + 1) ∧ AllOk Red w.2
      ∧ IsSplit (fun g => (o.root g : R)) t (2 ^ s) (image R v)
        (image R w.2) := by
  have homega : ∀ b j, o.omega (2 ^ t) (2 ^ t) b j = o.root (2 ^ t + b) := by
    intro b j
    unfold CoreOpts.omega
    rw [if_pos hinvert, if_neg (by rw [hdit]; exact Bool.false_ne_true)]
  have hpair : ∀ om a b, o.pair F om a b
      = (F.add a (F.mul b om), F.sub a (F.mul b om)) := by
    intro om a b
    unfold CoreOpts.pair
    rw [hdit, hinvert]
    rfl
  have hok : ∀ b < 2 ^ t, ∀ j < 2 ^ s, Ok (get v (b * (2 * 2 ^ s) + j))
      ∧ Ok (get v (b * (2 * 2 ^ s) + 2 ^ s + j)) := by
    intro b hb j hj
    have := Nat.mul_le_mul_right (2 * 2 ^ s) hb
    rw [hN, Nat.succ_mul] at this
    exact ⟨hv _ (by omega), hv _ (by omega)⟩
  obtain ⟨hg, hlower, hupper, -⟩ := stage_slots F o (g := 2 ^ t) (v := v)
    (s := s) (B := 2 ^ t) (i := t) (by rw [if_neg (by simp [hdit]), hs]) hN (by
      rintro b hb j hj x y rfl rfl
      obtain ⟨ha, hb'⟩ := hok b hb j hj
      rw [homega, hpair]
      have hmul := hF.ok (hF.mul_red hb' (hroots (2 ^ t + b)))
      exact ⟨hF.keeps (hF.add_red ha hmul), hF.keeps (hF.sub_red ha hmul)⟩)
  refine ⟨?_, ?_, ?_, ?_⟩
  · rw [hg, pow_succ]
    ring
  · intro x hx
    rw [← hN] at hx
    obtain ⟨b, hb, j, hj, rfl | rfl⟩ := slot_cases hx
    · obtain ⟨ha, hb'⟩ := hok b hb j hj
      rw [hlower b hb j hj, homega, hpair]
      exact hF.add_red ha (hF.ok (hF.mul_red hb' (hroots _)))
    · obtain ⟨ha, hb'⟩ := hok b hb j hj
      rw [hupper b hb j hj, homega, hpair]
      exact hF.sub_red ha (hF.ok (hF.mul_red hb' (hroots _)))
  · intro b hb j hj
    obtain ⟨ha, hb'⟩ := hok b hb j hj
    unfold image
    rw [hlower b hb j hj, homega, hpair,
      hF.add ha (hF.ok (hF.mul_red hb' (hroots _))),
      hF.mul hb' (hroots _)]
    ring
  · intro b hb j hj
    obtain ⟨ha, hb'⟩ := hok b hb j hj
    unfold image
    rw [hupper b hb j hj, homega, hpair,
      hF.sub ha (hF.ok (hF.mul_red hb' (hroots _))),
      hF.mul hb' (hroots _)]
    ring

/-- **An inverse stage is a merging**, likewise. The stages are counted from
the other end, which is why the number of the stage and that of its blocks
are both in the statement. -/
theorem stage_merge (hF : Models ε R F Ok Red) {o : CoreOpts ε N}
    (hdit : o.dit = true) (hinvert : o.invertButterflies = true)
    (hroots : ∀ x, Red (o.root x)) {i t g : ℕ} {v : Vector ε N}
    (hN : 2 ^ t * (2 * 2 ^ (i + o.skipStages)) = N) (hv : AllOk Ok v) :
    let w := stage F o i (g, v)
    w.1 = g + 2 ^ t ∧ AllOk Red w.2
      ∧ IsMerge (fun b => (o.root (N - (g + b)) : R)) t
        (2 ^ (i + o.skipStages)) (image R v) (image R w.2) := by
  generalize hsize : i + o.skipStages = s at *
  have homega : ∀ b j, o.omega g (2 ^ t) b j = o.root (N - (g + b)) := by
    intro b j
    unfold CoreOpts.omega
    rw [if_pos hinvert, if_pos hdit]
  have hpair : ∀ om a b, o.pair F om a b
      = (F.add b a, F.mul (F.sub b a) om) := by
    intro om a b
    unfold CoreOpts.pair
    rw [hdit, hinvert]
    rfl
  have hok : ∀ b < 2 ^ t, ∀ j < 2 ^ s, Ok (get v (b * (2 * 2 ^ s) + j))
      ∧ Ok (get v (b * (2 * 2 ^ s) + 2 ^ s + j)) := by
    intro b hb j hj
    have := Nat.mul_le_mul_right (2 * 2 ^ s) hb
    rw [hN, Nat.succ_mul] at this
    exact ⟨hv _ (by omega), hv _ (by omega)⟩
  obtain ⟨hg, hlower, hupper, -⟩ := stage_slots F o (g := g) (v := v)
    (s := s) (B := 2 ^ t) (i := i) (by rw [if_pos hdit]; omega) hN (by
      rintro b hb j hj x y rfl rfl
      obtain ⟨ha, hb'⟩ := hok b hb j hj
      rw [homega, hpair]
      exact ⟨hF.keeps (hF.add_red hb' ha),
        hF.keeps (hF.mul_red (hF.ok (hF.sub_red hb' ha)) (hroots _))⟩)
  refine ⟨hg, ?_, ?_, ?_⟩
  · intro x hx
    rw [← hN] at hx
    obtain ⟨b, hb, j, hj, rfl | rfl⟩ := slot_cases hx
    · obtain ⟨ha, hb'⟩ := hok b hb j hj
      rw [hlower b hb j hj, homega, hpair]
      exact hF.add_red hb' ha
    · obtain ⟨ha, hb'⟩ := hok b hb j hj
      rw [hupper b hb j hj, homega, hpair]
      exact hF.mul_red (hF.ok (hF.sub_red hb' ha)) (hroots _)
  · intro b hb j hj
    obtain ⟨ha, hb'⟩ := hok b hb j hj
    unfold image
    rw [hlower b hb j hj, homega, hpair, hF.add hb' ha]
  · intro b hb j hj
    obtain ⟨ha, hb'⟩ := hok b hb j hj
    unfold image
    rw [hupper b hb j hj, homega, hpair,
      hF.mul (hF.ok (hF.sub_red hb' ha)) (hroots _),
      hF.sub hb' ha]

-- ================================================================= runs

/-- The array behind `i` stages. -/
def after (F : FieldOps) (o : CoreOpts ε N) (v : Vector ε N) (i : ℕ) :
    Vector ε N := (loop i (stage F o) (1, v)).2

/-- The stages and those that are skipped make up the size. -/
theorem log2_size {T skip N : ℕ} (hN : 2 ^ T * 2 ^ skip = N) :
    log2 N = T + skip := by
  rw [← hN, ← pow_add]
  exact Nat.log2_two_pow

/-- All blocks of a stage together are the array. -/
theorem blocks_size {T skip N : ℕ} (hN : 2 ^ T * 2 ^ skip = N) {t s : ℕ}
    (h : t + (s + 1) = T + skip) : 2 ^ t * (2 * 2 ^ s) = N := by
  rw [← hN, ← pow_succ', ← pow_add, ← pow_add, h]

section

variable {o : CoreOpts ε N} {T : ℕ}

/-- **The forward loop is a run of splittings**, and what it holds behind
each stage is reduced. By induction over the stages. -/
theorem split_stages (hF : Models ε R F Ok Red) (hdit : o.dit = false)
    (hinvert : o.invertButterflies = true) (hroots : ∀ x, Red (o.root x))
    (hN : 2 ^ T * 2 ^ o.skipStages = N) {v : Vector ε N} (hv : AllOk Ok v) :
    (∀ t < T, AllOk Red (after F o v (t + 1)))
      ∧ ∀ t < T, IsSplit (fun g => (o.root g : R)) t
        (2 ^ o.skipStages * 2 ^ (T - 1 - t)) (image R (after F o v t))
        (image R (after F o v (t + 1))) := by
  have hlog := log2_size hN
  have hstep : ∀ t < T, (loop t (stage F o) (1, v)).1 = 2 ^ t →
      AllOk Ok (after F o v t) →
      (loop (t + 1) (stage F o) (1, v)).1 = 2 ^ (t + 1)
        ∧ AllOk Red (after F o v (t + 1))
        ∧ IsSplit (fun g => (o.root g : R)) t
          (2 ^ o.skipStages * 2 ^ (T - 1 - t)) (image R (after F o v t))
          (image R (after F o v (t + 1))) := by
    intro t ht hg hok
    have hsize : 2 ^ t * (2 * 2 ^ (T + o.skipStages - t - 1)) = N :=
      blocks_size hN (by omega)
    have hpair : loop t (stage F o) (1, v) = (2 ^ t, after F o v t) :=
      Prod.ext hg rfl
    rw [show after F o v (t + 1) = (stage F o t (2 ^ t, after F o v t)).2 by
        rw [← hpair]; rfl, loop_succ, hpair, ← pow_add,
      show o.skipStages + (T - 1 - t) = T + o.skipStages - t - 1 by omega]
    exact stage_split hF hdit hinvert hroots (by omega) hsize hok
  have hrun : ∀ t ≤ T, (loop t (stage F o) (1, v)).1 = 2 ^ t
      ∧ AllOk Ok (after F o v t) := by
    intro t
    induction t with
    | zero => exact fun _ => ⟨rfl, hv⟩
    | succ t ih =>
        intro ht
        obtain ⟨hg, hok⟩ := ih (Nat.le_of_succ_le ht)
        obtain ⟨hg', hred, -⟩ := hstep t ht hg hok
        exact ⟨hg', fun x hx => hF.ok (hred x hx)⟩
  constructor
  · intro t ht
    obtain ⟨hg, hok⟩ := hrun t (Nat.le_of_lt ht)
    exact (hstep t ht hg hok).2.1
  · intro t ht
    obtain ⟨hg, hok⟩ := hrun t (Nat.le_of_lt ht)
    exact (hstep t ht hg hok).2.2

/-- **The inverse loop is a run of mergings**, and what it holds behind each
stage is reduced. By induction over the stages. -/
theorem merge_stages (hF : Models ε R F Ok Red) (hdit : o.dit = true)
    (hinvert : o.invertButterflies = true) (hroots : ∀ x, Red (o.root x))
    (hN : 2 ^ T * 2 ^ o.skipStages = N) {v : Vector ε N} (hv : AllOk Ok v) :
    (∀ i < T, AllOk Red (after F o v (i + 1)))
      ∧ ∀ t < T, IsMerge (o.inverseRoot R T t) t
        (2 ^ o.skipStages * 2 ^ (T - 1 - t))
        (image R (after F o v (T - 1 - t)))
        (image R (after F o v (T - t))) := by
  have hstep : ∀ i < T, (loop i (stage F o) (1, v)).1 = 1 + 2 ^ T - 2 ^ (T - i) →
      AllOk Ok (after F o v i) →
      (loop (i + 1) (stage F o) (1, v)).1 = 1 + 2 ^ T - 2 ^ (T - i)
          + 2 ^ (T - 1 - i)
        ∧ AllOk Red (after F o v (i + 1))
        ∧ IsMerge (fun b => (o.root (N - (1 + 2 ^ T - 2 ^ (T - i) + b)) : R))
          (T - 1 - i) (2 ^ (i + o.skipStages)) (image R (after F o v i))
          (image R (after F o v (i + 1))) := by
    intro i hi hg hok
    have hsize : 2 ^ (T - 1 - i) * (2 * 2 ^ (i + o.skipStages)) = N :=
      blocks_size hN (by omega)
    have hpair : loop i (stage F o) (1, v)
        = (1 + 2 ^ T - 2 ^ (T - i), after F o v i) := Prod.ext hg rfl
    rw [show after F o v (i + 1) = (stage F o i
        (1 + 2 ^ T - 2 ^ (T - i), after F o v i)).2 by rw [← hpair]; rfl,
      loop_succ, hpair]
    exact stage_merge hF hdit hinvert hroots hsize hok
  have hrun : ∀ i ≤ T, (loop i (stage F o) (1, v)).1 = 1 + 2 ^ T - 2 ^ (T - i)
      ∧ AllOk Ok (after F o v i) := by
    intro i
    induction i with
    | zero =>
        refine fun _ => ⟨?_, hv⟩
        rw [Nat.sub_zero, Nat.add_sub_cancel]
        rfl
    | succ i ih =>
        intro hi
        obtain ⟨hg, hok⟩ := ih (Nat.le_of_succ_le hi)
        obtain ⟨hg', hred, -⟩ := hstep i hi hg hok
        refine ⟨?_, fun x hx => hF.ok (hred x hx)⟩
        have hle : 2 ^ (T - i) ≤ 2 ^ T :=
          Nat.pow_le_pow_right two_pos (Nat.sub_le T i)
        have hhalf : 2 ^ (T - i) = 2 ^ (T - 1 - i) + 2 ^ (T - 1 - i) := by
          rw [← Nat.two_mul, ← pow_succ']
          congr 1
          omega
        rw [hg', show T - (i + 1) = T - 1 - i by omega]
        omega
  constructor
  · intro i hi
    obtain ⟨hg, hok⟩ := hrun i (Nat.le_of_lt hi)
    exact (hstep i hi hg hok).2.1
  · intro t ht
    have hi : T - 1 - t < T := by omega
    obtain ⟨hg, hok⟩ := hrun (T - 1 - t) (Nat.le_of_lt hi)
    have hmerge := (hstep _ hi hg hok).2.2
    rw [show T - 1 - (T - 1 - t) = t by omega,
      show T - (T - 1 - t) = t + 1 by omega,
      show T - 1 - t + 1 = T - t by omega] at hmerge
    rw [← pow_add, Nat.add_comm o.skipStages]
    exact hmerge

end

end KxcoPostQuantum.Vendor
