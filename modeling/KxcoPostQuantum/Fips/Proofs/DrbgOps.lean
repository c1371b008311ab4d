/-
What each method of `HmacDrbg` does, once per method: the working state
it leaves, what it leaves alone, and which buffers it wipes.

`Holds w s` reads the instance off the heap as a working state of SP
800-90A. Under a total HMAC (`Hmac.ofFunction`) every method, given byte
strings, moves `Holds` along the specification's function of the same
name (`wp_update`, `wp_instantiate`, `wp_reseed`, `wp_generate`).

Beside the working state each lemma carries two frame facts. `Kept`:
buffers the instance does not hold are not written, and what it comes to
hold is fresh. `Clean`: every buffer it has dropped is zero. `Kept`
holds of every method; `Clean` of `#update` and what is built from it
alone, since the two replacements outside `#step` wipe nothing.
-/
import KxcoPostQuantum.Fips.Proofs.Concat
import KxcoPostQuantum.Lib.HmacDrbg

namespace KxcoPostQuantum.Fips

open Lib (Eff Heap)

-- ==================================================== a total HMAC

/-- The output of HMAC-SHA-512. -/
abbrev Mac : Type := {b : Bytes // b.length = outlen}

/-- HMAC as a function of its key and message, which never throws. -/
def Hmac.ofFunction (h : Bytes → Bytes → Mac) : Hmac :=
  fun _ key message => .ok (h key message).1

/-- The keyed function the specification is read at. -/
abbrev macOf (h : Bytes → Bytes → Mac) (key message : Bytes) : Bytes :=
  (h key message).1

/-- The working state of SP 800-90A, in bytes. -/
abbrev WorkingState : Type := Lib.HmacDrbg.State UInt8

variable {h : Bytes → Bytes → Mac} {w w' w'' : World} {s : WorkingState}

theorem wp_hmac_ofFunction {key message : Bytes}
    {Q : Bytes → World → Prop} {E : JsError → World → Prop}
    (hQ : Q (h key message).1 { w with
      macs := w.macs + 1, trace := w.trace ++ [.hmac true] }) :
    Eff.wp (hmacSha512 (Hmac.ofFunction h) key message) Q E w := by
  refine wp_hmacSha512 (fun a ha => ?_) (fun e he => by cases he)
  injection ha with ha
  subst ha
  exact hQ

-- ================================================ the held buffers

/-- The instance holds `k` and `v`, two live buffers. -/
structure Live (w : World) (k v : Nat) : Prop where
  K : w.drbg.K = some k
  V : w.drbg.V = some v
  k_lt : k < w.heap.size
  v_lt : v < w.heap.size
  ne : k ≠ v

/-- The instance, read off the heap, is the working state `s`. -/
def Holds (w : World) (s : WorkingState) : Prop :=
  ∃ k v, Live w k v ∧ s = {
    K := w.heap.read k
    V := w.heap.read v
    reseedCounter := w.drbg.counter }

/-- The instance holds the buffer. -/
def IsHeld (w : World) (l : Nat) : Prop :=
  w.drbg.K = some l ∨ w.drbg.V = some l

/-- Buffers the instance does not hold are left alone, what it comes to
hold, recorded or not, is fresh, and nothing is asked of the
environment. -/
structure Kept (w w' : World) : Prop where
  clock_eq : w'.clock = w.clock
  size_le : w.heap.size ≤ w'.heap.size
  read_eq : ∀ l < w.heap.size, ¬IsHeld w l → w'.heap.read l = w.heap.read l
  held : ∀ l, IsHeld w' l → IsHeld w l ∨ w.heap.size ≤ l
  marks : ∃ ms, w'.marks = w.marks ++ ms
    ∧ ∀ p ∈ ms, p.1 = .drbgState ∧ w.heap.size ≤ p.2

/-- Every buffer the instance ever held and no longer holds is zero. -/
def Clean (w : World) : Prop :=
  ∀ l, (.drbgState, l) ∈ w.marks →
    l < w.heap.size ∧ (IsHeld w l ∨ AllZero (w.heap.read l))

theorem Kept.refl (w : World) : Kept w w :=
  ⟨rfl, Nat.le_refl _, fun _ _ _ => rfl, fun _ hl => Or.inl hl,
    [], (List.append_nil _).symm, fun _ hp => nomatch hp⟩

theorem Kept.trans (h₁ : Kept w w') (h₂ : Kept w' w'') : Kept w w'' where
  clock_eq := h₂.clock_eq.trans h₁.clock_eq
  size_le := Nat.le_trans h₁.size_le h₂.size_le
  read_eq l hl hn := by
    have hn' : ¬IsHeld w' l := fun hh =>
      (h₁.held l hh).elim hn fun hge => absurd hl (by omega)
    rw [h₂.read_eq l (Nat.lt_of_lt_of_le hl h₁.size_le) hn',
      h₁.read_eq l hl hn]
  held l hl := by
    rcases h₂.held l hl with hh | hge
    · exact h₁.held l hh
    · exact Or.inr (Nat.le_trans h₁.size_le hge)
  marks := by
    obtain ⟨ms₁, he₁, hm₁⟩ := h₁.marks
    obtain ⟨ms₂, he₂, hm₂⟩ := h₂.marks
    refine ⟨ms₁ ++ ms₂, by rw [he₂, he₁, List.append_assoc], ?_⟩
    intro p hp
    rcases List.mem_append.mp hp with hp | hp
    · exact hm₁ p hp
    · exact ⟨(hm₂ p hp).1, Nat.le_trans h₁.size_le (hm₂ p hp).2⟩

/-- The instance has taken the next two buffers for K and V, and what it did
not hold is as it was. -/
structure Replaced (w w' : World) : Prop where
  clock_eq : w'.clock = w.clock
  K : w'.drbg.K = some w.heap.size
  V : w'.drbg.V = some (w.heap.size + 1)
  size : w'.heap.size = w.heap.size + 2
  read_eq : ∀ l < w.heap.size, ¬IsHeld w l → w'.heap.read l = w.heap.read l
  marks : w'.marks = w.marks
    ++ [(.drbgState, w.heap.size), (.drbgState, w.heap.size + 1)]

theorem Replaced.live (hr : Replaced w w') :
    Live w' w.heap.size (w.heap.size + 1) where
  K := hr.K
  V := hr.V
  k_lt := by
    rw [hr.size]
    omega
  v_lt := by
    rw [hr.size]
    omega
  ne := by omega

theorem Replaced.kept (hr : Replaced w w') : Kept w w' where
  clock_eq := hr.clock_eq
  size_le := by
    rw [hr.size]
    omega
  read_eq := hr.read_eq
  held l hl := by
    right
    rw [IsHeld, hr.K, hr.V] at hl
    rcases hl with hl | hl
    · exact Nat.le_of_eq (Option.some.inj hl)
    · exact Option.some.inj hl ▸ Nat.le_succ _
  marks := by
    refine ⟨_, hr.marks, fun p hp => ?_⟩
    simp only [List.mem_cons, List.not_mem_nil, or_false] at hp
    rcases hp with rfl | rfl
    · exact ⟨rfl, Nat.le_refl _⟩
    · exact ⟨rfl, Nat.le_succ _⟩

/-- Nothing is left behind if what was held is wiped: the arrays that are
dropped are those that were held, and no other array was written to. -/
theorem Replaced.clean (hr : Replaced w w')
    (hwiped : ∀ l < w.heap.size, IsHeld w l → AllZero (w'.heap.read l))
    (hclean : Clean w) : Clean w' := by
  intro l hm
  rw [hr.size]
  simp only [hr.marks, List.mem_append, List.mem_cons, List.not_mem_nil,
    or_false, Prod.mk.injEq, true_and] at hm
  rcases hm with hm | rfl | rfl
  · obtain ⟨hlt, hh⟩ := hclean l hm
    refine ⟨by omega, Or.inr ?_⟩
    by_cases hheld : IsHeld w l
    · exact hwiped l hlt hheld
    · rw [hr.read_eq l hlt hheld]
      exact hh.resolve_left hheld
  · exact ⟨by omega, Or.inl (Or.inl hr.K)⟩
  · exact ⟨by omega, Or.inl (Or.inr hr.V)⟩

-- ========================================================= #update

/-- The heap after two buffers are replaced: `a` and `b` are allocated,
`k` and `v` overwritten. -/
private theorem heap_replaced {H : Heap Bytes} {k v : Nat}
    (hk : k < H.size) (hv : v < H.size) (hne : k ≠ v) (a b a' b' : Bytes) :
    let H' := (((H.alloc a).2.alloc b).2.write k a').write v b'
    H'.size = H.size + 2 ∧ H'.read H.size = a ∧ H'.read (H.size + 1) = b
      ∧ H'.read k = a' ∧ H'.read v = b'
      ∧ ∀ l < H.size, l ≠ k → l ≠ v → H'.read l = H.read l := by
  intro H'
  have hkn : k ≠ H.size := Nat.ne_of_lt hk
  have hvn : v ≠ H.size := Nat.ne_of_lt hv
  have hkn' : k ≠ H.size + 1 := Nat.ne_of_lt (Nat.lt_succ_of_lt hk)
  have hvn' : v ≠ H.size + 1 := Nat.ne_of_lt (Nat.lt_succ_of_lt hv)
  have hb : ((H.alloc a).2.alloc b).2.read (H.size + 1) = b := by
    have := Heap.read_alloc_self (H.alloc a).2 b
    rwa [Heap.size_alloc] at this
  refine ⟨by simp [H'], ?_, ?_, ?_, ?_, ?_⟩
  · rw [Heap.read_write_of_ne hvn, Heap.read_write_of_ne hkn,
      Heap.read_alloc_of_lt (by simp), Heap.read_alloc_self]
  · rw [Heap.read_write_of_ne hvn', Heap.read_write_of_ne hkn', hb]
  · rw [Heap.read_write_of_ne (Ne.symm hne),
      Heap.read_write_self (by simp; omega)]
  · exact Heap.read_write_self (by simp; omega) _
  · intro l hl hlk hlv
    rw [Heap.read_write_of_ne (Ne.symm hlv),
      Heap.read_write_of_ne (Ne.symm hlk),
      Heap.read_alloc_of_lt (by simp; omega), Heap.read_alloc_of_lt hl]

/-- The state `#step` leaves of a message that `concat` has joined. -/
def keyed (h : Bytes → Bytes → Mac) (message : Bytes)
    (s : WorkingState) : WorkingState :=
  let K := macOf h s.K message
  { s with K, V := macOf h K s.V }

/-- The state `#step` leaves: both halves of one pass of
HMAC_DRBG_Update. -/
abbrev stepped (h : Bytes → Bytes → Mac) (byte : UInt8) (provided : Bytes)
    (s : WorkingState) : WorkingState :=
  keyed h (s.V ++ byte :: provided) s

/-- `#step` replaces K and V by their successors and wipes both. The two new
arrays are in memory before the old ones are overwritten, so the world stays
clean if it was. -/
theorem wp_step_joined (hs : Holds w s) (byte : UInt8) {a : ByteArg}
    {message : Bytes}
    (hcat : concat [.bytes s.V, .arrayLike [some byte], a] = .ok message) :
    Eff.wp (HmacDrbg.step (Hmac.ofFunction h) byte a)
      (fun _ w' => Holds w' (keyed h message s) ∧ Kept w w'
        ∧ (Clean w → Clean w'))
      (fun _ _ => False) w := by
  obtain ⟨k, v, hl, rfl⟩ := hs
  unfold HmacDrbg.step
  simp only [Eff.wp_bind, Eff.wp_get, hl.K, hl.V, wp_nonNull_some, hcat,
    Eff.wp_ofExcept_ok, wp_contents]
  refine wp_hmac_ofFunction ?_
  simp only [wp_newArray, HmacDrbg.wp_setK]
  refine wp_hmac_ofFunction ?_
  simp only [HmacDrbg.wp_setV, wp_fillZero, Heap.size_alloc,
    Heap.read_alloc_self, Heap.read_alloc_of_lt hl.v_lt]
  obtain ⟨hsize, hk', hv', hk, hv, hread⟩ := heap_replaced hl.k_lt hl.v_lt
    hl.ne _ _ _ _
  refine (fun hr : Replaced w _ =>
    ⟨⟨_, _, hr.live, ?_⟩, hr.kept, hr.clean ?_⟩) ?_
  · refine ⟨rfl, rfl, rfl, hsize, ?_, by simp⟩
    intro l hlt hn
    exact hread l hlt (fun hc => hn (Or.inl (hc ▸ hl.K)))
      fun hc => hn (Or.inr (hc ▸ hl.V))
  · rw [hk', hv']
    rfl
  · rintro l - (hheld | hheld)
    · obtain rfl := Option.some.inj (hl.K.symm.trans hheld)
      rw [show Heap.read _ k = _ from hk]
      exact allZero_replicate _
    · obtain rfl := Option.some.inj (hl.V.symm.trans hheld)
      rw [show Heap.read _ v = _ from hv]
      exact allZero_replicate _

/-- The same of an argument with content. -/
theorem wp_step (hs : Holds w s) (byte : UInt8) {a : ByteArg} {p : Bytes}
    (ha : a.content? = some p) :
    Eff.wp (HmacDrbg.step (Hmac.ofFunction h) byte a)
      (fun _ w' => Holds w' (stepped h byte p s) ∧ Kept w w'
        ∧ (Clean w → Clean w'))
      (fun _ _ => False) w := by
  apply wp_step_joined hs byte
  rw [concat_of_contents (c := [s.V, [byte], p]) (by
    rw [List.map_cons, List.map_cons, List.map_singleton, ha]
    rfl)]
  simp

/-- HMAC_DRBG_Update, in bytes. -/
abbrev specUpdate (h : Bytes → Bytes → Mac) (provided : Bytes)
    (s : WorkingState) : WorkingState :=
  Lib.HmacDrbg.update (macOf h) 0 1 provided s

/-- HMAC_DRBG_Update is one pass, and a second one when data is
provided. -/
theorem specUpdate_eq (p : Bytes) :
    specUpdate h p s
      = if p = [] then stepped h 0 p s
        else stepped h 1 p (stepped h 0 p s) := rfl

/-- `#update` is HMAC_DRBG_Update: one step with the byte 0, and a second
with the byte 1 if there is data, which is where the specification ends
early. -/
theorem wp_update (hs : Holds w s) {a : ByteArg} {p : Bytes}
    (ha : a.content? = some p) :
    Eff.wp (HmacDrbg.update (Hmac.ofFunction h) a)
      (fun _ w' => Holds w' (specUpdate h p s) ∧ Kept w w'
        ∧ (Clean w → Clean w'))
      (fun _ _ => False) w := by
  unfold HmacDrbg.update
  simp only [Eff.wp_bind]
  refine Eff.wp_mono (wp_step hs 0x00 ha) ?_ fun _ _ hf => hf
  intro _ w₁ hpost
  obtain ⟨hs₁, hk₁, hc₁⟩ := hpost
  rw [ByteArg.length_of_content ha, Eff.wp_ofExcept_ok, Eff.wp_ite,
    specUpdate_eq]
  by_cases hp : p = []
  · subst hp
    exact ⟨fun _ => ⟨hs₁, hk₁, hc₁⟩, fun hn => absurd rfl hn⟩
  · have hne : ¬JsNumber.finite p.length = .finite 0 := by simpa using hp
    rw [if_neg hp]
    refine ⟨fun hn => absurd hn hne, fun _ => ?_⟩
    refine Eff.wp_mono (wp_step hs₁ 0x01 ha) ?_ fun _ _ hf => hf
    intro _ w₂ hpost
    obtain ⟨hs₂, hk₂, hc₂⟩ := hpost
    exact ⟨hs₂, hk₁.trans hk₂, fun hc => hc₂ (hc₁ hc)⟩

/-- The V of a pass is an output. -/
theorem specUpdate_V_length (p : Bytes) :
    (specUpdate h p s).V.length = outlen := by
  rw [specUpdate_eq]
  split
  next => exact (h _ _).2
  next => exact (h _ _).2

/-- The V after some blocks of output has the length of an output. -/
theorem block_length (hv : s.V.length = outlen) (i : Nat) :
    (Lib.HmacDrbg.block (macOf h) s.K s.V i).length = outlen := by
  cases i with
  | zero => exact hv
  | succ i =>
      unfold Lib.HmacDrbg.block
      rw [Function.iterate_succ_apply']
      exact (h _ _).2

/-- An argument that can be joined is taken, whatever is made of it: K and V
stay whole and the counter as it was. Here no content is known, so no state
is named. -/
theorem wp_update_joins (hs : Holds w s) (hv : s.V.length = outlen)
    {a : ByteArg} (ha : a.Joins) :
    Eff.wp (HmacDrbg.update (Hmac.ofFunction h) a)
      (fun _ w' => ∃ s', Holds w' s' ∧ s'.V.length = outlen
        ∧ s'.reseedCounter = s.reseedCounter)
      (fun _ _ => False) w := by
  obtain ⟨message, hcat⟩ := concat_ok_iff.mpr
    ((ByteArg.joins_iff hv 0x00).mpr ha)
  have hlength := ha
  obtain ⟨n, hn, -⟩ := hlength
  unfold HmacDrbg.update
  rw [Eff.wp_bind]
  refine Eff.wp_mono (wp_step_joined hs 0x00 hcat) ?_ fun _ _ hf => hf
  intro _ w₁ hpost
  obtain ⟨hs₁, -, -⟩ := hpost
  have hv₁ : (keyed h message s).V.length = outlen := (h _ _).2
  rw [Eff.wp_bind, hn, Eff.wp_ofExcept_ok, Eff.wp_ite]
  refine ⟨fun _ => ⟨_, hs₁, hv₁, rfl⟩, fun _ => ?_⟩
  obtain ⟨message', hcat'⟩ := concat_ok_iff.mpr
    ((ByteArg.joins_iff hv₁ 0x01).mpr ha)
  refine Eff.wp_mono (wp_step_joined hs₁ 0x01 hcat') ?_ fun _ _ hf => hf
  intro _ w₂ hpost
  obtain ⟨hs₂, -, -⟩ := hpost
  exact ⟨_, hs₂, (h _ _).2, rfl⟩

/-- Any other stops the update before it changes anything, since the
arguments are joined before K is replaced. -/
theorem wp_update_not_joins {hmac : Hmac} (hs : Holds w s)
    (hv : s.V.length = outlen) {a : ByteArg} (ha : ¬a.Joins) :
    Eff.wp (HmacDrbg.update hmac a) (fun _ _ => False)
      (fun _ w' => w' = w) w := by
  obtain ⟨k, v, hl, rfl⟩ := hs
  cases hcat : concat [.bytes (w.heap.read v), .arrayLike [some 0x00], a] with
  | ok m =>
      exact absurd ((ByteArg.joins_iff hv 0x00).mp
        (concat_ok_iff.mp ⟨m, hcat⟩)) ha
  | error e =>
      unfold HmacDrbg.update HmacDrbg.step
      simp only [Eff.wp_bind, Eff.wp_get, hl.K, hl.V, wp_nonNull_some, hcat,
        Eff.wp_ofExcept_error]

/-- The counter alone changes. -/
theorem Holds.setCounter (hs : Holds w s) (n : Nat) :
    Holds { w with drbg := { w.drbg with counter := n } }
      { s with reseedCounter := n } := by
  obtain ⟨k, v, hl, rfl⟩ := hs
  exact ⟨k, v, ⟨hl.K, hl.V, hl.k_lt, hl.v_lt, hl.ne⟩, rfl⟩

/-- Only the heap and the instance matter. -/
theorem Holds.congr (hs : Holds w s) (hh : w'.heap = w.heap)
    (hd : w'.drbg = w.drbg) : Holds w' s := by
  obtain ⟨k, v, hl, rfl⟩ := hs
  refine ⟨k, v, ⟨?_, ?_, ?_, ?_, hl.ne⟩, ?_⟩
  · rw [hd, hl.K]
  · rw [hd, hl.V]
  · rw [hh]
    exact hl.k_lt
  · rw [hh]
    exact hl.v_lt
  · rw [hh, hd]

theorem Holds.counter_eq (hs : Holds w s) :
    w.drbg.counter = s.reseedCounter := by
  obtain ⟨k, v, -, rfl⟩ := hs
  rfl

theorem Kept.setCounter (hk : Kept w w') (n : Nat) :
    Kept w { w' with drbg := { w'.drbg with counter := n } } :=
  ⟨hk.clock_eq, hk.size_le, hk.read_eq, hk.held, hk.marks⟩

theorem Clean.setCounter (hc : Clean w) (n : Nat) :
    Clean { w with drbg := { w.drbg with counter := n } } := hc

-- =========================================== seeding and reseeding

/-- The two arrays `instantiate` puts in place before its update. An
instance that held nothing drops nothing. -/
theorem wp_install {α : Type} {rest : Proc α} {Q : α → World → Prop}
    {E : JsError → World → Prop}
    (hQ : ∀ w', Holds w' {
        K := List.replicate outlen 0
        V := List.replicate outlen 1
        reseedCounter := w.drbg.counter } →
      Kept w w' → (w.drbg.K = none → w.drbg.V = none → Clean w → Clean w') →
      Eff.wp rest Q E w') :
    Eff.wp (do
        HmacDrbg.setK (← newArray (List.replicate outlen 0))
        HmacDrbg.setV (← newArray (List.replicate outlen 1))
        rest) Q E w := by
  simp only [Eff.wp_bind, wp_newArray, HmacDrbg.wp_setK, HmacDrbg.wp_setV,
    Heap.size_alloc]
  refine (fun hr : Replaced w _ =>
    hQ _ ⟨_, _, hr.live, ?_⟩ hr.kept fun hK hV => hr.clean ?_) ?_
  · have h₁ := Heap.read_alloc_self
      (w.heap.alloc (List.replicate outlen 0)).2
      (List.replicate outlen (1 : UInt8))
    rw [Heap.size_alloc] at h₁
    rw [Heap.read_alloc_of_lt (by simp), Heap.read_alloc_self, h₁]
  · rintro l - (hheld | hheld)
    · rw [hK] at hheld
      cases hheld
    · rw [hV] at hheld
      cases hheld
  · refine ⟨rfl, rfl, rfl, by simp, ?_, by simp⟩
    intro l hl _
    rw [Heap.read_alloc_of_lt (by simp; omega), Heap.read_alloc_of_lt hl]

/-- HMAC_DRBG_Instantiate, in bytes. -/
abbrev specInstantiate (h : Bytes → Bytes → Mac)
    (entropyInput nonce personalization : Bytes) : WorkingState :=
  Lib.HmacDrbg.instantiate (macOf h) 0 1 outlen entropyInput nonce
    personalization

/-- `instantiate` is HMAC_DRBG_Instantiate, whatever the instance held
before. An instance that held nothing drops nothing. -/
theorem wp_instantiate (w : World) {e n : ByteArg} {p : Option ByteArg}
    {be bn bp : Bytes} (he : e.content? = some be)
    (hn : n.content? = some bn) (hp : (p.getD .empty).content? = some bp)
    (hle : minEntropyBytes ≤ be.length) (hln : minNonceBytes ≤ bn.length) :
    Eff.wp (HmacDrbg.instantiate (Hmac.ofFunction h) e n p)
      (fun _ w' => Holds w' (specInstantiate h be bn bp) ∧ Kept w w'
        ∧ (w.drbg.K = none → w.drbg.V = none → Clean w → Clean w'))
      (fun _ _ => False) w := by
  have hcat : concat [e, n, p.getD .empty] = .ok (be ++ bn ++ bp) := by
    rw [concat_of_contents (c := [be, bn, bp]) (by simp [he, hn, hp])]
    simp
  unfold HmacDrbg.instantiate
  rw [Eff.wp_bind, ByteArg.lengthBelow_of_content he, Eff.wp_ofExcept_ok,
    Eff.wp_ite, Eff.wp_bind, ByteArg.lengthBelow_of_content hn,
    Eff.wp_ofExcept_ok, Eff.wp_ite]
  simp only [decide_eq_true_eq]
  refine ⟨fun hlt => absurd hlt (by omega), fun _ =>
    ⟨fun hlt => absurd hlt (by omega), fun _ => ?_⟩⟩
  refine wp_install fun w₁ hs₁ hk₁ hc₁ => ?_
  rw [Eff.wp_bind, hcat, Eff.wp_ofExcept_ok, Eff.wp_bind]
  refine Eff.wp_mono (wp_update hs₁ (ByteArg.content?_bytes _)) ?_
    fun _ _ hf => hf
  intro _ w₂ hpost
  obtain ⟨hs₂, hk₂, hc₂⟩ := hpost
  rw [HmacDrbg.wp_setCounter, specInstantiate,
    Lib.HmacDrbg.instantiate_eq (macOf h) 0 1 outlen be bn bp w.drbg.counter]
  exact ⟨hs₂.setCounter 1, (hk₁.trans hk₂).setCounter 1,
    fun hK hV hc => (hc₂ (hc₁ hK hV hc)).setCounter 1⟩

/-- HMAC_DRBG_Reseed, in bytes. -/
abbrev specReseed (h : Bytes → Bytes → Mac) (s : WorkingState)
    (entropyInput additionalInput : Bytes) : WorkingState :=
  Lib.HmacDrbg.reseed (macOf h) 0 1 s entropyInput additionalInput

/-- An instance that holds arrays passes `#requireInstantiated`. -/
theorem wp_requireInstantiated (hs : Holds w s) {Q : Unit → World → Prop}
    {E : JsError → World → Prop} :
    Eff.wp HmacDrbg.requireInstantiated Q E w = Q () w := by
  obtain ⟨k, v, hl, -⟩ := hs
  unfold HmacDrbg.requireInstantiated
  simp [hl.K]

/-- `reseed` is HMAC_DRBG_Reseed: one update with the entropy and the
additional input, and the counter set to one. -/
theorem wp_reseed (hs : Holds w s) {e : ByteArg} {a : Option ByteArg}
    {be ba : Bytes} (he : e.content? = some be)
    (ha : (a.getD .empty).content? = some ba)
    (hle : minEntropyBytes ≤ be.length) :
    Eff.wp (HmacDrbg.reseed (Hmac.ofFunction h) e a)
      (fun _ w' => Holds w' (specReseed h s be ba) ∧ Kept w w'
        ∧ (Clean w → Clean w'))
      (fun _ _ => False) w := by
  have hcat : concat [e, a.getD .empty] = .ok (be ++ ba) := by
    rw [concat_of_contents (c := [be, ba]) (by simp [he, ha])]
    simp
  unfold HmacDrbg.reseed
  simp only [Eff.wp_bind, wp_requireInstantiated hs,
    ByteArg.lengthBelow_of_content he, Eff.wp_ofExcept_ok, Eff.wp_ite,
    decide_eq_true_eq, hcat]
  refine ⟨fun hlt => absurd hlt (by omega), fun _ => ?_⟩
  refine Eff.wp_mono (wp_update hs (ByteArg.content?_bytes _)) ?_
    fun _ _ hf => hf
  intro _ w₁ hpost
  obtain ⟨hs₁, hk₁, hc₁⟩ := hpost
  rw [HmacDrbg.wp_setCounter]
  exact ⟨hs₁.setCounter 1, hk₁.setCounter 1,
    fun hc => (hc₁ hc).setCounter 1⟩

-- ========================================================= generate

/-- The world after a fresh V is put in place of the held one, which is
not wiped. -/
private theorem holds_nextV {k v : Nat} (hl : Live w k v) (b : Bytes)
    (macs : Nat) (trace : List Event) :
    let w₁ : World := {
      heap := (w.heap.alloc b).2
      clock := w.clock
      macs
      drbg := { w.drbg with V := some w.heap.size }
      marks := w.marks ++ [(.drbgState, w.heap.size)]
      trace }
    Holds w₁ {
        K := w.heap.read k
        V := b
        reseedCounter := w.drbg.counter }
      ∧ Kept w w₁ ∧ w₁.heap.read w.heap.size = b := by
  intro w₁
  have hnew : w₁.heap.read w.heap.size = b := Heap.read_alloc_self _ _
  have hold : ∀ l < w.heap.size, w₁.heap.read l = w.heap.read l :=
    fun l hl => Heap.read_alloc_of_lt hl b
  have hsize : w₁.heap.size = w.heap.size + 1 := Heap.size_alloc _ _
  have hk := hl.k_lt
  refine ⟨⟨k, w.heap.size, ⟨hl.K, rfl, by omega, by omega, by omega⟩, ?_⟩,
    ⟨rfl, by omega, ?_, ?_, ?_⟩, hnew⟩
  · rw [hnew, hold k hk]
  · exact fun l hlt _ => hold l hlt
  · intro l hm
    rcases hm with hc | hc
    · exact Or.inl (Or.inl hc)
    · injection hc with hc
      exact Or.inr (Nat.le_of_eq hc)
  · refine ⟨[(.drbgState, w.heap.size)], rfl, ?_⟩
    intro p hp
    rw [List.mem_singleton] at hp
    subst hp
    exact ⟨rfl, Nat.le_refl _⟩

/-- The loop of `generate` appends the leftmost bytes of
`V₁ ‖ V₂ ‖ …` to what it has filled and leaves the last V it used. -/
theorem wp_fillOutput (bytes : Nat) :
    ∀ (rest filled : Nat) (done : Bytes) (w : World) (s : WorkingState),
      Holds w s → done.length = filled → filled + rest = bytes →
      Eff.wp (HmacDrbg.fillOutput (Hmac.ofFunction h) bytes filled
          (done ++ List.replicate rest 0))
        (fun out w' =>
          let m := Lib.HmacDrbg.blockCount outlen rest
          out = done ++ (Lib.HmacDrbg.blocks (macOf h) s.K s.V 0 m).take rest
            ∧ Holds w' { s with V := Lib.HmacDrbg.block (macOf h) s.K s.V m }
            ∧ Kept w w')
        (fun _ _ => False) w := by
  intro rest
  induction rest using Nat.strong_induction_on with
  | _ rest ih =>
      intro filled done w s hs hd hr
      unfold HmacDrbg.fillOutput
      by_cases hrest : rest = 0
      · subst hrest
        rw [if_neg (by omega), Eff.wp_pure]
        have hzero : Lib.HmacDrbg.blockCount outlen 0 = 0 := rfl
        simp only [hzero]
        refine ⟨?_, ?_, Kept.refl w⟩
        · simp
        · exact hs
      · rw [if_pos (by omega)]
        obtain ⟨k, v, hl, rfl⟩ := hs
        simp only [Eff.wp_bind, Eff.wp_get, hl.K, hl.V, wp_nonNull_some,
          wp_contents]
        refine wp_hmac_ofFunction ?_
        simp only [wp_newArray, HmacDrbg.wp_setV, Heap.read_alloc_self,
          show bytes - filled = rest from by omega]
        obtain ⟨hs₁, hk₁, -⟩ := holds_nextV hl
          (macOf h (w.heap.read k) (w.heap.read v)) (w.macs + 1)
          (w.trace ++ [.hmac true])
        have hlen := (h (w.heap.read k) (w.heap.read v)).2
        have htake : 0 < min outlen rest := by
          simp only [outlen]
          omega
        have hle : min outlen rest ≤ rest := Nat.min_le_right _ _
        -- the output so far, the cut block and the rest still zero
        have hset : setAt (done ++ List.replicate rest 0)
            (.bytes ((macOf h (w.heap.read k) (w.heap.read v)).take
              (min outlen rest))) (.finite filled)
            = .ok ((done ++ (macOf h (w.heap.read k) (w.heap.read v)).take
                (min outlen rest))
              ++ List.replicate (rest - min outlen rest) 0) := by
          subst hd
          rw [setAt_of_content (ByteArg.content?_bytes _)
            (by simp [hlen]), List.take_left, List.drop_append,
            List.drop_replicate]
          simp [hlen]
        rw [hset, Eff.wp_ofExcept_ok]
        refine Eff.wp_mono (ih (rest - min outlen rest) (by omega) _ _ _ _
          hs₁ (by simp [hlen, hd]) (by omega)) ?_ fun _ _ hf => hf
        intro out w₂ hpost
        obtain ⟨hout, hs₂, hk₂⟩ := hpost
        have hcount := Lib.HmacDrbg.blockCount_pos
          (show 0 < outlen by decide) (Nat.pos_of_ne_zero hrest)
        refine ⟨?_, ?_, hk₁.trans hk₂⟩
        · rw [hout, hcount, Lib.HmacDrbg.take_blocks_succ _ outlen _ _ _ _ hlen,
            List.append_assoc]
        · rw [hcount]
          exact hs₂

/-- The update before the output, made when input is provided. -/
theorem wp_updateIfProvided (hs : Holds w s) {a : ByteArg} {ba : Bytes}
    (ha : a.content? = some ba) :
    Eff.wp (HmacDrbg.updateIfProvided (Hmac.ofFunction h) a)
      (fun _ w' => Holds w' (if ba = [] then s else specUpdate h ba s)
        ∧ Kept w w' ∧ (Clean w → Clean w'))
      (fun _ _ => False) w := by
  unfold HmacDrbg.updateIfProvided
  simp only [Eff.wp_bind, ByteArg.length_of_content ha, Eff.wp_ofExcept_ok,
    Eff.wp_ite, JsNumber.lt_zero_natCast, decide_eq_true_eq, Eff.wp_pure]
  refine ⟨fun hpos => ?_, fun hpos => ?_⟩
  · rw [if_neg (List.ne_nil_of_length_pos hpos)]
    exact wp_update hs ha
  · rw [if_pos (List.eq_nil_of_length_eq_zero (by omega))]
    exact ⟨hs, Kept.refl w, id⟩

/-- Before the output an argument that does not pass stops the call, with
nothing changed. -/
theorem wp_updateIfProvided_not_passes {hmac : Hmac} (hs : Holds w s)
    (hv : s.V.length = outlen) {a : ByteArg} (ha : ¬a.Passes) :
    Eff.wp (HmacDrbg.updateIfProvided hmac a) (fun _ _ => False)
      (fun _ w' => w' = w) w := by
  unfold HmacDrbg.updateIfProvided
  rw [Eff.wp_bind]
  cases hlength : a.length with
  | error e => rfl
  | ok n =>
      have hprovided : JsNumber.lt (.finite 0) n = true ∧ ¬a.Joins := by
        rw [← Classical.not_imp]
        exact fun hx => ha ⟨n, hlength, hx⟩
      rw [Eff.wp_ofExcept_ok, Eff.wp_ite]
      exact ⟨fun _ => wp_update_not_joins hs hv hprovided.2,
        fun hn => absurd hprovided.1 hn⟩

/-- One that passes is taken or passed over. -/
theorem wp_updateIfProvided_passes (hs : Holds w s)
    (hv : s.V.length = outlen) {a : ByteArg} (ha : a.Passes) :
    Eff.wp (HmacDrbg.updateIfProvided (Hmac.ofFunction h) a)
      (fun _ w' => ∃ s', Holds w' s' ∧ s'.V.length = outlen
        ∧ s'.reseedCounter = s.reseedCounter)
      (fun _ _ => False) w := by
  obtain ⟨n, hn, hjoins⟩ := ha
  unfold HmacDrbg.updateIfProvided
  rw [Eff.wp_bind, hn, Eff.wp_ofExcept_ok, Eff.wp_ite]
  exact ⟨fun hpos => wp_update_joins hs hv (hjoins hpos),
    fun _ => ⟨s, hs, hv, rfl⟩⟩

/-- HMAC_DRBG_Generate, in bytes. -/
abbrev specGenerate (h : Bytes → Bytes → Mac) (s : WorkingState)
    (requested : Nat) (additionalInput : Bytes) : Bytes × WorkingState :=
  Lib.HmacDrbg.generate (macOf h) 0 1 outlen s requested additionalInput

/-- `generate` is HMAC_DRBG_Generate on every request it admits: the output
and the working state are those of the specification, with the update in
front only where the additional input is not empty. -/
theorem wp_generate (hs : Holds w s) {n : Nat} {bytes : JsVal}
    {a : Option ByteArg} {ba : Bytes}
    (hn : HmacDrbg.isInteger? bytes = some (n : Int)) (h1 : 1 ≤ n)
    (hmax : n ≤ maxBytesPerRequest) (hc : s.reseedCounter ≤ reseedInterval)
    (ha : (a.getD .empty).content? = some ba) :
    Eff.wp (HmacDrbg.generate (Hmac.ofFunction h) bytes a)
      (fun out w' => out = (specGenerate h s n ba).1
        ∧ Holds w' (specGenerate h s n ba).2 ∧ Kept w w')
      (fun _ _ => False) w := by
  have hcounter := hs.counter_eq
  have hdue : HmacDrbg.reseedRequired w.drbg = false := by
    simp only [HmacDrbg.reseedRequired, decide_eq_false_iff_not]
    omega
  unfold HmacDrbg.generate
  simp only [Eff.wp_bind, wp_requireInstantiated hs, hn]
  rw [Eff.wp_ite]
  refine ⟨fun hor => absurd hor (by omega), fun _ => ?_⟩
  simp only [Eff.wp_bind, Eff.wp_get, hdue, Bool.false_eq_true, if_false]
  refine Eff.wp_mono (wp_updateIfProvided hs ha) ?_ fun _ _ hf => hf
  intro _ w₁ hpost
  obtain ⟨hs₁, hk₁, -⟩ := hpost
  refine Eff.wp_mono (wp_fillOutput n n 0 [] w₁ _ hs₁ rfl (by omega)) ?_
    fun _ _ hf => hf
  intro out w₂ hpost
  obtain ⟨hout, hs₂, hk₂⟩ := hpost
  refine Eff.wp_mono (wp_update hs₂ ha) ?_ fun _ _ hf => hf
  intro _ w₃ hpost
  obtain ⟨hs₃, hk₃, -⟩ := hpost
  simp only [HmacDrbg.wp_setCounter, Eff.wp_pure]
  refine ⟨hout, ?_, ((hk₁.trans hk₂).trans hk₃).setCounter _⟩
  rw [hs₃.counter_eq, Lib.HmacDrbg.update_reseedCounter]
  exact hs₃.setCounter _

end KxcoPostQuantum.Fips
