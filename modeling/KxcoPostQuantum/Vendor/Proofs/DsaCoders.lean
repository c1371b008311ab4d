/-
The coders of ML-DSA polynomials: what they keep, and which bytes they
accept.

Each of them packs a coefficient as a word that `compress` makes of it and
makes the coefficient of again. Where `compress` undoes itself on words
(`Involutive`), every polynomial whose coefficients are made of words comes
back from its bytes (`Involutive.writes`), the coefficients that are read
are of that kind (`Involutive.reads`), and bytes that are read at all are
those their polynomial is written as (`Involutive.canonical`). The four
coders of keys and signatures are such (`eta_involutive`, `t0_involutive`,
`t1_involutive`, `z_involutive`).
-/
import KxcoPostQuantum.Vendor.Proofs.DsaPoly
import KxcoPostQuantum.Vendor.Proofs.BitsCoder

namespace KxcoPostQuantum.Vendor.MlDsa

open Lib

-- ======================================================== coefficients

/-- `compress` undoes itself on words of `d` bits. -/
structure Involutive (d : ℕ) (compress : ℤ → ℤ) (verify : ℤ → Run ℤ) :
    Prop where
  short : 0 < d ∧ d ≤ 24
  back : ∀ w : ℕ, w < 2 ^ d → compress (compress w) = w
  keeps : ∀ w : ℕ, w < 2 ^ d → Keeps Int32 (compress w)
  verified : ∀ {x y}, verify x = .ok y → y = x

/-- A coefficient that is made of a word, and passes the check. -/
def Coded (d : ℕ) (compress : ℤ → ℤ) (verify : ℤ → Run ℤ) (x : ℤ) : Prop :=
  verify x = .ok x ∧ ∃ w : ℕ, w < 2 ^ d ∧ x = compress w

section

variable {d : ℕ} {compress : ℤ → ℤ} {verify : ℤ → Run ℤ}

/-- What `polyCoder` makes of a coefficient, and of a word. -/
def coefCoder (compress : ℤ → ℤ) (verify : ℤ → Run ℤ) : CoefCoder where
  encode := fun i => do return .finite (compress (← verify i))
  decode := fun i => verify (compress i)

/-- What `polyCoder` packs with. -/
theorem polyCoder_eq : polyCoder d compress verify
    = packed d (coefCoder compress verify) := rfl

/-- A coefficient that is verified is written as its word. -/
theorem coefCoder_encode {x y : ℤ} (h : verify x = .ok y) :
    (coefCoder compress verify).encode x = .ok (.finite (compress y)) :=
  run_map_ok.mpr ⟨y, h, rfl⟩

namespace Involutive

variable (h : Involutive d compress verify)

include h

/-- A word that is read fits in the array. -/
theorem kept : (coefCoder compress verify).Kept d Int32 := by
  intro x y hx hy
  rw [h.verified hy]
  exact h.keeps x hx

/-- A number that is read from a word is written as that word. -/
theorem word {w : ℕ} (hw : w < 2 ^ d) :
    (JsNumber.finite (compress (compress w))).truncate % 2 ^ d = w := by
  rw [h.back w hw, JsNumber.truncate_intCast]
  exact Int.emod_eq_of_lt (Int.natCast_nonneg w) (by exact_mod_cast hw)

/-- A polynomial of coded coefficients comes back from its bytes. -/
theorem writes {p : Poly} (hp : ∀ i < N, Coded d compress verify (get p i)) :
    ∃ b, (polyCoder d compress verify).Writes p b := by
  choose! hverify w hw hword using hp
  rw [polyCoder_eq]
  apply packed_writes (w := w) h.short.2 h.short.1 (by decide) h.kept
  · intro i hi
    refine ⟨_, coefCoder_encode (hverify i hi), ?_⟩
    rw [hword i hi]
    exact h.word (hw i hi)
  · intro i hi
    show verify (compress (w i)) = _
    rw [← hword i hi]
    exact hverify i hi

/-- **Each polynomial has one encoding.** -/
theorem canonical : (polyCoder d compress verify).Canonical := by
  rw [polyCoder_eq]
  apply packed_canonical h.short.2 h.short.1 (by decide) h.kept
  intro x y hx hy
  obtain rfl := h.verified hy
  exact ⟨_, coefCoder_encode hy, h.word hx⟩

/-- What is read is coded. -/
theorem reads {b : Bytes} {p : Poly}
    (hb : b.length = (polyCoder d compress verify).bytesLen)
    (hp : (polyCoder d compress verify).decode b = .ok p) :
    ∀ i < N, Coded d compress verify (get p i) := by
  rw [polyCoder_eq] at hp
  obtain ⟨r, hr, htotal⟩ := exists_words (N := N) (by decide) hb
  have hread := decode_packed h.short.2 h.short.1 (by decide) h.kept hb hr
    htotal hp
  intro i hi
  have hword : verify (compress (r i)) = .ok (get p i) := hread i hi
  have hsame := h.verified hword
  rw [← hsame] at hword
  exact ⟨hword, r i, hr i hi, hsame⟩

end Involutive

end

/-- A coder that checks nothing returns. -/
theorem polyCoder_returns {d : ℕ} {compress : ℤ → ℤ}
    (h : Involutive d compress pure) {b : Bytes}
    (hb : b.length = (polyCoder d compress pure).bytesLen) :
    ∃ p, (polyCoder d compress pure).decode b = .ok p := by
  obtain ⟨r, hr, htotal⟩ := exists_words (N := N) (by decide) hb
  exact decode_packed_returns h.short.2 h.short.1 (by decide) h.kept hb hr
    htotal fun j _ => ⟨compress (r j), rfl⟩

/-- Polynomials whose coefficients make the same words are written alike. -/
theorem polyCoder_encode_congr {d : ℕ} {compress : ℤ → ℤ} {p p' : Poly}
    (h : ∀ i < N, compress (get p i) = compress (get p' i)) :
    (polyCoder d compress pure).encode p
      = (polyCoder d compress pure).encode p' := by
  apply encode_congr (c := coefCoder compress pure)
  intro i hi
  show Except.ok (JsNumber.finite (compress (get p i) : ℤ)) = _
  rw [h i hi]
  rfl

-- =============================================================== coders

variable (P : Params)

/-- The widths of the words of `ETACoder`, with its range. -/
theorem eta_cases : (P.ETA = 2 ∧ (if P.ETA = 2 then 3 else 4) = 3)
    ∨ (P.ETA = 4 ∧ (if P.ETA = 2 then 3 else 4) = 4) := by
  rcases P.eta_known with h | h
  · exact Or.inl ⟨h, if_pos h⟩
  · exact Or.inr ⟨h, if_neg (by omega)⟩

/-- The coder of the secrets: what is verified is that they are short. -/
theorem eta_involutive : Involutive (if P.ETA = 2 then 3 else 4)
    (fun i => P.ETA - i) (verifyEta P) := by
  have hcases := eta_cases P
  refine ⟨by omega, fun w _ => sub_sub_cancel _ _, ?_, ?_⟩
  · intro w hw
    apply keeps_of_abs
    rw [abs_le]
    rcases hcases with ⟨heta, hbits⟩ | ⟨heta, hbits⟩ <;> rw [hbits] at hw
      <;> omega
  · intro x y hxy
    unfold verifyEta at hxy
    split at hxy
    next => exact (Except.ok.inj hxy).symm
    next => cases hxy

/-- Its coefficients are those of at most `eta`. The difference from `eta`
fits in the word, and the check that the program makes when it decodes
leaves out the words above twice `eta`. -/
theorem eta_coded {x : ℤ} : Coded (if P.ETA = 2 then 3 else 4)
    (fun i => P.ETA - i) (verifyEta P) x ↔ |x| ≤ P.ETA := by
  have hcases := eta_cases P
  rw [abs_le]
  constructor
  · intro h
    obtain ⟨hverify, -⟩ := h
    unfold verifyEta at hverify
    split at hverify
    next hrange => exact hrange
    next => cases hverify
  · intro h
    have hword : 0 ≤ P.ETA - x ∧ P.ETA - x ≤ 2 * P.ETA := by omega
    obtain ⟨w, hw⟩ := Int.eq_ofNat_of_zero_le hword.1
    refine ⟨?_, w, ?_, ?_⟩
    · unfold verifyEta
      exact if_pos h
    · rcases hcases with ⟨heta, hbits⟩ | ⟨heta, hbits⟩ <;> rw [hbits] <;> omega
    · dsimp only
      omega

/-- The middle of the low parts. -/
theorem shl_one_D : shl 1 (D - 1) = 4096 := by decide

/-- The coder of the low parts of a key takes differences from `2 ^ (D -
1)`. -/
theorem t0_involutive : Involutive 13 (fun i => shl 1 (D - 1) - i) pure := by
  refine ⟨by omega, fun w _ => sub_sub_cancel _ _, ?_, ?_⟩
  · intro w hw
    apply keeps_of_abs
    rw [abs_le, shl_one_D]
    omega
  · intro x y hxy
    exact (Except.ok.inj hxy).symm

/-- The low parts of a key are centered. -/
theorem t0_coded {x : ℤ} : Coded 13 (fun i => shl 1 (D - 1) - i) pure x
    ↔ -2 ^ 12 < x ∧ x ≤ 2 ^ 12 := by
  unfold Coded
  rw [shl_one_D]
  constructor
  · rintro ⟨-, w, hw, rfl⟩
    dsimp only
    omega
  · intro h
    exact ⟨rfl, (4096 - x).toNat, by omega, by dsimp only; omega⟩

/-- The coder of the high parts of a key writes them as they are. -/
theorem t1_involutive : Involutive 10 id pure := by
  refine ⟨by omega, fun _ _ => rfl, ?_, ?_⟩
  · intro w hw
    apply keeps_of_abs
    rw [abs_le]
    dsimp only [id]
    omega
  · intro x y hxy
    exact (Except.ok.inj hxy).symm

/-- The high parts of a key have ten bits. -/
theorem t1_coded {x : ℤ} : Coded 10 id pure x ↔ Reduced (2 ^ 10) x := by
  constructor
  · rintro ⟨-, w, hw, rfl⟩
    dsimp only [id]
    exact ⟨Int.natCast_nonneg w, by exact_mod_cast hw⟩
  · rintro ⟨hlow, hhigh⟩
    exact ⟨rfl, x.toNat, by omega, by dsimp only [id]; omega⟩

/-- The widths of the words of `ZCoder`, with its range. -/
theorem gamma1_cases :
    (P.GAMMA1 = 2 ^ 17 ∧ (if P.GAMMA1 = 2 ^ 17 then 18 else 20) = 18)
    ∨ (P.GAMMA1 = 2 ^ 19 ∧ (if P.GAMMA1 = 2 ^ 17 then 18 else 20) = 20) := by
  rcases P.gamma1_known with h | h
  · exact Or.inl ⟨h, if_pos h⟩
  · exact Or.inr ⟨h, if_neg (by rw [h]; norm_num)⟩

/-- Numbers below the half of the modulus are their own remainders. -/
theorem smod_of_small {x : ℤ} (h : |x| < 2 ^ 21) : smod x Q = x := by
  rw [abs_lt] at h
  rw [smod_eq (by decide) (by decide)]
  unfold Q
  split
  next => omega
  next => omega

/-- The words of a mask need no reduction. -/
theorem z_compress {w : ℕ} (hw : w < 2 ^ (if P.GAMMA1 = 2 ^ 17 then 18 else 20)) :
    smod (P.GAMMA1 - w) Q = P.GAMMA1 - w := by
  apply smod_of_small
  rw [abs_lt]
  rcases gamma1_cases P with ⟨hgamma, hbits⟩ | ⟨hgamma, hbits⟩
    <;> rw [hbits] at hw <;> omega

/-- The coder of a mask gives its words back. -/
theorem z_involutive : Involutive (if P.GAMMA1 = 2 ^ 17 then 18 else 20)
    (fun i => smod (P.GAMMA1 - i) Q) pure := by
  refine ⟨?_, ?_, ?_, ?_⟩
  · rcases gamma1_cases P with ⟨-, h⟩ | ⟨-, h⟩ <;> omega
  · intro w hw
    rw [z_compress P hw, sub_sub_cancel]
    apply smod_of_small
    rw [abs_lt]
    rcases gamma1_cases P with ⟨-, hbits⟩ | ⟨-, hbits⟩ <;> rw [hbits] at hw
      <;> omega
  · intro w hw
    apply keeps_of_abs
    rw [z_compress P hw, abs_le]
    rcases gamma1_cases P with ⟨hgamma, hbits⟩ | ⟨hgamma, hbits⟩
      <;> rw [hbits] at hw <;> omega
  · intro x y hxy
    exact (Except.ok.inj hxy).symm

/-- The coder of `z` takes coefficients from below minus `gamma1` up to it,
of which there are as many as words, so it checks nothing. -/
theorem z_coded {x : ℤ} : Coded (if P.GAMMA1 = 2 ^ 17 then 18 else 20)
    (fun i => smod (P.GAMMA1 - i) Q) pure x
      ↔ -P.GAMMA1 < x ∧ x ≤ P.GAMMA1 := by
  constructor
  · rintro ⟨-, w, hw, rfl⟩
    dsimp only
    rw [z_compress P hw]
    rcases gamma1_cases P with ⟨hgamma, hbits⟩ | ⟨hgamma, hbits⟩
      <;> rw [hbits] at hw <;> omega
  · intro h
    have hw : (P.GAMMA1 - x).toNat
        < 2 ^ (if P.GAMMA1 = 2 ^ 17 then 18 else 20) := by
      rcases gamma1_cases P with ⟨hgamma, hbits⟩ | ⟨hgamma, hbits⟩
        <;> rw [hbits] <;> omega
    refine ⟨rfl, (P.GAMMA1 - x).toNat, hw, ?_⟩
    dsimp only
    rw [z_compress P hw]
    omega

end KxcoPostQuantum.Vendor.MlDsa
