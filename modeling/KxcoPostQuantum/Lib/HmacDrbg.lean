/-
HMAC_DRBG as SP 800-90A Rev. 1 section 10.1.2 specifies it: pure
functions on a working state, over any keyed function of byte strings.

The section writes each function as a sequence of assignments; here an
assignment is a `let` of the same name. `generate` is given its output
in closed form, as the leftmost bytes of `V₁ ‖ V₂ ‖ …` where each `Vᵢ`
is the keyed function of the one before it (steps 3 to 5), rather than
as a loop.
-/
import KxcoPostQuantum.Lib.Effect
import Mathlib.Logic.Function.Iterate
import Mathlib.Data.List.Basic

namespace Lib.HmacDrbg

variable {α : Type}

/-- The working state: Key, V and reseed_counter. -/
structure State (α : Type) where
  K : List α
  V : List α
  reseedCounter : Nat

variable (mac : List α → List α → List α) (zero one : α) (outlen : Nat)

/-- HMAC_DRBG_Update, section 10.1.2.2. -/
def update (provided : List α) (s : State α) : State α :=
  let K := mac s.K (s.V ++ zero :: provided)
  let V := mac K s.V
  if provided = [] then { s with K, V }
  else
    let K := mac K (V ++ one :: provided)
    let V := mac K V
    { s with K, V }

/-- HMAC_DRBG_Instantiate_algorithm, section 10.1.2.3. -/
def instantiate (entropyInput nonce personalization : List α) : State α :=
  let seedMaterial := entropyInput ++ nonce ++ personalization
  { update mac zero one seedMaterial
      { K := List.replicate outlen zero
        V := List.replicate outlen one
        reseedCounter := 0 } with
    reseedCounter := 1 }

/-- HMAC_DRBG_Reseed_algorithm, section 10.1.2.4. -/
def reseed (s : State α) (entropyInput additionalInput : List α) : State α :=
  { update mac zero one (entropyInput ++ additionalInput) s with
    reseedCounter := 1 }

/-- `Vᵢ`: the keyed function iterated from V. -/
def block (K V : List α) (i : Nat) : List α := (mac K)^[i] V

/-- `Vᵢ₊₁ ‖ … ‖ Vᵢ₊ₘ`. -/
def blocks (K V : List α) (i m : Nat) : List α :=
  (List.range m).flatMap fun j => block mac K V (i + j + 1)

/-- How many blocks a request of that length takes. -/
def blockCount (requested : Nat) : Nat := (requested + outlen - 1) / outlen

/-- HMAC_DRBG_Generate_algorithm, section 10.1.2.5, for a request that
does not come after a due reseed. -/
def generate (s : State α) (requested : Nat)
    (additionalInput : List α) : List α × State α :=
  let s :=
    if additionalInput = [] then s else update mac zero one additionalInput s
  let m := blockCount outlen requested
  let returned := (blocks mac s.K s.V 0 m).take requested
  let s := { s with V := block mac s.K s.V m }
  (returned, { update mac zero one additionalInput s with
    reseedCounter := s.reseedCounter + 1 })

-- ====================================================== the mechanism

/-- A call of the mechanism, section 9. -/
inductive Call (α : Type)
  | instantiate (entropyInput nonce personalization : List α)
  | reseed (entropyInput additionalInput : List α)
  | generate (requested : Nat) (additionalInput : List α)

/-- Why the mechanism refuses a call of admitted lengths. -/
inductive Refusal
  | notInstantiated
  | reseedRequired

/-- One call. The internal state is absent until it is instantiated, and
a generate that follows a due reseed is refused (section 10.1.2.5, step
1). -/
def call (interval : Nat) :
    Call α → Eff (Option (State α)) Refusal (Option (List α))
  | .instantiate e n p, _ =>
      (.ok none, some (instantiate mac zero one outlen e n p))
  | .reseed _ _, none => (.error .notInstantiated, none)
  | .reseed e a, some s => (.ok none, some (reseed mac zero one s e a))
  | .generate _ _, none => (.error .notInstantiated, none)
  | .generate n a, some s =>
      if interval < s.reseedCounter then (.error .reseedRequired, some s)
      else
        let (returned, s) := generate mac zero one outlen s n a
        (.ok (some returned), some s)

-- ========================================================== the counter

/-- The counter an instantiation starts its update from does not show, since
it is set to one behind it. -/
theorem instantiate_eq (entropyInput nonce personalization : List α)
    (c : Nat) :
    instantiate mac zero one outlen entropyInput nonce personalization
      = { update mac zero one (entropyInput ++ nonce ++ personalization)
            { K := List.replicate outlen zero
              V := List.replicate outlen one
              reseedCounter := c } with
          reseedCounter := 1 } := by
  simp only [instantiate, update]
  by_cases hp : entropyInput ++ nonce ++ personalization = []
  · simp only [if_pos hp]
  · simp only [if_neg hp]

/-- An update leaves the counter. -/
@[simp] theorem update_reseedCounter (provided : List α) (s : State α) :
    (update mac zero one provided s).reseedCounter = s.reseedCounter := by
  unfold update
  split <;> rfl

-- ================================================= the output stream

/-- The stream is its first block and the stream after it. -/
theorem blocks_succ (K V : List α) (i m : Nat) :
    blocks mac K V i (m + 1)
      = block mac K V (i + 1) ++ blocks mac K V (i + 1) m := by
  unfold blocks
  rw [List.range_succ_eq_map, List.flatMap_cons, List.flatMap_map]
  congr 1
  refine List.flatMap_congr fun j _ => ?_
  rw [show i + (j + 1) + 1 = i + 1 + j + 1 from by omega]

/-- The stream of the next V is the stream after the first block. -/
theorem blocks_shift (K V : List α) (m : Nat) :
    blocks mac K (mac K V) 0 m = blocks mac K V 1 m := by
  unfold blocks
  refine List.flatMap_congr fun j _ => ?_
  unfold block
  rw [← Function.iterate_succ_apply]
  rw [show (0 + j + 1).succ = 1 + j + 1 from by omega]

/-- A nonempty output is its first block, cut to size, and the output of
the next V. -/
theorem take_blocks_succ (K V : List α) (m n : Nat)
    (hlen : (mac K V).length = outlen) :
    (blocks mac K V 0 (m + 1)).take n
      = (mac K V).take (min outlen n)
        ++ (blocks mac K (mac K V) 0 m).take (n - min outlen n) := by
  have hone : block mac K V (0 + 1) = mac K V := rfl
  rw [blocks_succ, blocks_shift, hone, List.take_append, hlen]
  by_cases hle : outlen ≤ n
  · have hfull : ∀ j, outlen ≤ j → (mac K V).take j = mac K V :=
      fun j hj => List.take_of_length_le (by omega)
    rw [Nat.min_eq_left hle, hfull n hle, hfull outlen (Nat.le_refl _)]
  · rw [Nat.min_eq_right (by omega), Nat.sub_self,
      Nat.sub_eq_zero_of_le (by omega)]

variable {outlen}

/-- A positive request takes one block more than the request that is
one block shorter. -/
theorem blockCount_pos (hout : 0 < outlen) {n : Nat} (hn : 0 < n) :
    blockCount outlen n = blockCount outlen (n - min outlen n) + 1 := by
  unfold blockCount
  by_cases hle : outlen ≤ n
  · rw [Nat.min_eq_left hle,
      show n + outlen - 1 = (n - outlen + outlen - 1) + outlen from by omega,
      Nat.add_div_right _ hout]
  · rw [Nat.min_eq_right (by omega), Nat.sub_self,
      show n + outlen - 1 = (n - 1) + outlen from by omega,
      Nat.add_div_right _ hout, Nat.div_eq_of_lt (by omega),
      Nat.div_eq_of_lt (by omega)]

end Lib.HmacDrbg
