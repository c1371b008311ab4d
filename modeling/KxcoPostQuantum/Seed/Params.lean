/-
seed.js: the parameter sets and what every function of it does first.

A function of seed.js takes the name of a set, looks its row up in
`PARAMS` and reads its byte arguments with `asBytes`. What they refuse
they refuse with a text that names the argument; the texts are kept, as
none of these errors has a code. The names are distinct and so are the
rows (`names_unique`, `params_unique`), so a row is found by either.
-/
import KxcoPostQuantum.Js.Value
import KxcoPostQuantum.Lib.ConstantTime

namespace KxcoPostQuantum.Seed

/-- A row of `PARAMS`. -/
structure Params where
  seedBytes : Nat
  publicKeyBytes : Nat
  secretKeyBytes : Nat
  oid : Bytes
  deriving DecidableEq

/-- `NIST_ARC`. -/
def nistArc : Bytes := [0x60, 0x86, 0x48, 0x01, 0x65, 0x03, 0x04]

/-- `PARAMS`, in key order. -/
def PARAMS : List (JsString × Params) :=
  [(js "ML-DSA-65", ⟨32, 1952, 4032, nistArc ++ [0x03, 0x12]⟩),
    (js "ML-DSA-87", ⟨32, 2592, 4896, nistArc ++ [0x03, 0x13]⟩),
    (js "ML-KEM-768", ⟨64, 1184, 2400, nistArc ++ [0x04, 0x02]⟩),
    (js "ML-KEM-1024", ⟨64, 1568, 3168, nistArc ++ [0x04, 0x03]⟩)]

/-- `SEED_ALGORITHMS.join(', ')`. -/
def seedAlgorithms : JsString :=
  js "ML-DSA-65, ML-DSA-87, ML-KEM-768, ML-KEM-1024"

example : seedAlgorithms = (js ", ").intercalate (PARAMS.map (·.1)) := by
  decide

variable (rt : Runtime)

/-- The row of an algorithm; only a string that is a key of the table has
one. -/
def paramsFor (alg : JsVal) : Except JsError (JsString × Params) := do
  match alg.string?.bind fun s => PARAMS.find? fun row => row.1 = s with
  | some row => return row
  | none =>
      throw (error (js "unsupported algorithm '" ++ (← template rt alg)
        ++ js "' — seed form is defined for " ++ seedAlgorithms))

/-- The bytes of an argument; a view or an `ArrayBuffer` is read by
`new Uint8Array`. -/
def asBytes (value : JsVal) (what : JsString) : Except JsError Bytes :=
  match value with
  | .uint8Array b => .ok b
  | .view _ _ | .arrayBuffer _ => rt.newUint8Array value
  | _ => .error (typeError (what ++ js " must be a Uint8Array"))

/-- `${alg} seed must be ${seedBytes} bytes, got ${got}`. -/
def seedLengthError (alg : JsString) (p : Params) (got : Nat) : JsError :=
  rangeError (alg ++ js " seed must be " ++ decimal p.seedBytes
    ++ js " bytes, got " ++ decimal got)

/-- `bytesEqual`: the lengths, then every octet. -/
def bytesEqual (a b : Bytes) : Bool :=
  if a.length ≠ b.length then false
  else (a.zip b).foldl (fun diff x => diff ||| x.1 ^^^ x.2) 0 == 0

theorem bytesEqual_iff {a b : Bytes} : bytesEqual a b = true ↔ a = b := by
  rw [bytesEqual]
  exact Lib.ConstantTime.compared_iff beq_iff_eq

/-- A search for what one element has finds that element. -/
theorem find_iff_of_unique {α : Type} {l : List α} {p : α → Bool} {x : α}
    (hunique : ∀ a ∈ l, ∀ b ∈ l, p a = true → p b = true → a = b) :
    l.find? p = some x ↔ x ∈ l ∧ p x = true := by
  have hsound : ∀ {y}, l.find? p = some y → y ∈ l ∧ p y = true :=
    fun h => ⟨List.mem_of_find?_eq_some h, List.find?_some h⟩
  refine ⟨hsound, ?_⟩
  intro hx
  obtain ⟨hmem, hp⟩ := hx
  cases hfind : l.find? p with
  | none => exact absurd hp (List.find?_eq_none.mp hfind x hmem)
  | some y =>
      obtain ⟨hmem', hp'⟩ := hsound hfind
      rw [hunique y hmem' x hmem hp' hp]

/-- The rows have different names. -/
theorem names_unique : ∀ row ∈ PARAMS, ∀ row' ∈ PARAMS,
    row.1 = row'.1 → row = row' := by decide

/-- The rows have different OIDs. -/
theorem params_unique : ∀ row ∈ PARAMS, ∀ row' ∈ PARAMS,
    row.2.oid = row'.2.oid → row = row' := by decide

/-- The row of a name: it returns for the strings of the table, and for no
other value, whatever that would convert to. -/
theorem paramsFor_ok {rt : Runtime} {alg : JsVal} {name : JsString}
    {p : Params} :
    paramsFor rt alg = .ok (name, p)
      ↔ alg = .string name ∧ (name, p) ∈ PARAMS := by
  have hfind : ∀ {s : JsString} {row : JsString × Params},
      PARAMS.find? (fun row => row.1 = s) = some row
        ↔ row ∈ PARAMS ∧ row.1 = s := by
    intro s row
    rw [find_iff_of_unique, decide_eq_true_iff]
    intro a ha b hb hs hs'
    exact names_unique a ha b hb
      ((of_decide_eq_true hs).trans (of_decide_eq_true hs').symm)
  rw [paramsFor]
  constructor
  · intro h
    split at h
    next row hrow =>
      cases h
      obtain ⟨s, hs, hrow⟩ := Option.bind_eq_some_iff.mp hrow
      obtain ⟨hmem, rfl⟩ := hfind.mp hrow
      cases alg with
      | string s' =>
          cases hs
          exact ⟨rfl, hmem⟩
      | _ => cases hs
    next =>
      obtain ⟨_, -, h⟩ := bind_eq_ok.mp h
      cases h
  · intro hx
    obtain ⟨rfl, hmem⟩ := hx
    have hrow := hfind.mpr ⟨hmem, rfl⟩
    simp only [JsVal.string?, Option.bind_some, hrow]
    rfl

end KxcoPostQuantum.Seed
