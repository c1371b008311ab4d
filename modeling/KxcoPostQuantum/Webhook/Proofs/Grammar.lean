/-
The headers `verifyPq` accepts.

The key decides the set. What is left of the header once the set's own
name is taken off goes to the hex reader of the signature module, and that
is where a second name, or the name of the other set, is refused: no name
is hex, its first unit is not a digit.
-/
import KxcoPostQuantum.Signature.Proofs.Hex
import KxcoPostQuantum.Webhook.Proofs.RoundTrip

namespace KxcoPostQuantum.Webhook

open Signature (Backends Accepts)

variable {rt : Runtime} {backends : Backends} {key : Bytes}
  {ts body : JsVal} {s : JsString}

-- ============================================================= grammar

/-- A header with the signature text `h`, for a key: the name of the key's
set and `h`, or `h` alone where the key is of ML-DSA-65. -/
def Carries (key : Bytes) (s : JsString) (set : PqSet) (h : JsString) :
    Prop :=
  key.length = mlDsa87PublicKeyBytes ∧ set = mlDsa87
      ∧ s = set.headerPrefix ++ h
    ∨ key.length = mlDsa65PublicKeyBytes ∧ set = mlDsa65
      ∧ (s = set.headerPrefix ++ h ∨ s = h)

/-- What a header can begin with. -/
def setNames : List JsString := [mlDsa65.headerPrefix, mlDsa87.headerPrefix]

/-- A name is not hex, and neither is anything that begins with one. -/
theorem not_isHex_name {name : JsString} (hname : name ∈ setNames)
    (rest : JsString) : ¬IsHex (name ++ rest) := by
  have hfirst : ∃ tail, name = 109 :: tail := by
    simp only [setNames, List.mem_cons, List.not_mem_nil, or_false] at hname
    rcases hname with rfl | rfl
    · exact ⟨_, rfl⟩
    · exact ⟨_, rfl⟩
  obtain ⟨tail, rfl⟩ := hfirst
  intro h
  have hdigit := h.2 109 List.mem_cons_self
  exact absurd hdigit (by decide)

/-- One name is no beginning of another. -/
theorem name_unique {name name' : JsString} (hname : name ∈ setNames)
    (hname' : name' ∈ setNames) {h h' : JsString}
    (heq : name ++ h = name' ++ h') : name = name' ∧ h = h' := by
  have hlength : name.length = name'.length := by
    have hall : ∀ n ∈ setNames, n.length = 10 := by decide
    rw [hall name hname, hall name' hname']
  exact List.append_inj heq hlength

-- ========================================================== acceptance

/-- A hexadecimal text whose bytes the set verifies over the envelope. -/
def Signs (rt : Runtime) (backends : Backends) (set : PqSet) (key : Bytes)
    (ts body : JsVal) (h : JsString) : Prop :=
  IsHex h ∧ ∃ signature message, hexPairs h = some signature
    ∧ envelope rt ts body = .ok message
    ∧ Accepts rt backends set.set key message signature

theorem verifyEnvelope_true (set : PqSet) {h : JsString} :
    verifyEnvelope rt backends set.set (.uint8Array key) ts body (.string h)
        = .ok (some true)
      ↔ Signs rt backends set key ts body h := by
  rw [verifyEnvelope, bind_eq_ok]
  constructor
  · intro hx
    obtain ⟨message, hmessage, hverify⟩ := hx
    obtain ⟨signature, hs, haccepts⟩ := Signature.verify_hex_iff.mp hverify
    exact ⟨isHex_of_hexPairs hs, signature, message, hs, hmessage, haccepts⟩
  · intro hx
    obtain ⟨-, signature, message, hs, hmessage, haccepts⟩ := hx
    exact ⟨message, hmessage,
      Signature.verify_hex_iff.mpr ⟨signature, hs, haccepts⟩⟩

/-- A header under an ML-DSA-87 key: its prefix and hex. There is no other
form for this key. -/
theorem verifyPq_mlDsa87 (hkey : key.length = mlDsa87PublicKeyBytes) :
    verifyPq rt backends (.uint8Array key) ts body (.string s)
        = .ok (some true)
      ↔ ∃ h, s = mlDsa87.headerPrefix ++ h
        ∧ Signs rt backends mlDsa87 key ts body h := by
  have hset : setOfLength key.length = some mlDsa87 := if_pos hkey
  rw [verifyPq_eq, pqCheck_bytes, hset, Option.bind_some]
  by_cases hstarts : startsWith s mlDsa87.headerPrefix = true
  · obtain ⟨h, rfl⟩ := List.isPrefixOf_iff_prefix.mp hstarts
    rw [if_pos hstarts, List.drop_left]
    refine (verifyEnvelope_true mlDsa87).trans ⟨?_, ?_⟩
    · exact fun hs => ⟨h, rfl, hs⟩
    · intro hx
      obtain ⟨h', heq, hs⟩ := hx
      rw [List.append_cancel_left heq]
      exact hs
  · rw [if_neg hstarts, if_pos hkey]
    refine iff_of_false (fun hx => ?_) fun hx => ?_
    · cases hx
    · obtain ⟨h, rfl, -⟩ := hx
      exact hstarts (startsWith_append _ _)

/-- A header under an ML-DSA-65 key: hex with its prefix or without. The
prefix holds characters that are no digits, so a header has one reading at
most. -/
theorem verifyPq_mlDsa65 (hkey : key.length = mlDsa65PublicKeyBytes) :
    verifyPq rt backends (.uint8Array key) ts body (.string s)
        = .ok (some true)
      ↔ ∃ h, (s = mlDsa65.headerPrefix ++ h ∨ s = h)
        ∧ Signs rt backends mlDsa65 key ts body h := by
  have hne : key.length ≠ mlDsa87PublicKeyBytes := by
    rw [hkey]
    decide
  have hset : setOfLength key.length = some mlDsa65 := by
    rw [setOfLength, if_neg hne, if_pos hkey]
  rw [verifyPq_eq, pqCheck_bytes, hset, Option.bind_some]
  by_cases hstarts : startsWith s mlDsa65.headerPrefix = true
  · obtain ⟨h, rfl⟩ := List.isPrefixOf_iff_prefix.mp hstarts
    rw [if_pos hstarts, List.drop_left]
    refine (verifyEnvelope_true mlDsa65).trans ⟨?_, ?_⟩
    · exact fun hs => ⟨h, Or.inl rfl, hs⟩
    · intro hx
      obtain ⟨h', heq | rfl, hs⟩ := hx
      · rw [List.append_cancel_left heq]
        exact hs
      · exact absurd hs.1 (not_isHex_name List.mem_cons_self h)
  · rw [if_neg hstarts, if_neg hne]
    refine (verifyEnvelope_true mlDsa65).trans ⟨?_, ?_⟩
    · exact fun hs => ⟨s, Or.inr rfl, hs⟩
    · intro hx
      obtain ⟨h, rfl | rfl, hs⟩ := hx
      · exact absurd (startsWith_append _ _) hstarts
      · exact hs

/-- A key of neither length is refused before a primitive is asked. -/
theorem verifyPq_otherLength (h87 : key.length ≠ mlDsa87PublicKeyBytes)
    (h65 : key.length ≠ mlDsa65PublicKeyBytes) :
    verifyPq rt backends (.uint8Array key) ts body (.string s)
      = .ok (some false) := by
  have hset : setOfLength key.length = none := by
    rw [setOfLength, if_neg h87, if_neg h65]
  rw [verifyPq_eq, pqCheck_bytes, hset]
  rfl

/-- What an accepted header is, for a key of any length: it carries the hex
of a signature for the set of that length, and a key of no set has no
header. -/
theorem verifyPq_carries :
    verifyPq rt backends (.uint8Array key) ts body (.string s)
        = .ok (some true)
      ↔ ∃ set h, Carries key s set h
        ∧ Signs rt backends set key ts body h := by
  by_cases h87 : key.length = mlDsa87PublicKeyBytes
  · rw [verifyPq_mlDsa87 h87]
    constructor
    · intro hx
      obtain ⟨h, heq, hs⟩ := hx
      exact ⟨mlDsa87, h, Or.inl ⟨h87, rfl, heq⟩, hs⟩
    · intro hx
      obtain ⟨set, h, ⟨-, rfl, heq⟩ | ⟨h65, -⟩, hs⟩ := hx
      · exact ⟨h, heq, hs⟩
      · exact absurd (h87.symm.trans h65) (by decide)
  by_cases h65 : key.length = mlDsa65PublicKeyBytes
  · rw [verifyPq_mlDsa65 h65]
    constructor
    · intro hx
      obtain ⟨h, heq, hs⟩ := hx
      exact ⟨mlDsa65, h, Or.inr ⟨h65, rfl, heq⟩, hs⟩
    · intro hx
      obtain ⟨set, h, ⟨hkey, -⟩ | ⟨-, rfl, heq⟩, hs⟩ := hx
      · exact absurd hkey h87
      · exact ⟨h, heq, hs⟩
  · rw [verifyPq_otherLength h87 h65]
    refine iff_of_false (fun hx => ?_) fun hx => ?_
    · cases hx
    · obtain ⟨set, h, ⟨hkey, -⟩ | ⟨hkey, -⟩, -⟩ := hx
      · exact h87 hkey
      · exact h65 hkey

/-- A header that names the other set, has two names, or is bare hex under
an ML-DSA-87 key. -/
def Misnamed (key : Bytes) (s : JsString) : Prop :=
  (key.length = mlDsa87PublicKeyBytes
      ∧ ∃ rest, s = mlDsa65.headerPrefix ++ rest)
    ∨ (key.length = mlDsa65PublicKeyBytes
      ∧ ∃ rest, s = mlDsa87.headerPrefix ++ rest)
    ∨ (∃ name ∈ setNames, ∃ name' ∈ setNames, ∃ rest,
      s = name ++ (name' ++ rest))
    ∨ (key.length = mlDsa87PublicKeyBytes ∧ IsHex s)

theorem not_carries_of_misnamed (hbad : Misnamed key s) {set : PqSet}
    {h : JsString} (hhex : IsHex h) : ¬Carries key s set h := by
  have h65 : mlDsa65.headerPrefix ∈ setNames := List.mem_cons_self
  have h87 : mlDsa87.headerPrefix ∈ setNames :=
    List.mem_cons_of_mem _ List.mem_cons_self
  have hlengths : mlDsa65PublicKeyBytes ≠ mlDsa87PublicKeyBytes := by decide
  have hnames : mlDsa65.headerPrefix ≠ mlDsa87.headerPrefix := by decide
  intro hc
  rcases hbad with ⟨hkey, rest, rfl⟩ | ⟨hkey, rest, rfl⟩
    | ⟨name, hname, name', hname', rest, rfl⟩ | ⟨hkey, hs⟩
  · -- ML-DSA-65 named under an ML-DSA-87 key
    rcases hc with ⟨-, rfl, heq⟩ | ⟨hkey', -⟩
    · exact hnames (name_unique h65 h87 heq).1
    · exact hlengths (hkey'.symm.trans hkey)
  · -- ML-DSA-87 named under an ML-DSA-65 key
    rcases hc with ⟨hkey', -⟩ | ⟨-, rfl, heq | rfl⟩
    · exact hlengths (hkey.symm.trans hkey')
    · exact hnames (name_unique h87 h65 heq).1.symm
    · exact not_isHex_name h87 rest hhex
  · -- two names: the second is left for the hex reader
    rcases hc with ⟨-, rfl, heq⟩ | ⟨-, rfl, heq | rfl⟩
    · rw [← (name_unique hname h87 heq).2] at hhex
      exact not_isHex_name hname' rest hhex
    · rw [← (name_unique hname h65 heq).2] at hhex
      exact not_isHex_name hname' rest hhex
    · exact not_isHex_name hname _ hhex
  · -- bare hex under an ML-DSA-87 key
    rcases hc with ⟨-, rfl, rfl⟩ | ⟨hkey', -⟩
    · exact not_isHex_name h87 h hs
    · exact hlengths (hkey'.symm.trans hkey)

/-- **The grammar of the header.** `verifyPq` accepts exactly a header
that carries a signature of the key's own set. None that names the other
set, none with two names, no bare hex under an ML-DSA-87 key is accepted,
and a key of neither length is refused whatever the backends answer. -/
theorem verifyPq_grammar (rt : Runtime) (backends : Backends) (key : Bytes)
    (ts body : JsVal) (s : JsString) :
    (verifyPq rt backends (.uint8Array key) ts body (.string s)
        = .ok (some true)
      ↔ ∃ set h, Carries key s set h
        ∧ Signs rt backends set key ts body h)
    ∧ (Misnamed key s →
      verifyPq rt backends (.uint8Array key) ts body (.string s)
        ≠ .ok (some true))
    ∧ (key.length ≠ mlDsa87PublicKeyBytes →
      key.length ≠ mlDsa65PublicKeyBytes → ∀ backends',
      verifyPq rt backends' (.uint8Array key) ts body (.string s)
        = .ok (some false)) := by
  refine ⟨verifyPq_carries, ?_, fun h87 h65 backends' =>
    verifyPq_otherLength h87 h65⟩
  intro hbad haccepted
  obtain ⟨set, h, hc, hsigns⟩ := verifyPq_carries.mp haccepted
  exact not_carries_of_misnamed hbad hsigns.1 hc

end KxcoPostQuantum.Webhook
