/-
Which headers are kept, by the options they are made of.

`Kept` speaks of the JSON data of a header. For the options callers pass,
`opts.header` absent or an object without a `toJSON` method, it comes
down to three conditions on the options (`kept_iff`): `opts.header` has no
`crit` and no `b64` that JSON would write, and `opts.kid`, if given, is a
value JSON gives back.
-/
import KxcoPostQuantum.Js.Members
import KxcoPostQuantum.Jws.Proofs.RoundTrip

namespace KxcoPostQuantum.Jws

variable {rt : Runtime}

-- ============================================================= header

theorem optionalMember_eq (k : JsString) (v : JsVal) :
    optionalMember k v
      = if v.strictEquals .undefined then [] else [(k, v)] := by
  cases v with
  | number n => cases n <;> rfl
  | _ => rfl

/-- No reserved member is in `opts.header`. -/
theorem reserved_own {opts extra : JsVal} (h : extraHeader opts = .ok extra)
    {k : JsString} (hk : k ∈ reservedMembers) : extra.own? k = none := by
  rw [extraHeader, bind_eq_ok] at h
  obtain ⟨header, -, h⟩ := h
  simp only at h
  generalize (if header.isNullish then JsVal.object [] [] else header)
    = extra' at h
  split at h
  next => cases h
  next hfind =>
    have hown := List.find?_eq_none.mp hfind k hk
    rw [pure_eq_ok.mp h, hasOwn_eq] at hown
    exact Option.not_isSome_iff_eq_none.mp hown

/-- A reserved member is no number. -/
theorem reserved_letter {k : JsString} (hk : k ∈ reservedMembers) :
    ∃ c ∈ k, Lib.Json.isDigit c = false := by
  simp only [reservedMembers, List.mem_cons, List.not_mem_nil, or_false]
    at hk
  rcases hk with rfl | rfl | rfl
  · exact ⟨97, by decide, by decide⟩
  · exact ⟨107, by decide, by decide⟩
  · exact ⟨116, by decide, by decide⟩

/-- The members a header is made of. -/
def headerMembers (alg typ kid : JsVal) (ext : List (JsString × JsVal)) :
    List (JsString × JsVal) :=
  (js "alg", alg) :: (optionalMember (js "typ") typ
    ++ optionalMember (js "kid") kid ++ ext)

section

variable {alg typ kid : JsVal} {ext : List (JsString × JsVal)}

theorem nodup_headerMembers (hnd : (names ext).Nodup)
    (hfree : ∀ k ∈ reservedMembers, k ∉ names ext) :
    (names (headerMembers alg typ kid ext)).Nodup := by
  have halg := hfree (js "alg") (by decide)
  have hkid := hfree (js "kid") (by decide)
  have htyp := hfree (js "typ") (by decide)
  have h₁ : js "alg" ≠ js "typ" := by decide
  have h₂ : js "alg" ≠ js "kid" := by decide
  have h₃ : js "typ" ≠ js "kid" := by decide
  rw [headerMembers, optionalMember_eq, optionalMember_eq]
  split <;> split <;> simp_all [names]

theorem lookup_alg :
    JsVal.lookup (js "alg") (headerMembers alg typ kid ext) = some alg := by
  rw [headerMembers, JsVal.lookup, if_pos rfl]

theorem lookup_kid (hfree : js "kid" ∉ names ext) :
    JsVal.lookup (js "kid") (headerMembers alg typ kid ext)
      = if kid.strictEquals .undefined then none else some kid := by
  have h₂ : js "alg" ≠ js "kid" := by decide
  have h₃ : js "typ" ≠ js "kid" := by decide
  rw [headerMembers, JsVal.lookup, if_neg h₂, lookup_append, lookup_append,
    lookup_none_iff.mpr hfree, Option.or_none, optionalMember_eq,
    optionalMember_eq]
  split <;> split <;> simp [JsVal.lookup, h₃]

theorem lookup_typ (hfree : js "typ" ∉ names ext) :
    JsVal.lookup (js "typ") (headerMembers alg typ kid ext)
      = if typ.strictEquals .undefined then none else some typ := by
  have h₁ : js "alg" ≠ js "typ" := by decide
  have h₃ : js "kid" ≠ js "typ" := by decide
  rw [headerMembers, JsVal.lookup, if_neg h₁, lookup_append, lookup_append,
    lookup_none_iff.mpr hfree, Option.or_none, optionalMember_eq,
    optionalMember_eq]
  split <;> split <;> simp [JsVal.lookup, h₃]

theorem lookup_other {k : JsString} (hk : k ∉ reservedMembers) :
    JsVal.lookup k (headerMembers alg typ kid ext) = JsVal.lookup k ext := by
  simp only [reservedMembers, List.mem_cons, List.not_mem_nil, or_false,
    not_or] at hk
  have halg := Ne.symm hk.1
  have hkid := Ne.symm hk.2.1
  have htyp := Ne.symm hk.2.2
  rw [headerMembers, JsVal.lookup, if_neg halg, lookup_append,
    lookup_append, optionalMember_eq, optionalMember_eq]
  split <;> split <;> simp [JsVal.lookup, hkid, htyp]

end

/-- What a header is made of: the row's `alg`, the `typ` and the `kid` of
the options and what `...` copies of `opts.header`; no name twice. -/
theorem signedHeader_spread {secretKey opts header : JsVal} {spec : Spec}
    (h : signedHeader rt secretKey opts = .ok (spec, header)) :
    ∃ alg typ kid extra members,
      signingAlg secretKey opts = .ok (.string alg)
      ∧ (alg, spec) ∈ ALGORITHMS
      ∧ opts.get (js "typ") = .ok typ
      ∧ opts.get (js "kid") = .ok kid
      ∧ extraHeader opts = .ok extra
      ∧ spread rt extra = .ok members
      ∧ (∀ k ∈ reservedMembers, k ∉ names members)
      ∧ header = .object (headerMembers (.string alg) typ kid members) []
      ∧ (names (headerMembers (.string alg) typ kid members)).Nodup := by
  obtain ⟨alg, kid, halg, hlisted, hkid⟩ := signedHeader_ok h
  rw [signedHeader, halg, bind_eq_ok] at h
  obtain ⟨_, hok, h⟩ := h
  cases hok
  rw [algorithmFor_string.mpr hlisted] at h
  simp only [hkid, bind_eq_ok, pure_eq_ok, Prod.mk.injEq, Except.ok.injEq,
    exists_eq_left'] at h
  obtain ⟨extra, hextra, typ, htyp, members, hmembers, -, rfl⟩ := h
  obtain ⟨hnd, hlookup⟩ := spread_ok hmembers
  have hfree : ∀ k ∈ reservedMembers, k ∉ names members := by
    intro k hk
    obtain ⟨c, hc, hdigit⟩ := reserved_letter hk
    rw [← lookup_none_iff, hlookup k c hc hdigit]
    exact reserved_own hextra hk
  have hnames := @nodup_headerMembers (.string alg) typ kid members hnd hfree
  refine ⟨alg, typ, kid, extra, members, halg, hlisted, htyp, hkid, hextra,
    hmembers, hfree, ?_, hnames⟩
  rw [objectOf]
  exact congrArg (JsVal.object · []) (@foldl_assign_of_nodup _ [] _ hnames)

-- =============================================================== kept

/-- JSON writes nothing under a name. -/
def Unwritten (rt : Runtime) (own : List (JsString × JsVal)) (k : JsString) :
    Prop :=
  ∀ v, JsVal.lookup k own = some v → serialize rt v false = .ok none

/-- JSON gives a value back. -/
def GivenBack (rt : Runtime) (v : JsVal) : Prop :=
  ∃ j, serialize rt v false = .ok (some j)
    ∧ (toValue rt j).strictEquals v = true

/-- **Which headers are kept.** For a token whose `opts.header` is absent
or an object with no `toJSON` method, the header is kept if and only if
JSON writes no `crit` and no `b64` of it and gives back the `kid`. -/
theorem kept_iff {secretKey opts header : JsVal} {spec : Spec}
    {alg : JsString} {kid : JsVal} {ext inherited : List (JsString × JsVal)}
    {d : Option Lib.Json}
    (h : signedHeader rt secretKey opts = .ok (spec, header))
    (halg : signingAlg secretKey opts = .ok (.string alg))
    (hkid : opts.get (js "kid") = .ok kid)
    (hextra : extraHeader opts = .ok (.object ext inherited))
    (hcode : ∀ r, toJson rt ext ≠ some (some r))
    (hd : serialize rt header false = .ok d) :
    Kept rt header (.string alg) kid
      ↔ Unwritten rt ext (js "crit") ∧ Unwritten rt ext (js "b64")
        ∧ (kid = .undefined ∨ GivenBack rt kid) := by
  obtain ⟨alg', typ, kid', extra, members, halg', -, -, hkid', hextra',
    hmembers, hfree, rfl, hnames⟩ := signedHeader_spread h
  cases halg.symm.trans halg'
  cases hkid.symm.trans hkid'
  cases hextra.symm.trans hextra'
  obtain rfl := spread_object hmembers
  have hother : ∀ k ∉ reservedMembers, JsVal.lookup k
      (headerMembers (.string alg) typ kid (enumerate ext))
        = JsVal.lookup k ext := by
    intro k hk
    rw [lookup_other hk, lookup_enumerate]
  have hcode' : ∀ r,
      toJson rt (headerMembers (.string alg) typ kid (enumerate ext))
        ≠ some (some r) := by
    rw [toJson_eq, hother _ (by decide), ← toJson_eq]
    exact hcode
  obtain ⟨ms, rfl, habsent, hpresent⟩ := get_roundTrip rt hnames hcode' hd
  have hunwritten : ∀ k ∉ reservedMembers,
      ((toValue rt (.object ms)).get k = .ok .undefined
        ↔ Unwritten rt ext k) := by
    intro k hk
    rw [Unwritten, ← hother k hk]
    cases hlookup : JsVal.lookup k
        (headerMembers (.string alg) typ kid (enumerate ext)) with
    | none =>
        refine iff_of_true (habsent k hlookup) ?_
        intro v hv
        cases hv
    | some v =>
        obtain ⟨e, he, hget⟩ := hpresent k v hlookup
        simp only [Option.some_inj, forall_eq', hget, he, Except.ok.injEq]
        exact elim_toValue
  have halgGet : (toValue rt (.object ms)).get (js "alg")
      = .ok (.string alg) := by
    obtain ⟨e, he, hget⟩ := hpresent _ _ lookup_alg
    rw [serialize] at he
    cases he
    rw [hget, Option.elim_some, toValue]
  have hkidGet : (∃ v, (toValue rt (.object ms)).get (js "kid") = .ok v
        ∧ v.strictEquals kid = true) ∨ kid = .undefined
      ↔ GivenBack rt kid ∨ kid = .undefined := by
    by_cases hundefined : kid = .undefined
    · exact iff_of_true (Or.inr hundefined) (Or.inr hundefined)
    have hlookup := @lookup_kid (.string alg) typ kid (enumerate ext)
      (hfree _ (by decide))
    rw [if_neg (mt JsVal.strictEquals_undefined.mp hundefined)] at hlookup
    obtain ⟨e, he, hget⟩ := hpresent _ _ hlookup
    refine or_congr_left ?_
    simp only [hget, Except.ok.injEq, exists_eq_left', GivenBack, he]
    cases e with
    | some j => simp
    | none =>
        refine iff_of_false (fun h => hundefined ?_) ?_
        · cases kid <;> simp_all [JsVal.strictEquals]
        · intro h
          simp at h
  rw [← hunwritten _ (by decide), ← hunwritten _ (by decide), or_comm,
    ← hkidGet, or_comm]
  constructor
  · intro hkept
    obtain ⟨ms', hms, -, hcrit, hb64, hkid⟩ := hkept
    cases hd.symm.trans hms
    exact ⟨hcrit, hb64, hkid⟩
  · intro hkept
    exact ⟨ms, hd, halgGet, hkept⟩

end KxcoPostQuantum.Jws
