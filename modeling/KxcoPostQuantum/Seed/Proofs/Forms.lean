/-
The two forms of a PKCS#8 private key: the seed form `exportSeedPkcs8`
writes and `importSeedPkcs8` reads back, and the expanded form, which
differs from it in one tag and which the import refuses.

`SeedForm` and `ExpandedForm` are the formats (`Lib.Der`, `Lib.Ber`). An
export is in seed form, every element of it short enough for one length
octet, so each header stands two octets before its content
(`header_short`) and the import finds the seed (`SeedForm.reading`). In
expanded form the octet where the choice is looked for is the tag of an
OCTET STRING (`ExpandedForm.refused`).
-/
import KxcoPostQuantum.Seed.Proofs.Nesting
import KxcoPostQuantum.Signature.Proofs.Encoders

namespace KxcoPostQuantum.Seed

open Lib.Ber Lib.Der

-- ============================================================== forms

/-- `b` is the seed-form private key of `alg` and `seed`, in DER. -/
def SeedForm (alg : JsString) (seed b : Bytes) : Prop :=
  ∃ p V A O K S, (alg, p) ∈ PARAMS ∧ seed.length = p.seedBytes
    ∧ Distinguished DER_SEQUENCE (V ++ A ++ K) b
    ∧ Distinguished DER_INTEGER [0x00] V
    ∧ Distinguished DER_SEQUENCE O A
    ∧ Distinguished DER_OID p.oid O
    ∧ Distinguished DER_OCTET_STRING S K
    ∧ Distinguished DER_SEED_CHOICE seed S

/-- `b` is a private key of `alg` whose key is in expanded form. -/
def ExpandedForm (alg : JsString) (key b : Bytes) : Prop :=
  ∃ p parameters attributes V A O K S, (alg, p) ∈ PARAMS
    ∧ Element DER_SEQUENCE (V ++ A ++ K ++ attributes) b
    ∧ Element DER_INTEGER [0x00] V
    ∧ Element DER_SEQUENCE (O ++ parameters) A
    ∧ Element DER_OID p.oid O
    ∧ Element DER_OCTET_STRING S K
    ∧ Element DER_OCTET_STRING key S

/-- A key in seed form is a key as `importSeedPkcs8` should read it. -/
theorem SeedForm.nested {alg : JsString} {seed b : Bytes}
    (h : SeedForm alg seed b) : Nested b alg seed := by
  obtain ⟨p, V, A, O, K, S, hp, hlength, hb, hV, hA, hO, hK, hS⟩ := h
  refine ⟨p, [0x00], [], [], V, A, O, K, S, hp, hlength, ?_, hV.element, ?_,
    hO.element, hK.element, hS.element⟩
  · rw [List.append_nil]
    exact hb.element
  · rw [List.append_nil]
    exact hA.element

-- ============================================================= export

/-- What every row has. -/
theorem params_short {alg : JsString} {p : Params} (hp : (alg, p) ∈ PARAMS) :
    p.oid.length = 9 ∧ p.seedBytes ≤ 64 := by
  have hrows : ∀ row ∈ PARAMS, row.2.oid.length = 9 ∧ row.2.seedBytes ≤ 64 :=
    by decide
  exact hrows _ hp

theorem exportSeedPkcs8_ok {rt : Runtime} {alg : JsVal} {seed b : Bytes} :
    exportSeedPkcs8 rt alg (.uint8Array seed) = .ok b
      ↔ ∃ name p, alg = .string name ∧ (name, p) ∈ PARAMS
        ∧ seed.length = p.seedBytes
        ∧ der DER_SEQUENCE (der DER_INTEGER [0x00]
          ++ der DER_SEQUENCE (der DER_OID p.oid)
          ++ der DER_OCTET_STRING (der DER_SEED_CHOICE seed)) = b := by
  rw [exportSeedPkcs8]
  simp only [bind_eq_ok, asBytes, Except.ok.injEq, exists_eq_left',
    Prod.exists, paramsFor_ok, guard_eq_ok, ne_eq, not_not, pure_eq_ok,
    and_assoc]

/-- A content below 128 is written in DER. -/
theorem der_short {tag : UInt8} {c : Bytes} (h : c.length < 128) :
    Distinguished tag c (der tag c) ∧ (der tag c).length = c.length + 2 := by
  have hdistinguished : Distinguished tag c (der tag c) :=
    Signature.der_distinguished_iff.mpr ⟨rfl, by omega⟩
  exact ⟨hdistinguished, (hdistinguished.eq_short h).2⟩

/-- An export is in seed form: each of its elements is written with the
shortest length, from the innermost outward. -/
theorem exportSeedPkcs8_form {alg : JsString} {p : Params} {seed : Bytes}
    (hp : (alg, p) ∈ PARAMS) (hlength : seed.length = p.seedBytes) :
    SeedForm alg seed (der DER_SEQUENCE (der DER_INTEGER [0x00]
      ++ der DER_SEQUENCE (der DER_OID p.oid)
      ++ der DER_OCTET_STRING (der DER_SEED_CHOICE seed))) := by
  obtain ⟨hoid, hseed⟩ := params_short hp
  obtain ⟨hV, hVlength⟩ := @der_short DER_INTEGER [0x00] (by decide)
  obtain ⟨hO, hOlength⟩ := @der_short DER_OID p.oid (by omega)
  obtain ⟨hA, hAlength⟩ := @der_short DER_SEQUENCE (der DER_OID p.oid)
    (by omega)
  obtain ⟨hS, hSlength⟩ := @der_short DER_SEED_CHOICE seed (by omega)
  obtain ⟨hK, hKlength⟩ := @der_short DER_OCTET_STRING
    (der DER_SEED_CHOICE seed) (by omega)
  rw [List.length_singleton] at hVlength
  refine ⟨p, _, _, _, _, _, hp, hlength, (der_short ?_).1, hV, hA, hO, hK,
    hS⟩
  rw [List.length_append, List.length_append]
  omega

theorem seedForm_of_export {rt : Runtime} {alg : JsString} {seed b : Bytes}
    (h : exportSeedPkcs8 rt (.string alg) (.uint8Array seed) = .ok b) :
    SeedForm alg seed b := by
  obtain ⟨name, p, hname, hp, hlength, rfl⟩ := exportSeedPkcs8_ok.mp h
  cases hname
  exact exportSeedPkcs8_form hp hlength

-- ============================================================= import

/-- Where an element with one length octet stands, its header is there. -/
theorem header_short {tag : UInt8} {x y c e b : Bytes} {i : Nat}
    (he : Distinguished tag c e) (hc : c.length < 128)
    (hb : b = x ++ e ++ y) (hi : i = x.length) :
    Header b i tag ⟨i + 2, c.length⟩ := by
  subst hi
  rw [(he.eq_short hc).1] at hb
  have htag : b[x.length]? = some tag := by
    rw [hb, List.append_assoc, List.cons_append, getElem?_middle]
  have hfirst : b[x.length + 1]? = some c.length.toUInt8 := by
    have hsplit : b = (x ++ [tag]) ++ c.length.toUInt8 :: (c ++ y) := by
      simp [hb]
    have hmiddle := getElem?_middle (x ++ [tag]) (c ++ y) c.length.toUInt8
    rwa [← hsplit, List.length_append, List.length_singleton] at hmiddle
  refine ⟨htag, readLength_ok.mpr ⟨_, hfirst, Or.inl ?_⟩⟩
  rw [short_toNat hc]
  exact ⟨hc, rfl, rfl⟩

/-- The import finds the seed of a key in seed form. The six headers are
read one behind the other, and each of their lengths is that of what stands
there. -/
theorem SeedForm.reading {alg : JsString} {seed b : Bytes}
    (h : SeedForm alg seed b) : ∃ r : Reading b, alg = r.alg
      ∧ seed = subarray b r.seed.start r.seed.stop := by
  obtain ⟨p, V, A, O, K, S, hp, hlength, hb, hV, hA, hO, hK, hS⟩ := h
  obtain ⟨hoid, hseed⟩ := params_short hp
  have hVlength := (hV.eq_short (by decide)).2
  obtain ⟨hOeq, hOlength⟩ := hO.eq_short (by omega)
  obtain ⟨hSeq, hSlength⟩ := hS.eq_short (by omega)
  obtain ⟨hAeq, hAlength⟩ := hA.eq_short (by omega)
  obtain ⟨hKeq, hKlength⟩ := hK.eq_short (by omega)
  rw [List.length_singleton] at hVlength
  have hbody : (V ++ A ++ K).length < 128 := by
    rw [List.length_append, List.length_append]
    omega
  -- the headers, in the order they are read
  obtain ⟨hbeq, -⟩ := hb.eq_short hbody
  generalize (V ++ A ++ K).length.toUInt8 = n at hbeq
  generalize O.length.toUInt8 = nA at hAeq
  generalize p.oid.length.toUInt8 = nO at hOeq
  generalize S.length.toUInt8 = nK at hKeq
  generalize seed.length.toUInt8 = nS at hSeq
  have hversion : Header b 2 DER_INTEGER ⟨4, 1⟩ :=
    header_short hV (by decide)
      (show b = [DER_SEQUENCE, n] ++ V ++ (A ++ K) by simp [hbeq]) rfl
  have halgId : Header b 5 DER_SEQUENCE ⟨7, O.length⟩ :=
    header_short hA (by omega)
      (show b = ([DER_SEQUENCE, n] ++ V) ++ A ++ K by simp [hbeq])
      (by simp [hVlength])
  have hoidHeader : Header b 7 DER_OID ⟨9, p.oid.length⟩ :=
    header_short hO (by omega)
      (show b = ([DER_SEQUENCE, n] ++ V ++ [DER_SEQUENCE, nA]) ++ O ++ K
        by simp [hbeq, hAeq]) (by simp [hVlength])
  have hkey : Header b (7 + O.length) DER_OCTET_STRING
      ⟨7 + O.length + 2, S.length⟩ :=
    header_short hK (by omega)
      (show b = ([DER_SEQUENCE, n] ++ V ++ A) ++ K ++ [] by simp [hbeq])
      (by simp; omega)
  have hseedHeader : Header b (7 + O.length + 2) DER_SEED_CHOICE
      ⟨7 + O.length + 2 + 2, seed.length⟩ :=
    header_short hS (by omega)
      (show b = ([DER_SEQUENCE, n] ++ V ++ A
        ++ [DER_OCTET_STRING, nK]) ++ S ++ [] by simp [hbeq, hKeq])
      (by simp; omega)
  have hoidEq : subarray b 9 (9 + p.oid.length) = p.oid := by
    have hmiddle := subarray_middle
      ([DER_SEQUENCE, n] ++ V ++ [DER_SEQUENCE, nA, DER_OID, nO]) p.oid K
    rw [List.length_append, List.length_append, hVlength] at hmiddle
    rw [hbeq, hAeq, hOeq]
    simpa using hmiddle
  have hseedEq : subarray b (7 + O.length + 2 + 2)
      (7 + O.length + 2 + 2 + seed.length) = seed := by
    have hmiddle := subarray_middle ([DER_SEQUENCE, n] ++ V ++ A
      ++ [DER_OCTET_STRING, nK, DER_SEED_CHOICE, nS]) seed []
    have hstart : ([DER_SEQUENCE, n] ++ V ++ A
        ++ [DER_OCTET_STRING, nK, DER_SEED_CHOICE, nS]).length
          = 7 + O.length + 2 + 2 := by
      simp
      omega
    rw [hstart] at hmiddle
    rw [hbeq, hKeq, hSeq]
    simpa using hmiddle
  exact ⟨⟨alg, p, hp, ⟨2, _⟩, ⟨4, 1⟩, ⟨7, _⟩, ⟨9, _⟩, ⟨7 + O.length + 2, _⟩,
    ⟨7 + O.length + 2 + 2, _⟩, header_short hb hbody
      (show b = [] ++ b ++ [] by simp) rfl, hversion, halgId, hoidHeader,
    hoidEq, hkey, hseedHeader, hlength⟩, rfl, hseedEq.symm⟩

/-- A key in seed form is imported as what it is. -/
theorem SeedForm.imported {alg : JsString} {seed b : Bytes}
    (h : SeedForm alg seed b) (rt : Runtime) :
    importSeedPkcs8 rt (.uint8Array b) = .ok (alg, seed) :=
  importSeedPkcs8_ok.mpr h.reading

/-- Different seeds have different keys. -/
theorem SeedForm.unique {alg alg' : JsString} {seed seed' b : Bytes}
    (h : SeedForm alg seed b) (h' : SeedForm alg' seed' b) :
    alg = alg' ∧ seed = seed' := by
  have hr := h.imported plainRuntime
  rw [h'.imported plainRuntime] at hr
  obtain ⟨rfl, rfl⟩ := Prod.mk.inj (Except.ok.inj hr)
  exact ⟨rfl, rfl⟩

/-- **Refused.** The import throws on every key in expanded form: where a
seed would have its tag, such a key has that of an octet string, whatever
its length. -/
theorem ExpandedForm.refused {alg : JsString} {key b : Bytes}
    (h : ExpandedForm alg key b) (rt : Runtime) :
    ∃ e, importSeedPkcs8 rt (.uint8Array b) = .error e := by
  obtain ⟨p, parameters, attributes, V, A, O, K, S, -, hb, hV, hA, hO, hK,
    octets, -, rfl⟩ := h
  cases hr : importSeedPkcs8 rt (.uint8Array b) with
  | error e => exact ⟨e, rfl⟩
  | ok result =>
      obtain ⟨r, -, -⟩ := importSeedPkcs8_ok.mp hr
      obtain ⟨x, hbeq, hstart, -⟩ := r.frame hb hV hA hO hK
      have htag : b[x.length]? = some DER_OCTET_STRING := by
        rw [hbeq, List.append_assoc, List.cons_append, getElem?_middle]
      rw [← hstart, r.seed_header.1] at htag
      cases htag

/-- What the native backend builds is in expanded form. -/
theorem Pkcs8Form.expandedForm {alg : JsString} {p : Params}
    (O parameters : Bytes) {algid key b : Bytes} (hp : (alg, p) ∈ PARAMS)
    (hO : Element DER_OID p.oid O)
    (hA : Element DER_SEQUENCE (O ++ parameters) algid)
    (h : Signature.Pkcs8Form algid key b) : ExpandedForm alg key b := by
  obtain ⟨V, K, S, hb, hV, hK, hS⟩ := h
  refine ⟨p, parameters, [], V, algid, O, K, S, hp, ?_, hV.element, hA, hO,
    hK.element, hS.element⟩
  rw [List.append_nil, List.append_assoc]
  exact hb.element

-- ========================================================== both forms

/-- **The two forms.** For every algorithm of the table and every seed of
its length an export is in seed form and is imported as that seed of that
algorithm; different algorithms or seeds have different exports; and a key
in expanded form, of any length, is no seed. -/
theorem exportSeedPkcs8_forms (rt rt' : Runtime) :
    (∀ alg p seed, (alg, p) ∈ PARAMS → seed.length = p.seedBytes →
        ∃ b, exportSeedPkcs8 rt (.string alg) (.uint8Array seed) = .ok b
          ∧ SeedForm alg seed b
          ∧ importSeedPkcs8 rt' (.uint8Array b) = .ok (alg, seed))
      ∧ (∀ alg alg' seed seed' b,
        exportSeedPkcs8 rt (.string alg) (.uint8Array seed) = .ok b →
        exportSeedPkcs8 rt (.string alg') (.uint8Array seed') = .ok b →
          alg = alg' ∧ seed = seed')
      ∧ ∀ alg key b, ExpandedForm alg key b →
        ∃ e, importSeedPkcs8 rt' (.uint8Array b) = .error e := by
  refine ⟨?_, ?_, fun _ _ _ h => h.refused rt'⟩
  · intro alg p seed hp hlength
    have hexport := (@exportSeedPkcs8_ok rt).mpr
      ⟨alg, p, rfl, hp, hlength, rfl⟩
    have hform := seedForm_of_export hexport
    exact ⟨_, hexport, hform, hform.imported rt'⟩
  · intro alg alg' seed seed' b h h'
    exact (seedForm_of_export h).unique (seedForm_of_export h')

/-- An ML-DSA-65 key as the native backend builds it. -/
theorem toPkcs8_mlDsa65 (key : Bytes) (h : key.length ≤ 65511) :
    ExpandedForm (js "ML-DSA-65") key
      (Signature.toPkcs8 Signature.mlDsa65Algid key) := by
  refine Pkcs8Form.expandedForm (p := ⟨32, 1952, 4032, nistArc ++ [3, 0x12]⟩)
    ([6, 9] ++ nistArc ++ [3, 0x12]) [] (by decide)
    ⟨[9], .short (by decide), rfl⟩ ⟨[11], .short (by decide), rfl⟩ ?_
  have halgid : Signature.mlDsa65Algid.length = 13 := rfl
  exact (Signature.pkcs8Form_iff Signature.mlDsa65Algid_shortSequence).mpr
    (by omega)

/-- A seed of sevens, exported and imported, and an expanded key of sevens,
refused. -/
theorem exportSeedPkcs8_forms_mlDsa65 :
    (∃ b, exportSeedPkcs8 plainRuntime (.string (js "ML-DSA-65"))
        (.uint8Array (List.replicate 32 7)) = .ok b
      ∧ importSeedPkcs8 plainRuntime (.uint8Array b)
        = .ok (js "ML-DSA-65", List.replicate 32 7))
      ∧ ∃ e, importSeedPkcs8 plainRuntime (.uint8Array
        (Signature.toPkcs8 Signature.mlDsa65Algid (List.replicate 4032 7)))
          = .error e := by
  obtain ⟨hseed, -, hexpanded⟩ := exportSeedPkcs8_forms plainRuntime
    plainRuntime
  obtain ⟨b, hexport, -, himport⟩ := hseed (js "ML-DSA-65")
    ⟨32, 1952, 4032, nistArc ++ [3, 0x12]⟩ (List.replicate 32 7) (by decide)
    (by decide)
  exact ⟨⟨b, hexport, himport⟩, hexpanded _ _ _ (toPkcs8_mlDsa65 _
    (by rw [List.length_replicate]; decide))⟩

end KxcoPostQuantum.Seed
