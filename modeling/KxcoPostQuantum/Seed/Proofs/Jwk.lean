/-
What `importJwk` accepts, and what it makes of what `exportJwk` writes.

`importJwk_ok` says what an import has read: a name of the table, the
bytes of `pub` and of `priv` under the runtime's decoder, and a seed that
expands to the public key. Both decoders take texts that are no
encoding, and `Buffer` takes every text `atob` takes
(`bufferDecode_of_fromB64url`), so an import is sound exactly where the
texts are encodings or `Buffer` finds no key in them (`jwk_sound_iff`).

`exportJwk` checks the lengths and not the expansion, so its result
imports exactly where the seed expands to the public key
(`importJwk_exportJwk_iff`).
-/
import KxcoPostQuantum.Jws.Proofs.Segments
import KxcoPostQuantum.Seed.Jwk

namespace KxcoPostQuantum.Seed

open Lib.Base64

variable {rt : Runtime} {keygen : Keygen}

-- ============================================================ the table

/-- No seed is as long as an expanded key. -/
theorem seedBytes_ne : ∀ row ∈ PARAMS,
    row.2.seedBytes ≠ row.2.secretKeyBytes := by decide

-- =============================================================== import

/-- A JWK object whose `pub` is a string, and whose `priv` is a string or
absent. -/
structure JwkTexts (jwk : JsVal) (pub : JsString) (priv : Option JsString) :
    Prop where
  pub : jwk.get (js "pub") = .ok (.string pub)
  priv : (∃ v, v.isNullish = true ∧ jwk.get (js "priv") = .ok v
      ∧ priv = none)
    ∨ ∃ s, jwk.get (js "priv") = .ok (.string s) ∧ priv = some s

/-- A public key of its set's length, and a seed of its set's length that
expands to it. -/
structure Consistent (keygen : Keygen) (alg : JsString) (p : Params)
    (publicKey : Bytes) (seed : Option Bytes) : Prop where
  publicKey_length : publicKey.length = p.publicKeyBytes
  seed_length : ∀ s ∈ seed, s.length = p.seedBytes
  expands : ∀ s ∈ seed, (keygen alg s).publicKey = publicKey

/-- The result for a public key and a seed that expands to it. -/
def importedOf (keygen : Keygen) (alg : JsString) (publicKey : Bytes)
    (seed : Option Bytes) : ImportedJwk :=
  ⟨alg, publicKey, seed.map fun s => (keygen alg s).secretKey, seed⟩

/-- A JWK is an object. -/
theorem isObject_of_get {v w : JsVal} {k : JsString}
    (h : v.get k = .ok w) (hw : w ≠ .undefined) :
    v.truthy = true ∧ v.isObjectType = true := by
  cases v with
  | object own inherited => exact ⟨rfl, rfl⟩
  | undefined => cases h
  | null => cases h
  | _ => exact absurd (Except.ok.inj h).symm hw

/-- **What an import has read**: the type, a row of the table, a public key
of its length, and no seed, or one of its length whose public key is this
one. -/
theorem importJwk_ok {jwk : JsVal} {pub : JsString} {priv : Option JsString}
    {r : ImportedJwk} (htexts : JwkTexts jwk pub priv) :
    importJwk rt keygen jwk = .ok r
      ↔ jwk.get (js "kty") = .ok (.string (js "AKP"))
        ∧ ∃ alg p publicKey seed, jwk.get (js "alg") = .ok (.string alg)
          ∧ (alg, p) ∈ PARAMS ∧ Jws.fromB64url rt pub = .ok publicKey
          ∧ Option.Rel (fun s b => Jws.fromB64url rt s = .ok b) priv seed
          ∧ Consistent keygen alg p publicKey seed
          ∧ r = importedOf keygen alg publicKey seed := by
  obtain ⟨htruthy, hobject⟩ := isObject_of_get htexts.pub nofun
  rw [importJwk, htruthy, hobject]
  simp only [not_true_eq_false, or_self, if_false, bind_eq_ok, guard_eq_ok,
    guardBind_eq_ok, htexts.pub, fromB64url, Except.ok.injEq, exists_eq_left',
    not_not, JsVal.strictEquals_string, Prod.exists, paramsFor_ok,
    and_assoc]
  rcases htexts.priv with ⟨v, hv, hpriv, rfl⟩ | ⟨t, hpriv, rfl⟩
  · have habsent : v = .undefined ∨ v = .null := by
      cases v <;> simp_all [JsVal.isNullish]
    constructor
    · intro hx
      obtain ⟨_, hkty, rfl, _, halg, alg, p, rfl, hmem, pk, hpk, hlength, w,
        hw, hr⟩ := hx
      cases hpriv.symm.trans hw
      refine ⟨hkty, alg, p, pk, none, halg, hmem, hpk, .none,
        ⟨hlength, by simp, by simp⟩, ?_⟩
      rcases habsent with rfl | rfl
      · exact (pure_eq_ok.mp hr).symm
      · exact (pure_eq_ok.mp hr).symm
    · intro hx
      obtain ⟨hkty, alg, p, pk, _, halg, hmem, hpk, hseed, hc, rfl⟩ := hx
      cases hseed
      refine ⟨_, hkty, rfl, _, halg, alg, p, rfl, hmem, pk, hpk,
        hc.publicKey_length, v, hpriv, ?_⟩
      rcases habsent with rfl | rfl
      · rfl
      · rfl
  · simp only [hpriv, Except.ok.injEq, exists_eq_left', bind_eq_ok,
      guard_eq_ok, pure_eq_ok, ne_eq, not_not, bytesEqual_iff]
    constructor
    · intro hx
      obtain ⟨_, hkty, rfl, _, halg, alg, p, rfl, hmem, pk, hpk, hlength, b,
        hb, hseed, hexpands, rfl⟩ := hx
      refine ⟨hkty, alg, p, pk, some b, halg, hmem, hpk, .some hb,
        ⟨hlength, ?_, ?_⟩, ?_⟩
      · simpa using hseed
      · simpa using hexpands
      · rw [importedOf, Option.map_some, hexpands]
    · intro hx
      obtain ⟨hkty, alg, p, pk, _, halg, hmem, hpk, hseed, hc, rfl⟩ := hx
      cases hseed with
      | @some _ b hb =>
          have hexpands := hc.expands b rfl
          refine ⟨_, hkty, rfl, _, halg, alg, p, rfl, hmem, pk, hpk,
            hc.publicKey_length, b, hb, hc.seed_length b rfl, hexpands, ?_⟩
          rw [importedOf, Option.map_some, hexpands]

-- =============================================================== export

/-- A key object of `Uint8Array`s, with a seed or without. -/
structure KeyParts (key : JsVal) (publicKey : Bytes) (seed : Option Bytes) :
    Prop where
  publicKey : key.get (js "publicKey") = .ok (.uint8Array publicKey)
  seed : (∃ v, v.isNullish = true ∧ key.get (js "seed") = .ok v
      ∧ seed = none)
    ∨ ∃ s, key.get (js "seed") = .ok (.uint8Array s) ∧ seed = some s

/-- A JWK with its texts and the members after them. -/
def jwkOf (alg pub : JsString) (priv : Option JsString)
    (rest : List (JsString × JsVal)) : JsVal :=
  .object ([(js "kty", .string (js "AKP")), (js "alg", .string alg),
    (js "pub", .string pub)]
    ++ priv.elim [] (fun t => [(js "priv", .string t)]) ++ rest) []

/-- The members of `opts` are written under their names. -/
theorem exportOption_ok {opts : JsVal} {k : JsString}
    {members : List (JsString × JsVal)}
    (h : exportOption opts k = .ok members) : ∀ m ∈ members, m.1 = k := by
  obtain ⟨v, -, h⟩ := bind_eq_ok.mp h
  obtain rfl := pure_eq_ok.mp h
  split <;> simp

/-- A member that is not there. -/
theorem lookup_eq_none {k : JsString} {members : List (JsString × JsVal)}
    (h : ∀ m ∈ members, m.1 ≠ k) : JsVal.lookup k members = none := by
  induction members with
  | nil => rfl
  | cons m members ih =>
      rw [List.forall_mem_cons] at h
      rw [JsVal.lookup, if_neg h.1, ih h.2]

/-- What is written can be read. -/
theorem jwkOf_texts {alg pub : JsString} {priv : Option JsString}
    {rest : List (JsString × JsVal)} (h : ∀ m ∈ rest, m.1 ≠ js "priv") :
    JwkTexts (jwkOf alg pub priv rest) pub priv where
  pub := by cases priv <;> rfl
  priv := by
    cases priv with
    | none =>
        refine Or.inl ⟨.undefined, rfl, ?_, rfl⟩
        have hlookup : JsVal.lookup (js "priv")
            ([(js "kty", .string (js "AKP")), (js "alg", .string alg),
              (js "pub", .string pub)] ++ [] ++ rest) = none := by
          refine lookup_eq_none fun m hm => ?_
          simp only [List.append_nil, List.cons_append, List.nil_append,
            List.mem_cons] at hm
          rcases hm with rfl | rfl | rfl | hm
          · exact (by decide : js "kty" ≠ js "priv")
          · exact (by decide : js "alg" ≠ js "priv")
          · exact (by decide : js "pub" ≠ js "priv")
          · exact h m hm
        rw [jwkOf, Option.elim_none, JsVal.get, hlookup]
        rfl
    | some t => exact Or.inr ⟨t, rfl, rfl⟩

/-- What an argument in the place of a seed is read as. -/
def ReadsSeed (rt : Runtime) (p : Params) (w : JsVal) (seed : Option Bytes) :
    Prop :=
  w.isNullish = true ∧ seed = none
    ∨ ∃ s, w.isNullish = false ∧ asBytes rt w (js "seed") = .ok s
      ∧ s.length = p.seedBytes ∧ seed = some s

theorem exportSeed_iff {name : JsString} {p : Params}
    (hp : (name, p) ∈ PARAMS) {w : JsVal}
    {members : List (JsString × JsVal)} :
    exportSeed rt name p w = .ok members
      ↔ ∃ seed, ReadsSeed rt p w seed
        ∧ seed.elim [] (fun s => [(js "priv", .string (b64url rt s))])
          = members := by
  have habsent : w.isNullish = true → ∀ seed, ReadsSeed rt p w seed ↔
      seed = none := by
    intro hw seed
    unfold ReadsSeed
    rw [hw]
    simp
  have hne := seedBytes_ne _ hp
  unfold exportSeed
  split
  next =>
    simp only [habsent rfl, exists_eq_left]
    exact pure_eq_ok
  next =>
    simp only [habsent rfl, exists_eq_left]
    exact pure_eq_ok
  next hundefined hnull =>
    have hpresent : w.isNullish = false := by
      cases w with
      | undefined => exact absurd rfl hundefined
      | null => exact absurd rfl hnull
      | _ => rfl
    simp only [bind_eq_ok, guard_eq_ok, not_not, pure_eq_ok, ReadsSeed,
      hpresent]
    constructor
    · rintro ⟨s, hs, -, hlength, rfl⟩
      exact ⟨some s, Or.inr ⟨s, trivial, hs, hlength, rfl⟩, rfl⟩
    · rintro ⟨seed, ⟨h, -⟩ | ⟨s, -, hs, hlength, rfl⟩, rfl⟩
      · cases h
      · exact ⟨s, hs, hlength ▸ hne, hlength, rfl⟩

/-- What an export has read: the parts of the key as bytes, of the lengths
of the row, and the two options. It does not ask whether the parts belong
together. -/
theorem exportJwk_iff {alg key opts jwk v w : JsVal}
    (hv : key.get (js "publicKey") = .ok v) (hne : v ≠ .undefined)
    (hw : key.get (js "seed") = .ok w) :
    exportJwk rt alg key opts = .ok jwk
      ↔ ∃ name p publicKey seed kid use, alg = .string name
        ∧ (name, p) ∈ PARAMS
        ∧ asBytes rt v (js "publicKey") = .ok publicKey
        ∧ publicKey.length = p.publicKeyBytes ∧ ReadsSeed rt p w seed
        ∧ exportOption (optionsOf opts) (js "kid") = .ok kid
        ∧ exportOption (optionsOf opts) (js "use") = .ok use
        ∧ jwk = jwkOf name (b64url rt publicKey) (seed.map (b64url rt))
          (kid ++ use) := by
  obtain ⟨htruthy, hobject⟩ := isObject_of_get hv hne
  rw [exportJwk, htruthy, hobject]
  simp only [not_true_eq_false, or_self, if_false, bind_eq_ok, guard_eq_ok,
    hv, hw, Except.ok.injEq, exists_eq_left', Prod.exists, paramsFor_ok,
    pure_eq_ok, not_not]
  constructor
  · rintro ⟨name, p, ⟨halg, hp⟩, publicKey, hread, hlength, priv, hpriv, kid,
      hkid, use, huse, rfl⟩
    obtain ⟨seed, hseed, rfl⟩ := (exportSeed_iff hp).mp hpriv
    refine ⟨name, p, publicKey, seed, kid, use, halg, hp, hread, hlength,
      hseed, hkid, huse, ?_⟩
    rw [jwkOf, List.append_assoc]
    cases seed <;> rfl
  · rintro ⟨name, p, publicKey, seed, kid, use, halg, hp, hread, hlength,
      hseed, hkid, huse, rfl⟩
    refine ⟨name, p, ⟨halg, hp⟩, publicKey, hread, hlength, _,
      (exportSeed_iff hp).mpr ⟨seed, hseed, rfl⟩, kid, hkid, use, huse, ?_⟩
    rw [jwkOf, List.append_assoc]
    cases seed <;> rfl

/-- What a key of `Uint8Array`s has in the place of its seed. -/
theorem KeyParts.readsSeed {key : JsVal} {publicKey : Bytes}
    {seed : Option Bytes} (hkey : KeyParts key publicKey seed)
    (rt : Runtime) :
    ∃ w, key.get (js "seed") = .ok w ∧ ∀ p seed', ReadsSeed rt p w seed'
      ↔ seed' = seed ∧ ∀ s ∈ seed, s.length = p.seedBytes := by
  rcases hkey.seed with ⟨w, hw, hget, rfl⟩ | ⟨s, hget, rfl⟩
  · refine ⟨w, hget, fun p seed' => ?_⟩
    unfold ReadsSeed
    rw [hw]
    simp
  · refine ⟨.uint8Array s, hget, fun p seed' => ?_⟩
    unfold ReadsSeed
    simp only [JsVal.isNullish, Bool.false_eq_true, false_and, false_or,
      true_and, asBytes, Except.ok.injEq, exists_eq_left', Option.mem_some_iff,
      forall_eq']
    exact and_comm

/-- **What an export has checked and writes**, for a key whose parts are
known. The members are `kty`, `alg`, `pub`, and then those that are
there. -/
theorem exportJwk_ok {alg : JsString} {key opts jwk : JsVal}
    {publicKey : Bytes} {seed : Option Bytes}
    (hkey : KeyParts key publicKey seed) :
    exportJwk rt (.string alg) key opts = .ok jwk
      ↔ ∃ p kid use, (alg, p) ∈ PARAMS
        ∧ publicKey.length = p.publicKeyBytes
        ∧ (∀ s ∈ seed, s.length = p.seedBytes)
        ∧ exportOption (optionsOf opts) (js "kid") = .ok kid
        ∧ exportOption (optionsOf opts) (js "use") = .ok use
        ∧ jwk = jwkOf alg (b64url rt publicKey) (seed.map (b64url rt))
          (kid ++ use) := by
  obtain ⟨w, hget, hreads⟩ := hkey.readsSeed rt
  rw [exportJwk_iff hkey.publicKey nofun hget]
  constructor
  · rintro ⟨name, p, pk, seed', kid, use, halg, hp, hpk, hlength, hseed,
      hkid, huse, rfl⟩
    cases halg
    cases hpk
    obtain ⟨rfl, hlengths⟩ := (hreads p seed').mp hseed
    exact ⟨p, kid, use, hp, hlength, hlengths, hkid, huse, rfl⟩
  · rintro ⟨p, kid, use, hp, hlength, hlengths, hkid, huse, rfl⟩
    have hseed := (hreads p seed).mpr ⟨rfl, hlengths⟩
    exact ⟨alg, p, publicKey, seed, kid, use, rfl, hp, rfl, hlength, hseed,
      hkid, huse, rfl⟩

/-- What is exported is written in the texts of its parts. -/
theorem exportJwk_texts {alg : JsString} {key opts jwk : JsVal}
    {publicKey : Bytes} {seed : Option Bytes}
    (hkey : KeyParts key publicKey seed)
    (h : exportJwk rt (.string alg) key opts = .ok jwk) :
    JwkTexts jwk (encodeUrl publicKey) (seed.map encodeUrl)
      ∧ jwk.get (js "kty") = .ok (.string (js "AKP"))
      ∧ jwk.get (js "alg") = .ok (.string alg)
      ∧ ∃ p, (alg, p) ∈ PARAMS ∧ publicKey.length = p.publicKeyBytes
        ∧ ∀ s ∈ seed, s.length = p.seedBytes := by
  obtain ⟨p, kid, use, hp, hlength, hseed, hkid, huse, rfl⟩ :=
    (exportJwk_ok hkey).mp h
  have htext : b64url rt = encodeUrl := funext (Jws.b64url_eq rt)
  have hrest : ∀ m ∈ kid ++ use, m.1 ≠ js "priv" := by
    intro m hm
    rcases List.mem_append.mp hm with hm | hm
    · rw [exportOption_ok hkid m hm]
      decide
    · rw [exportOption_ok huse m hm]
      decide
  rw [htext]
  exact ⟨jwkOf_texts hrest, rfl, rfl, p, hp, hlength, hseed⟩

-- ============================================================ round trip

/-- What is imported of what was exported: the texts decode to the bytes
they were made of, so the import is down to the one check that the export
does not make. -/
theorem importJwk_exported {rt' : Runtime} {alg : JsString}
    {key opts jwk : JsVal} {publicKey : Bytes} {seed : Option Bytes}
    (hkey : KeyParts key publicKey seed)
    (h : exportJwk rt (.string alg) key opts = .ok jwk) {r : ImportedJwk} :
    importJwk rt' keygen jwk = .ok r
      ↔ (∀ s ∈ seed, (keygen alg s).publicKey = publicKey)
        ∧ r = importedOf keygen alg publicKey seed := by
  obtain ⟨htexts, hkty, halg, p, hp, hlength, hseed⟩ :=
    exportJwk_texts hkey h
  rw [importJwk_ok htexts]
  constructor
  · intro hx
    obtain ⟨-, alg', p', pk, seed', halg', -, hpk, hseed', hc, rfl⟩ := hx
    cases halg.symm.trans halg'
    cases (Jws.fromB64url_encodeUrl rt' publicKey).symm.trans hpk
    have hsame : seed' = seed := by
      cases seed with
      | none =>
          cases hseed'
          rfl
      | some s =>
          cases hseed' with
          | some hs =>
              cases (Jws.fromB64url_encodeUrl rt' s).symm.trans hs
              rfl
    subst hsame
    exact ⟨hc.expands, rfl⟩
  · intro hx
    obtain ⟨hexpands, rfl⟩ := hx
    refine ⟨hkty, alg, p, publicKey, seed, halg, hp,
      Jws.fromB64url_encodeUrl rt' publicKey, ?_,
      ⟨hlength, hseed, hexpands⟩, rfl⟩
    cases seed with
    | none => exact .none
    | some s => exact .some (Jws.fromB64url_encodeUrl rt' s)

/-- **Round trip.** What `exportJwk` writes in one runtime, `importJwk`
gives back in any, if and only if the seed, where there is one, expands to
the public key. -/
theorem importJwk_exportJwk_iff {rt' : Runtime} {alg : JsString}
    {key opts jwk : JsVal} {publicKey : Bytes} {seed : Option Bytes}
    (hkey : KeyParts key publicKey seed)
    (h : exportJwk rt (.string alg) key opts = .ok jwk) :
    importJwk rt' keygen jwk = .ok (importedOf keygen alg publicKey seed)
      ↔ ∀ s ∈ seed, (keygen alg s).publicKey = publicKey := by
  rw [importJwk_exported hkey h, and_iff_left rfl]

/-- A stand-in for `keygen`: keys of the lengths of the set, by the first
byte of the seed. -/
def sizedKeygen : Keygen := fun alg seed =>
  (PARAMS.lookup alg).elim ⟨[], []⟩ fun p =>
    ⟨List.replicate p.publicKeyBytes (seed.headD 0),
      List.replicate p.secretKeyBytes (seed.headD 0)⟩

/-- The public key of one seed beside another seed. -/
def mixedKey (a b : UInt8) : JsVal :=
  .object [(js "publicKey", .uint8Array (List.replicate 1952 a)),
    (js "seed", .uint8Array (List.replicate 32 b))] []

theorem mixedKey_parts (a b : UInt8) :
    KeyParts (mixedKey a b) (List.replicate 1952 a)
      (some (List.replicate 32 b)) :=
  ⟨rfl, Or.inr ⟨_, rfl, rfl⟩⟩

theorem exportJwk_mixed (a b : UInt8) :
    exportJwk plainRuntime (.string (js "ML-DSA-65")) (mixedKey a b)
        .undefined
      = .ok (jwkOf (js "ML-DSA-65")
        (b64url plainRuntime (List.replicate 1952 a))
        (some (b64url plainRuntime (List.replicate 32 b))) []) := by
  refine (exportJwk_ok (mixedKey_parts a b)).mpr
    ⟨_, [], [], List.mem_cons_self, List.length_replicate, ?_, rfl, rfl, rfl⟩
  rintro s ⟨⟩
  exact List.length_replicate

/-- A key of sevens and its own seed, exported and imported again. -/
theorem importJwk_exportJwk_own :
    importJwk plainRuntime sizedKeygen (jwkOf (js "ML-DSA-65")
        (b64url plainRuntime (List.replicate 1952 7))
        (some (b64url plainRuntime (List.replicate 32 7))) [])
        = .ok (importedOf sizedKeygen (js "ML-DSA-65")
          (List.replicate 1952 7) (some (List.replicate 32 7)))
      ↔ ∀ s ∈ some (List.replicate 32 7),
        (sizedKeygen (js "ML-DSA-65") s).publicKey = List.replicate 1952 7 :=
  importJwk_exportJwk_iff (mixedKey_parts 7 7) (exportJwk_mixed 7 7)

/-- The public key of one seed is exported with another seed, and the
result is not imported. -/
theorem mixed_not_imported :
    exportJwk plainRuntime (.string (js "ML-DSA-65")) (mixedKey 7 8)
        .undefined
      = .ok (jwkOf (js "ML-DSA-65")
        (b64url plainRuntime (List.replicate 1952 7))
        (some (b64url plainRuntime (List.replicate 32 8))) [])
      ∧ ∀ r, importJwk plainRuntime sizedKeygen (jwkOf (js "ML-DSA-65")
        (b64url plainRuntime (List.replicate 1952 7))
        (some (b64url plainRuntime (List.replicate 32 8))) []) ≠ .ok r := by
  refine ⟨exportJwk_mixed 7 8, fun r hr => ?_⟩
  have hexpands := ((importJwk_exported (mixedKey_parts 7 8)
    (exportJwk_mixed 7 8)).mp hr).1 _ rfl
  have hkey : (sizedKeygen (js "ML-DSA-65")
      (List.replicate 32 8)).publicKey = List.replicate 1952 8 := rfl
  rw [hkey, List.replicate_inj] at hexpands
  exact absurd hexpands.2 (by decide)

-- ============================================================= canonical

/-- A text that is exactly the encoding of what it decodes to. -/
def IsEncoding (s : JsString) : Prop := encodeUrl (bufferDecode s) = s

instance (s : JsString) : Decidable (IsEncoding s) :=
  inferInstanceAs (Decidable (_ = _))

/-- The texts are those of a key, as `Buffer` decodes them. -/
def Reads (keygen : Keygen) (jwk : JsVal) (pub : JsString)
    (priv : Option JsString) (r : ImportedJwk) : Prop :=
  jwk.get (js "kty") = .ok (.string (js "AKP"))
    ∧ ∃ p, jwk.get (js "alg") = .ok (.string r.alg) ∧ (r.alg, p) ∈ PARAMS
      ∧ Consistent keygen r.alg p (bufferDecode pub) (priv.map bufferDecode)
      ∧ r = importedOf keygen r.alg (bufferDecode pub) (priv.map bufferDecode)

/-- The result of an import as the key object it is. -/
def ImportedJwk.toValue (r : ImportedJwk) : JsVal :=
  .object ([(js "alg", .string r.alg),
    (js "publicKey", .uint8Array r.publicKey)]
    ++ r.secretKey.elim [] (fun sk => [(js "secretKey", .uint8Array sk)])
    ++ r.seed.elim [] (fun s => [(js "seed", .uint8Array s)])) []

/-- An import gives back the texts, in whichever runtime, and every runtime
decides alike. -/
structure JwkSound (keygen : Keygen) (jwk : JsVal) (pub : JsString)
    (priv : Option JsString) : Prop where
  canonical : ∀ rt r, importJwk rt keygen jwk = .ok r →
    pub = b64url rt r.publicKey
      ∧ Option.Rel (fun t s => t = b64url rt s) priv r.seed
  reproduced : ∀ rt r, importJwk rt keygen jwk = .ok r →
    ∃ jwk', exportJwk rt (.string r.alg) r.toValue .undefined = .ok jwk'
      ∧ JwkTexts jwk' pub priv
  alike : ∀ rt rt' r, importJwk rt keygen jwk = .ok r →
    importJwk rt' keygen jwk = .ok r

section

variable {jwk : JsVal} {pub : JsString} {priv : Option JsString}
  (htexts : JwkTexts jwk pub priv)

include htexts

/-- Whatever a runtime imports, `Buffer` reads; what `Buffer` reads another
runtime may refuse. -/
theorem reads_of_import {r : ImportedJwk}
    (h : importJwk rt keygen jwk = .ok r) : Reads keygen jwk pub priv r := by
  obtain ⟨hkty, alg, p, pk, seed, halg, hp, hpk, hseed, hc, rfl⟩ :=
    (importJwk_ok htexts).mp h
  obtain rfl := Jws.bufferDecode_of_fromB64url rt hpk
  have hsame : seed = priv.map bufferDecode := by
    cases hseed with
    | none => rfl
    | some hs =>
        rw [Option.map_some, Jws.bufferDecode_of_fromB64url rt hs]
  subst hsame
  exact ⟨hkty, p, halg, hp, hc, rfl⟩

/-- A key is imported where the decoder reads what `Buffer` reads. -/
theorem import_of_reads {r : ImportedJwk}
    (hdecode : ∀ s, s = pub ∨ s ∈ priv →
      Jws.fromB64url rt s = .ok (bufferDecode s))
    (h : Reads keygen jwk pub priv r) :
    importJwk rt keygen jwk = .ok r := by
  obtain ⟨hkty, p, halg, hp, hc, hr⟩ := h
  refine (importJwk_ok htexts).mpr ⟨hkty, r.alg, p, _, _, halg, hp,
    hdecode pub (Or.inl rfl), ?_, hc, hr⟩
  cases priv with
  | none => exact .none
  | some t => exact .some (hdecode t (Or.inr rfl))

end

/-- The result of an import is a key object. -/
theorem importedOf_parts (alg : JsString) (publicKey : Bytes)
    (seed : Option Bytes) :
    KeyParts (importedOf keygen alg publicKey seed).toValue publicKey
      seed := by
  cases seed with
  | none => exact ⟨rfl, Or.inl ⟨.undefined, rfl, rfl, rfl⟩⟩
  | some s => exact ⟨rfl, Or.inr ⟨s, rfl, rfl⟩⟩

/-- Every codec reads an encoding as `Buffer` does. -/
theorem fromB64url_of_isEncoding {s : JsString} (h : IsEncoding s) :
    Jws.fromB64url rt s = .ok (bufferDecode s) := by
  have hread := Jws.fromB64url_encodeUrl rt (bufferDecode s)
  rwa [show encodeUrl (bufferDecode s) = s from h] at hread

/-- Encodings are imported soundly: each decodes to bytes that have this
text, so nothing in the text was skipped over. -/
theorem jwkSound_of_isEncoding {jwk : JsVal} {pub : JsString}
    {priv : Option JsString} (htexts : JwkTexts jwk pub priv)
    (hpub : IsEncoding pub) (hpriv : ∀ t ∈ priv, IsEncoding t) :
    JwkSound keygen jwk pub priv := by
  have htext : ∀ rt, b64url rt = encodeUrl := fun rt =>
    funext (Jws.b64url_eq rt)
  have hback : (priv.map bufferDecode).map encodeUrl = priv := by
    cases priv with
    | none => rfl
    | some t => exact congrArg some (hpriv t rfl)
  refine ⟨fun rt r hr => ?_, fun rt r hr => ?_, fun rt rt' r hr => ?_⟩
  · obtain ⟨-, -, -, -, -, hshape⟩ := reads_of_import htexts hr
    rw [hshape, htext]
    refine ⟨hpub.symm, ?_⟩
    cases priv with
    | none => exact .none
    | some t => exact .some (hpriv t rfl).symm
  · obtain ⟨-, p, -, hp, hc, hshape⟩ := reads_of_import htexts hr
    have hparts := @importedOf_parts keygen r.alg (bufferDecode pub)
      (priv.map bufferDecode)
    rw [← hshape] at hparts
    refine ⟨_, (exportJwk_ok hparts).mpr ⟨p, [], [], hp, hc.publicKey_length,
      hc.seed_length, rfl, rfl, rfl⟩, ?_⟩
    have hwritten := @jwkOf_texts r.alg pub priv [] (by simp)
    rwa [htext, hback, show encodeUrl (bufferDecode pub) = pub from hpub]
  · refine import_of_reads htexts ?_ (reads_of_import htexts hr)
    intro s hs
    rcases hs with rfl | hs
    · exact fromB64url_of_isEncoding hpub
    · exact fromB64url_of_isEncoding (hpriv s hs)

/-- **Canonical imports.** A JWK whose `pub` is a string and whose `priv` is
a string or absent is imported soundly if and only if both texts are
encodings or `Buffer` reads no key in them. -/
theorem jwkSound_iff {jwk : JsVal} {pub : JsString} {priv : Option JsString}
    (htexts : JwkTexts jwk pub priv) :
    JwkSound keygen jwk pub priv
      ↔ (IsEncoding pub ∧ ∀ t ∈ priv, IsEncoding t)
        ∨ ∀ r, ¬Reads keygen jwk pub priv r := by
  constructor
  · intro hsound
    by_cases hread : ∃ r, Reads keygen jwk pub priv r
    · obtain ⟨r, hr⟩ := hread
      have himport := @import_of_reads plainRuntime _ _ _ _ htexts _
        (fun _ _ => rfl) hr
      obtain ⟨hpub, hpriv⟩ := hsound.canonical _ _ himport
      obtain ⟨-, -, -, -, -, hshape⟩ := hr
      rw [hshape] at hpub hpriv
      refine Or.inl ⟨hpub.symm, fun t ht => ?_⟩
      rw [Option.mem_def.mp ht] at hpriv
      cases hpriv with
      | some h => exact h.symm
    · exact Or.inr (not_exists.mp hread)
  · intro h
    rcases h with ⟨hpub, hpriv⟩ | hno
    · exact jwkSound_of_isEncoding htexts hpub hpriv
    · exact ⟨fun rt r hr => absurd (reads_of_import htexts hr) (hno r),
        fun rt r hr => absurd (reads_of_import htexts hr) (hno r),
        fun rt rt' r hr => absurd (reads_of_import htexts hr) (hno r)⟩

-- ==================================================== failing inputs

/-- A host without `Buffer`. -/
def browserRuntime : Runtime := { plainRuntime with hasBuffer := false }

/-- An exclamation mark before the text of a public key. -/
def foreignJwk : JsVal :=
  jwkOf (js "ML-DSA-65") (33 :: encodeUrl (List.replicate 1952 7)) none []

theorem foreignJwk_texts :
    JwkTexts foreignJwk (33 :: encodeUrl (List.replicate 1952 7)) none :=
  jwkOf_texts (by simp)

theorem bufferDecode_foreign (x : Bytes) :
    bufferDecode (33 :: encodeUrl x) = x := by
  have hskip : ∀ s, bufferDecode (33 :: s) = bufferDecode s := fun _ => rfl
  rw [hskip, bufferDecode_encodeUrl]

theorem foreignJwk_reads :
    Reads sizedKeygen foreignJwk (33 :: encodeUrl (List.replicate 1952 7))
      none ⟨js "ML-DSA-65", List.replicate 1952 7, none, none⟩ := by
  refine ⟨rfl, ⟨32, 1952, 4032, nistArc ++ [0x03, 0x12]⟩, rfl,
    List.mem_cons_self, ?_, ?_⟩
  · rw [bufferDecode_foreign]
    exact ⟨List.length_replicate,
      fun s hs => absurd hs (Option.not_mem_none s),
      fun s hs => absurd hs (Option.not_mem_none s)⟩
  · rw [bufferDecode_foreign]
    rfl

theorem fromB64url_foreign (s : JsString) (pk : Bytes) :
    Jws.fromB64url browserRuntime (33 :: s) ≠ .ok pk := by
  intro h
  have hnone : ∀ t : JsString, forgivingDecode (33 :: t) = none := fun t =>
    forgivingDecode_eq_none List.mem_cons_self (by decide) (by decide)
      (by decide)
  have hatob : Jws.fromB64url browserRuntime (33 :: s)
      = Jws.atob browserRuntime (33 :: (Jws.replaceAll 95 47
        (Jws.replaceAll 45 43 s) ++ List.replicate
          ((4 - (Jws.replaceAll 95 47 (Jws.replaceAll 45 43
            (33 :: s))).length % 4) % 4) 61)) := rfl
  rw [hatob, Jws.atob, hnone] at h
  cases h

/-- `Buffer` skips the exclamation mark and `atob` throws at it. So a key
with one in its text is imported in the one runtime and refused in the
other. -/
theorem foreign_accepted :
    importJwk plainRuntime sizedKeygen foreignJwk
        = .ok ⟨js "ML-DSA-65", List.replicate 1952 7, none, none⟩
      ∧ (∀ r, importJwk browserRuntime sizedKeygen foreignJwk ≠ .ok r)
      ∧ ¬JwkSound sizedKeygen foreignJwk
        (33 :: encodeUrl (List.replicate 1952 7)) none := by
  have hnode := @import_of_reads plainRuntime _ _ _ _ foreignJwk_texts _
    (fun _ _ => rfl) foreignJwk_reads
  have hbrowser : ∀ r,
      importJwk browserRuntime sizedKeygen foreignJwk ≠ .ok r := by
    intro r hr
    obtain ⟨-, -, -, pk, -, -, -, hpk, -⟩ :=
      (importJwk_ok foreignJwk_texts).mp hr
    exact fromB64url_foreign _ pk hpk
  exact ⟨hnode, hbrowser, fun hsound =>
    hbrowser _ (hsound.alike plainRuntime browserRuntime _ hnode)⟩

/-- The same text, which is no encoding and yet is read by `Buffer`. -/
theorem jwkSound_iff_foreign :
    JwkSound sizedKeygen foreignJwk
        (33 :: encodeUrl (List.replicate 1952 7)) none
      ↔ (IsEncoding (33 :: encodeUrl (List.replicate 1952 7))
          ∧ ∀ t ∈ (none : Option JsString), IsEncoding t)
        ∨ ∀ r, ¬Reads sizedKeygen foreignJwk
          (33 :: encodeUrl (List.replicate 1952 7)) none r :=
  jwkSound_iff foreignJwk_texts

end KxcoPostQuantum.Seed
