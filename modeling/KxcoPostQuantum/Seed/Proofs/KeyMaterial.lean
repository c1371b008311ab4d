/-
Seeds and public keys that are not a `Uint8Array`.

`asBytes` hands a view or an `ArrayBuffer` to `new Uint8Array`, which
copies the bytes of an `ArrayBuffer` and converts the elements of a typed
array; the length check behind it counts elements. So what is used are the
bytes the argument covers, unless it is a typed array of wider elements
that has as many elements as the set has bytes (`keyMaterial_iff`). Such
an array covers more bytes than the set has, and two of them that differ
may be read as one seed (`uint16_converted`).
-/
import KxcoPostQuantum.Js.TypedArray
import KxcoPostQuantum.Seed.Proofs.Forms
import KxcoPostQuantum.Seed.Proofs.Jwk

namespace KxcoPostQuantum.Seed

open Lib.Base64

variable {rt : Runtime} {little : Bool} {keygen : Keygen}

-- ============================================================== buffers

/-- The bytes a buffer covers, `v.byteLength` of them. -/
def covered : JsVal → Option Bytes
  | .uint8Array b | .arrayBuffer b | .view _ b => some b
  | _ => none

/-- How many elements `new Uint8Array` finds in a buffer. -/
def elementCount : JsVal → Option Nat
  | .uint8Array b | .arrayBuffer b => some b.length
  | .view kind b =>
      match kind.elementType with
      | none => some 0
      | some .bigInt => none
      | some (.number _) => some (b.length / kind.elementBytes.getD 1)
  | _ => none

/-- A typed array of numbers, more than one byte each. -/
def isWide : JsVal → Bool
  | .view kind _ => kind.isWide
  | _ => false

/-- An argument whose elements are converted: they are wider than a byte,
and as many as the set has bytes. -/
def Converted (v : JsVal) (size : Nat) : Prop :=
  isWide v = true ∧ elementCount v = some size

instance (v : JsVal) (size : Nat) : Decidable (Converted v size) :=
  inferInstanceAs (Decidable (_ ∧ _))

/-- The elements of a wide array. -/
theorem elementCount_wide {kind : ViewKind} {b : Bytes} {size : Nat}
    (h : kind.isWide = true) (hsize : kind.elementBytes = some size) :
    elementCount (.view kind b) = some (b.length / size) := by
  obtain ⟨read, _, htype, -⟩ := ViewKind.wide_cases h
  unfold elementCount
  simp only [htype, hsize, Option.getD_some]

/-- What a buffer is read as, if it is read as anything: as many bytes as it
has elements, and just those that it covers unless the elements are wider
than a byte. -/
theorem asBytes_cases (hrt : rt.ReadsBinary little) {v : JsVal} {b b' : Bytes}
    {what : JsString} (hv : covered v = some b)
    (h : asBytes rt v what = .ok b') (hne : b' ≠ []) :
    elementCount v = some b'.length ∧ (isWide v = false → b' = b) := by
  cases v with
  | uint8Array x =>
      cases hv
      cases h
      exact ⟨rfl, fun _ => rfl⟩
  | arrayBuffer x =>
      cases hv
      cases (hrt.arrayBuffer b).symm.trans h
      exact ⟨rfl, fun _ => rfl⟩
  | view kind x =>
      cases hv
      have hmade := (hrt.view kind b).symm.trans h
      cases hwide : kind.isWide with
      | true =>
          obtain ⟨-, size, -, hsize, -⟩ := ViewKind.wide_cases hwide
          obtain ⟨made, hmade', hlength⟩ :=
            uint8ArrayOf_wide little b hwide hsize
          cases hmade'.symm.trans hmade
          rw [hlength]
          refine ⟨elementCount_wide hwide hsize, ?_⟩
          intro hnarrow
          exact absurd (hwide.symm.trans hnarrow) nofun
      | false =>
          have hcopy : kind = .int8 ∨ kind = .uint8Clamped →
              elementCount (.view kind b) = some b'.length
                ∧ (isWide (.view kind b) = false → b' = b) := by
            intro hkind
            cases (uint8ArrayOf_narrow little b hkind).symm.trans hmade
            refine ⟨?_, fun _ => rfl⟩
            rcases hkind with rfl | rfl <;>
              exact congrArg some (Nat.div_one _)
          cases kind with
          | int8 => exact hcopy (Or.inl rfl)
          | uint8Clamped => exact hcopy (Or.inr rfl)
          | dataView =>
              cases hmade
              exact absurd rfl hne
          | bigInt64 | bigUint64 => cases hmade
          | int16 | uint16 | int32 | uint32 | float16 | float32 | float64 =>
              cases hwide
  | _ => cases hv

/-- A buffer whose elements are counted is read as that many bytes. Only the
arrays of big integers are not, whose elements convert to no byte; a
`DataView` has no elements, and is read as none. -/
theorem asBytes_of_count (hrt : rt.ReadsBinary little) {v : JsVal} {n : Nat}
    (h : elementCount v = some n) (what : JsString) :
    ∃ made, asBytes rt v what = .ok made ∧ made.length = n := by
  cases v with
  | uint8Array b => exact ⟨b, rfl, Option.some.inj h⟩
  | arrayBuffer b => exact ⟨b, hrt.arrayBuffer b, Option.some.inj h⟩
  | view kind b =>
      have hread : ∃ made, uint8ArrayOf little kind b = .ok made
          ∧ made.length = n := by
        rw [elementCount] at h
        unfold uint8ArrayOf
        cases htype : kind.elementType with
        | none =>
            rw [htype] at h
            exact ⟨[], rfl, Option.some.inj h⟩
        | some elements =>
            rw [htype] at h
            cases elements with
            | bigInt => cases h
            | number read =>
                refine ⟨_, rfl, ?_⟩
                rw [List.length_map, slices_length]
                exact Option.some.inj h
      obtain ⟨made, hmade, hlength⟩ := hread
      exact ⟨made, (hrt.view kind b).trans hmade, hlength⟩
  | _ => cases h

/-- It covers more bytes than it has elements. -/
theorem Converted.lt_length {v : JsVal} {b : Bytes} {size : Nat}
    (h : Converted v size) (hv : covered v = some b) (hsize : 0 < size) :
    size < b.length := by
  obtain ⟨hwide, hcount⟩ := h
  cases v with
  | view kind x =>
      cases hv
      obtain ⟨-, n, -, hn, hlt⟩ := ViewKind.wide_cases hwide
      cases (elementCount_wide hwide hn).symm.trans hcount
      exact Nat.div_lt_self (Nat.pos_of_div_pos hsize) hlt
  | _ => cases hwide

/-- Every size of the table is at least one. -/
theorem sizes_pos {name : JsString} {p : Params} (hp : (name, p) ∈ PARAMS) :
    0 < p.seedBytes ∧ 0 < p.publicKeyBytes := by
  have hrows : ∀ row ∈ PARAMS, 0 < row.2.seedBytes ∧ 0 < row.2.publicKeyBytes :=
    by decide
  exact hrows _ hp

/-- What passed the length check is what is covered, if it was not
converted. -/
theorem asBytes_whole (hrt : rt.ReadsBinary little) {v : JsVal}
    {b b' : Bytes} {what : JsString} {size : Nat} (hv : covered v = some b)
    (h : asBytes rt v what = .ok b') (hlength : b'.length = size)
    (hsize : 0 < size) (hwhole : ¬Converted v size) : b' = b := by
  have hne : b' ≠ [] := by
    rintro rfl
    exact hsize.ne hlength
  obtain ⟨hcount, hcopy⟩ := asBytes_cases hrt hv h hne
  apply hcopy
  rw [hlength] at hcount
  exact Bool.eq_false_iff.mpr fun hwide => hwhole ⟨hwide, hcount⟩

-- ================================================================ seeds

/-- The two functions of a seed give for `v` what they give for a
`Uint8Array` that covers the same bytes, and refuse it when these are not
as many as the set has. -/
structure SeedKept (rt : Runtime) (keygen : Keygen) (alg v : JsVal)
    (b : Bytes) : Prop where
  keypair : ∀ k, keypairFromSeed rt keygen alg v = .ok k →
    k.seed = b ∧ keypairFromSeed rt keygen alg (.uint8Array b) = .ok k
  pkcs8 : ∀ d, exportSeedPkcs8 rt alg v = .ok d →
    exportSeedPkcs8 rt alg (.uint8Array b) = .ok d
  refused : ∀ name p, alg = .string name → (name, p) ∈ PARAMS →
    b.length ≠ p.seedBytes →
      (∃ e, keypairFromSeed rt keygen alg v = .error e)
        ∧ ∃ e, exportSeedPkcs8 rt alg v = .error e

/-- The set has another number of bytes than the wide array elements. -/
def SeedWhole (alg v : JsVal) : Prop :=
  ∀ name p, alg = .string name → (name, p) ∈ PARAMS →
    ¬Converted v p.seedBytes

theorem keypairFromSeed_ok {alg v : JsVal} {k : SeedKeyPair} :
    keypairFromSeed rt keygen alg v = .ok k
      ↔ ∃ name p b, alg = .string name ∧ (name, p) ∈ PARAMS
        ∧ asBytes rt v (js "seed") = .ok b ∧ b.length = p.seedBytes
        ∧ { keygen name b with seed := b } = k := by
  rw [keypairFromSeed]
  simp only [bind_eq_ok, Prod.exists, paramsFor_ok, guard_eq_ok, ne_eq,
    not_not, pure_eq_ok, and_assoc]
  constructor
  · rintro ⟨name, p, halg, hp, b, hb, hlength, hk⟩
    exact ⟨name, p, b, halg, hp, hb, hlength, hk⟩
  · rintro ⟨name, p, b, halg, hp, hb, hlength, hk⟩
    exact ⟨name, p, halg, hp, b, hb, hlength, hk⟩

/-- An export is that of the bytes the argument is read as. -/
theorem exportSeedPkcs8_read {alg v : JsVal} {d : Bytes} :
    exportSeedPkcs8 rt alg v = .ok d
      ↔ ∃ name p b, alg = .string name ∧ (name, p) ∈ PARAMS
        ∧ asBytes rt v (js "seed") = .ok b ∧ b.length = p.seedBytes
        ∧ exportSeedPkcs8 rt alg (.uint8Array b) = .ok d := by
  simp only [exportSeedPkcs8_ok]
  rw [exportSeedPkcs8]
  simp only [bind_eq_ok, Prod.exists, paramsFor_ok, guard_eq_ok, ne_eq,
    not_not, pure_eq_ok, and_assoc]
  constructor
  · rintro ⟨name, p, halg, hp, b, hb, hlength, hd⟩
    exact ⟨name, p, b, halg, hp, hb, hlength, name, p, halg, hp, hlength, hd⟩
  · rintro ⟨-, -, b, -, -, hb, -, name, p, halg, hp, hlength, hd⟩
    exact ⟨name, p, halg, hp, b, hb, hlength, hd⟩

/-- **Seeds** are not reinterpreted exactly where they are not
converted. -/
theorem seedKept_iff (hrt : rt.ReadsBinary little) {alg v : JsVal}
    {b : Bytes} (hv : covered v = some b) :
    SeedKept rt keygen alg v b ↔ SeedWhole alg v := by
  constructor
  · intro h name p halg hp hconverted
    obtain ⟨made, hmade, hlength⟩ := asBytes_of_count hrt hconverted.2
      (js "seed")
    have hlt := hconverted.lt_length hv (sizes_pos hp).1
    obtain ⟨⟨e, he⟩, -⟩ := h.refused name p halg hp hlt.ne'
    rw [keypairFromSeed_ok.mpr ⟨name, p, made, halg, hp, hmade, hlength, rfl⟩]
      at he
    cases he
  · intro h
    have hread : ∀ name p b', alg = .string name → (name, p) ∈ PARAMS →
        asBytes rt v (js "seed") = .ok b' → b'.length = p.seedBytes →
          b' = b := by
      intro name p b' halg hp hb' hlength
      exact asBytes_whole hrt hv hb' hlength (sizes_pos hp).1
        (h name p halg hp)
    refine ⟨?_, ?_, ?_⟩
    · intro k hk
      obtain ⟨name, p, b', halg, hp, hb', hlength, rfl⟩ :=
        keypairFromSeed_ok.mp hk
      obtain rfl := hread name p b' halg hp hb' hlength
      exact ⟨rfl, keypairFromSeed_ok.mpr
        ⟨name, p, b', halg, hp, rfl, hlength, rfl⟩⟩
    · intro d hd
      obtain ⟨name, p, b', halg, hp, hb', hlength, hd⟩ :=
        exportSeedPkcs8_read.mp hd
      obtain rfl := hread name p b' halg hp hb' hlength
      exact hd
    · rintro name p rfl hp hne
      have hrefuse : ∀ name' p' b', JsVal.string name = .string name' →
          (name', p') ∈ PARAMS → asBytes rt v (js "seed") = .ok b' →
            b'.length ≠ p'.seedBytes := by
        intro name' p' b' halg hp' hb' hlength
        obtain rfl := hread name' p' b' halg hp' hb' hlength
        cases halg
        cases names_unique _ hp _ hp' rfl
        exact hne hlength
      constructor
      · cases hk : keypairFromSeed rt keygen (.string name) v with
        | error e => exact ⟨e, rfl⟩
        | ok k =>
            obtain ⟨name', p', b', halg, hp', hb', hlength, -⟩ :=
              keypairFromSeed_ok.mp hk
            exact absurd hlength (hrefuse name' p' b' halg hp' hb')
      · cases hd : exportSeedPkcs8 rt (.string name) v with
        | error e => exact ⟨e, rfl⟩
        | ok d =>
            obtain ⟨name', p', b', halg, hp', hb', hlength, -⟩ :=
              exportSeedPkcs8_read.mp hd
            exact absurd hlength (hrefuse name' p' b' halg hp' hb')

/-- Two seeds have no result in common. -/
structure SeedsApart (rt : Runtime) (keygen : Keygen) (alg alg' v w : JsVal) :
    Prop where
  keypair : ∀ k k', keypairFromSeed rt keygen alg v = .ok k →
    keypairFromSeed rt keygen alg' w = .ok k' → k.seed ≠ k'.seed
  pkcs8 : ∀ d d', exportSeedPkcs8 rt alg v = .ok d →
    exportSeedPkcs8 rt alg' w = .ok d' → d ≠ d'

/-- What is kept tells different seeds apart, in the key pair as in the
exported file: both hold the seed itself. -/
theorem SeedKept.apart {alg alg' v w : JsVal} {b c : Bytes}
    (hv : SeedKept rt keygen alg v b) (hw : SeedKept rt keygen alg' w c)
    (hne : b ≠ c) : SeedsApart rt keygen alg alg' v w where
  keypair := by
    intro k k' hk hk'
    rw [(hv.keypair k hk).1, (hw.keypair k' hk').1]
    exact hne
  pkcs8 := by
    rintro d _ hd hd' rfl
    obtain ⟨name, -, -, rfl, -⟩ := exportSeedPkcs8_read.mp hd
    obtain ⟨name', -, -, rfl, -⟩ := exportSeedPkcs8_read.mp hd'
    exact hne ((seedForm_of_export (hv.pkcs8 d hd)).unique
      (seedForm_of_export (hw.pkcs8 d hd'))).2

-- ================================================================= JWKs

/-- A key object whose public key and seed are buffers, or which has no
seed. -/
structure KeyCovers (key v w : JsVal) (b : Bytes) (c : Option Bytes) :
    Prop where
  publicKey : key.get (js "publicKey") = .ok v
  seed : key.get (js "seed") = .ok w
  publicKey_covered : covered v = some b
  seed_covered : w.isNullish = true ∧ c = none
    ∨ ∃ s, covered w = some s ∧ c = some s

/-- The key object of `Uint8Array`s. -/
def keyOf (publicKey : Bytes) (seed : Option Bytes) : JsVal :=
  .object [(js "publicKey", .uint8Array publicKey),
    (js "seed", seed.elim .undefined .uint8Array)] []

theorem keyOf_covers (b : Bytes) (c : Option Bytes) :
    KeyCovers (keyOf b c) (.uint8Array b) (c.elim .undefined .uint8Array)
      b c where
  publicKey := rfl
  seed := by cases c <;> rfl
  publicKey_covered := rfl
  seed_covered := by
    cases c with
    | none => exact Or.inl ⟨rfl, rfl⟩
    | some s => exact Or.inr ⟨s, rfl, rfl⟩

theorem keyOf_parts (b : Bytes) (c : Option Bytes) :
    KeyParts (keyOf b c) b c where
  publicKey := rfl
  seed := by
    cases c with
    | none => exact Or.inl ⟨.undefined, rfl, rfl, rfl⟩
    | some s => exact Or.inr ⟨s, rfl, rfl⟩

/-- The export gives for a key what it gives for `Uint8Array`s that cover
the same bytes, and refuses it when these are not as many as the set
has. -/
structure JwkKept (rt : Runtime) (alg key opts : JsVal) (b : Bytes)
    (c : Option Bytes) : Prop where
  exported : ∀ jwk, exportJwk rt alg key opts = .ok jwk →
    exportJwk rt alg (keyOf b c) opts = .ok jwk
  refused : ∀ name p, alg = .string name → (name, p) ∈ PARAMS →
    (b.length ≠ p.publicKeyBytes ∨ ∃ s ∈ c, s.length ≠ p.seedBytes) →
      ∃ e, exportJwk rt alg key opts = .error e

/-- The members of `opts` can be read. -/
def Readable (opts : JsVal) : Prop :=
  (∃ x, (optionsOf opts).get (js "kid") = .ok x)
    ∧ ∃ x, (optionsOf opts).get (js "use") = .ok x

/-- Where as many elements as the set has bytes stand in the place of the
public key, and of the seed if there is one, and `opts` can be read,
neither is wide. -/
def JwkWhole (alg opts v w : JsVal) : Prop :=
  ∀ name p, alg = .string name → (name, p) ∈ PARAMS → Readable opts →
    elementCount v = some p.publicKeyBytes →
    (w.isNullish = true ∨ elementCount w = some p.seedBytes) →
      isWide v = false ∧ isWide w = false

theorem readable_iff {opts : JsVal} :
    Readable opts ↔ (∃ kid, exportOption (optionsOf opts) (js "kid") = .ok kid)
      ∧ ∃ use, exportOption (optionsOf opts) (js "use") = .ok use := by
  have hoption : ∀ k, (∃ x, (optionsOf opts).get k = .ok x)
      ↔ ∃ members, exportOption (optionsOf opts) k = .ok members := by
    intro k
    simp only [exportOption, bind_eq_ok, pure_eq_ok]
    constructor
    · rintro ⟨x, hx⟩
      exact ⟨_, x, hx, rfl⟩
    · rintro ⟨-, x, hx, -⟩
      exact ⟨x, hx⟩
  exact and_congr (hoption _) (hoption _)

theorem covered_ne_undefined {v : JsVal} {b : Bytes}
    (h : covered v = some b) : v ≠ .undefined := by
  rintro rfl
  cases h

theorem covered_isNullish {v : JsVal} {b : Bytes} (h : covered v = some b) :
    v.isNullish = false := by
  cases v <;> first | rfl | cases h

variable {alg key opts v w : JsVal} {b : Bytes} {c : Option Bytes}

/-- The seed of a key of `Uint8Array`s. -/
theorem readsSeed_uint8Array {p : Params}
    (hc : ∀ s ∈ c, s.length = p.seedBytes) :
    ReadsSeed rt p (c.elim .undefined .uint8Array) c := by
  cases c with
  | none => exact Or.inl ⟨rfl, rfl⟩
  | some s => exact Or.inr ⟨s, rfl, rfl, hc s rfl, rfl⟩

/-- What an export has read of a whole key are the bytes it covers, so it
writes what it would write of the two byte strings. -/
theorem JwkWhole.read (hrt : rt.ReadsBinary little)
    (hkey : KeyCovers key v w b c) (h : JwkWhole alg opts v w) {jwk : JsVal}
    (hjwk : exportJwk rt alg key opts = .ok jwk) :
    ∃ name p kid use, alg = .string name ∧ (name, p) ∈ PARAMS
      ∧ b.length = p.publicKeyBytes ∧ (∀ s ∈ c, s.length = p.seedBytes)
      ∧ exportOption (optionsOf opts) (js "kid") = .ok kid
      ∧ exportOption (optionsOf opts) (js "use") = .ok use
      ∧ jwk = jwkOf name (b64url rt b) (c.map (b64url rt)) (kid ++ use) := by
  obtain ⟨name, p, pk, seed, kid, use, halg, hp, hpk, hlength, hseed, hkid,
    huse, rfl⟩ := (exportJwk_iff hkey.publicKey
      (covered_ne_undefined hkey.publicKey_covered) hkey.seed).mp hjwk
  obtain ⟨hseedPos, hpkPos⟩ := sizes_pos hp
  have hne : pk ≠ [] := by
    rintro rfl
    exact hpkPos.ne hlength
  obtain ⟨hcount, hcopy⟩ := asBytes_cases hrt hkey.publicKey_covered hpk hne
  rw [hlength] at hcount
  have hwhole := h name p halg hp
    (readable_iff.mpr ⟨⟨kid, hkid⟩, use, huse⟩) hcount
  rcases hseed with ⟨hnull, rfl⟩ | ⟨s, hnull, hs, hsLength, rfl⟩
  · obtain rfl := hcopy (hwhole (Or.inl hnull)).1
    rcases hkey.seed_covered with ⟨-, rfl⟩ | ⟨s, hs, -⟩
    · exact ⟨name, p, kid, use, halg, hp, hlength, nofun, hkid, huse, rfl⟩
    · rw [covered_isNullish hs] at hnull
      cases hnull
  · rcases hkey.seed_covered with ⟨hnull', -⟩ | ⟨s', hs', rfl⟩
    · rw [hnull] at hnull'
      cases hnull'
    · have hne' : s ≠ [] := by
        rintro rfl
        exact hseedPos.ne hsLength
      obtain ⟨hcount', hcopy'⟩ := asBytes_cases hrt hs' hs hne'
      rw [hsLength] at hcount'
      obtain ⟨hv, hw⟩ := hwhole (Or.inr hcount')
      obtain rfl := hcopy hv
      obtain rfl := hcopy' hw
      refine ⟨name, p, kid, use, halg, hp, hlength, ?_, hkid, huse, rfl⟩
      rintro _ ⟨⟩
      exact hsLength

/-- Where the elements are as many as the set has bytes, the export
returns. -/
theorem exportJwk_returns (hrt : rt.ReadsBinary little)
    (hkey : KeyCovers key v w b c) {name : JsString} {p : Params}
    (hp : (name, p) ∈ PARAMS) (hopts : Readable opts)
    (hv : elementCount v = some p.publicKeyBytes)
    (hw : w.isNullish = true ∨ elementCount w = some p.seedBytes) :
    ∃ jwk, exportJwk rt (.string name) key opts = .ok jwk := by
  obtain ⟨⟨kid, hkid⟩, use, huse⟩ := readable_iff.mp hopts
  obtain ⟨pk, hpk, hlength⟩ := asBytes_of_count hrt hv (js "publicKey")
  have hseed : ∃ seed, ReadsSeed rt p w seed := by
    cases hnull : w.isNullish with
    | true => exact ⟨none, Or.inl ⟨hnull, rfl⟩⟩
    | false =>
        rw [hnull] at hw
        obtain ⟨made, hmade, hmadeLength⟩ := asBytes_of_count hrt
          (hw.resolve_left Bool.false_ne_true) (js "seed")
        exact ⟨_, Or.inr ⟨made, hnull, hmade, hmadeLength, rfl⟩⟩
  obtain ⟨seed, hseed⟩ := hseed
  have hexport := (exportJwk_iff hkey.publicKey
    (covered_ne_undefined hkey.publicKey_covered) hkey.seed).mpr
      ⟨name, p, pk, seed, kid, use, rfl, hp, hpk, hlength, hseed, hkid, huse,
        rfl⟩
  exact ⟨_, hexport⟩

/-- **Keys** are not reinterpreted exactly where neither part is
converted. -/
theorem jwkKept_iff (hrt : rt.ReadsBinary little)
    (hkey : KeyCovers key v w b c) :
    JwkKept rt alg key opts b c ↔ JwkWhole alg opts v w := by
  constructor
  · rintro h name p rfl hp hopts hv hw
    obtain ⟨jwk, hjwk⟩ := exportJwk_returns hrt hkey hp hopts hv hw
    have hsizes : ¬(b.length ≠ p.publicKeyBytes
        ∨ ∃ s ∈ c, s.length ≠ p.seedBytes) := by
      intro hx
      obtain ⟨e, he⟩ := h.refused name p rfl hp hx
      rw [hjwk] at he
      cases he
    rw [not_or] at hsizes
    obtain ⟨hpkSize, hseedSize⟩ := hsizes
    constructor
    · rw [Bool.eq_false_iff]
      intro hwide
      have hconverted : Converted v p.publicKeyBytes := ⟨hwide, hv⟩
      exact hpkSize (hconverted.lt_length hkey.publicKey_covered
        (sizes_pos hp).2).ne'
    · rw [Bool.eq_false_iff]
      intro hwide
      rcases hkey.seed_covered with ⟨hnull, -⟩ | ⟨s, hs, hc⟩
      · cases w <;> first | cases hwide | cases hnull
      · rw [covered_isNullish hs] at hw
        have hconverted : Converted w p.seedBytes :=
          ⟨hwide, hw.resolve_left Bool.false_ne_true⟩
        exact hseedSize ⟨s, hc, (hconverted.lt_length hs
          (sizes_pos hp).1).ne'⟩
  · intro h
    constructor
    · intro jwk hjwk
      obtain ⟨name, p, kid, use, halg, hp, hlength, hc, hkid, huse, rfl⟩ :=
        h.read hrt hkey hjwk
      have hcovers := keyOf_covers b c
      exact (exportJwk_iff hcovers.publicKey nofun hcovers.seed).mpr
        ⟨name, p, b, c, kid, use, halg, hp, rfl, hlength,
          readsSeed_uint8Array hc, hkid, huse, rfl⟩
    · rintro name p rfl hp hne
      cases hjwk : exportJwk rt (.string name) key opts with
      | error e => exact ⟨e, rfl⟩
      | ok jwk =>
          obtain ⟨name', p', -, -, halg, hp', hlength, hc, -⟩ :=
            h.read hrt hkey hjwk
          cases halg
          cases names_unique _ hp _ hp' rfl
          rcases hne with hne | ⟨s, hs, hne⟩
          · exact absurd hlength hne
          · exact absurd (hc s hs) hne

/-- The texts of a JWK are its own. -/
theorem JwkTexts.unique {jwk : JsVal} {pub pub' : JsString}
    {priv priv' : Option JsString} (h : JwkTexts jwk pub priv)
    (h' : JwkTexts jwk pub' priv') : pub = pub' ∧ priv = priv' := by
  constructor
  · cases h.pub.symm.trans h'.pub
    rfl
  · rcases h.priv with ⟨x, hx, hget, rfl⟩ | ⟨s, hget, rfl⟩ <;>
      rcases h'.priv with ⟨x', hx', hget', rfl⟩ | ⟨s', hget', rfl⟩ <;>
        cases hget.symm.trans hget'
    · rfl
    · cases hx
    · cases hx'
    · rfl

/-- What is kept tells different keys apart: the JWKs hold the encodings of
the bytes, and an encoding is of one byte string only. -/
theorem JwkKept.apart {alg' key' opts' : JsVal} {b' : Bytes}
    {c' : Option Bytes} (h : JwkKept rt alg key opts b c)
    (h' : JwkKept rt alg' key' opts' b' c') (hne : b ≠ b' ∨ c ≠ c')
    {jwk jwk' : JsVal} (hjwk : exportJwk rt alg key opts = .ok jwk)
    (hjwk' : exportJwk rt alg' key' opts' = .ok jwk') : jwk ≠ jwk' := by
  rintro rfl
  have htexts : ∀ {alg opts : JsVal} {b : Bytes} {c : Option Bytes},
      exportJwk rt alg (keyOf b c) opts = .ok jwk →
        JwkTexts jwk (encodeUrl b) (c.map encodeUrl) := by
    intro alg opts b c hx
    have hcovers := keyOf_covers b c
    obtain ⟨name, -, -, -, -, -, rfl, -⟩ :=
      (exportJwk_iff hcovers.publicKey nofun hcovers.seed).mp hx
    exact (exportJwk_texts (keyOf_parts b c) hx).1
  obtain ⟨hpub, hpriv⟩ :=
    (htexts (h.exported _ hjwk)).unique (htexts (h'.exported _ hjwk'))
  have hb := encodeUrl_injective hpub
  have hc := Option.map_injective (fun _ _ => encodeUrl_injective) hpriv
  exact hne.elim (fun hne => hne hb) fun hne => hne hc

-- ================================================================= both

/-- **Key material is not reinterpreted** exactly where it is not converted:
for two arguments in the place of a seed and for two keys. The bytes are
those the argument covers in memory, so two arguments over different bytes
have to come to different keys, files and JWKs; a view of wider elements is
converted number by number, and need not. -/
theorem keyMaterial_iff (hrt : rt.ReadsBinary little) (keygen : Keygen) :
    (∀ (alg alg' v w : JsVal) (b c : Bytes), covered v = some b →
      covered w = some c →
        (SeedKept rt keygen alg v b ∧ SeedKept rt keygen alg' w c
            ∧ (b ≠ c → SeedsApart rt keygen alg alg' v w)
          ↔ SeedWhole alg v ∧ SeedWhole alg' w))
    ∧ ∀ (alg alg' key key' opts opts' v v' w w' : JsVal) (b b' : Bytes)
      (c c' : Option Bytes), KeyCovers key v w b c →
      KeyCovers key' v' w' b' c' →
        (JwkKept rt alg key opts b c ∧ JwkKept rt alg' key' opts' b' c'
            ∧ (b ≠ b' ∨ c ≠ c' → ∀ jwk jwk',
              exportJwk rt alg key opts = .ok jwk →
              exportJwk rt alg' key' opts' = .ok jwk' → jwk ≠ jwk')
          ↔ JwkWhole alg opts v w ∧ JwkWhole alg' opts' v' w') := by
  constructor
  · intro alg alg' v w b c hv hw
    have hfirst := @seedKept_iff rt little keygen hrt alg v b hv
    have hsecond := @seedKept_iff rt little keygen hrt alg' w c hw
    constructor
    · rintro ⟨h, h', -⟩
      exact ⟨hfirst.mp h, hsecond.mp h'⟩
    · rintro ⟨h, h'⟩
      exact ⟨hfirst.mpr h, hsecond.mpr h',
        (hfirst.mpr h).apart (hsecond.mpr h')⟩
  · intro alg alg' key key' opts opts' v v' w w' b b' c c' hkey hkey'
    have hfirst := @jwkKept_iff rt little alg key opts v w b c hrt hkey
    have hsecond :=
      @jwkKept_iff rt little alg' key' opts' v' w' b' c' hrt hkey'
    constructor
    · rintro ⟨h, h', -⟩
      exact ⟨hfirst.mp h, hsecond.mp h'⟩
    · rintro ⟨h, h'⟩
      refine ⟨hfirst.mpr h, hsecond.mpr h', ?_⟩
      intro hne jwk jwk' hjwk hjwk'
      exact (hfirst.mpr h).apart (hsecond.mpr h') hne hjwk hjwk'

/-- A host that reads buffers, with the low byte first. -/
def binaryRuntime : Runtime := { plainRuntime with
  newUint8Array := fun v =>
    match v with
    | .arrayBuffer b => .ok b
    | .view kind b => uint8ArrayOf true kind b
    | _ => .ok [] }

theorem binaryRuntime_reads : binaryRuntime.ReadsBinary true :=
  ⟨fun _ => rfl, fun _ _ => rfl⟩

/-- Views of single bytes, in the place of a seed and in a key. -/
theorem keyMaterial_iff_buffers :
    let seed : JsVal := .view .int8 (List.replicate 32 0xff)
    let key : JsVal := .object [(js "publicKey",
      .arrayBuffer (List.replicate 1952 7)), (js "seed", seed)] []
    SeedKept binaryRuntime sizedKeygen (.string (js "ML-DSA-65")) seed
        (List.replicate 32 0xff)
      ∧ JwkKept binaryRuntime (.string (js "ML-DSA-65")) key .undefined
        (List.replicate 1952 7) (some (List.replicate 32 0xff)) := by
  intro seed key
  obtain ⟨hseeds, hkeys⟩ := keyMaterial_iff binaryRuntime_reads sizedKeygen
  have hkey : KeyCovers key (.arrayBuffer (List.replicate 1952 7)) seed
      (List.replicate 1952 7) (some (List.replicate 32 0xff)) :=
    ⟨rfl, rfl, rfl, Or.inr ⟨_, rfl, rfl⟩⟩
  have hseed : SeedWhole (.string (js "ML-DSA-65")) seed := by
    rintro name p - - ⟨hwide, -⟩
    cases hwide
  have hwhole : JwkWhole (.string (js "ML-DSA-65")) .undefined
      (.arrayBuffer (List.replicate 1952 7)) seed :=
    fun _ _ _ _ _ _ _ => ⟨rfl, rfl⟩
  exact ⟨((hseeds _ _ seed seed _ _ rfl rfl).mpr ⟨hseed, hseed⟩).1,
    ((hkeys _ _ key key _ _ _ _ _ _ _ _ _ _ hkey hkey).mpr
      ⟨hwhole, hwhole⟩).1⟩

/-- A `Uint16Array` of 32 equal elements, the low byte of each 7. -/
def sevens (high : UInt8) : JsVal :=
  .view .uint16 (List.replicate 32 [7, high]).flatten

theorem asBytes_sevens {high : UInt8} (h : high = 1 ∨ high = 2) :
    asBytes binaryRuntime (sevens high) (js "seed")
      = .ok (List.replicate 32 7) := by
  rcases h with rfl | rfl <;> decide +kernel

/-- Two arrays of 64 bytes that differ are the seed of 32 sevens. Each is 32
numbers of sixteen bits with seven as their low byte, and it is the high
byte in which they differ. -/
theorem uint16_converted :
    ∃ k k' d, keypairFromSeed binaryRuntime sizedKeygen
        (.string (js "ML-DSA-65")) (sevens 1) = .ok k
      ∧ keypairFromSeed binaryRuntime sizedKeygen
        (.string (js "ML-DSA-65")) (sevens 2) = .ok k'
      ∧ k.seed = k'.seed ∧ covered (sevens 1) ≠ some k.seed
      ∧ covered (sevens 1) ≠ covered (sevens 2)
      ∧ (covered (sevens 1)).map List.length = some 64
      ∧ exportSeedPkcs8 binaryRuntime (.string (js "ML-DSA-65")) (sevens 1)
        = .ok d
      ∧ exportSeedPkcs8 binaryRuntime (.string (js "ML-DSA-65")) (sevens 2)
        = .ok d := by
  have hp : (js "ML-DSA-65", (⟨32, 1952, 4032, nistArc ++ [3, 0x12]⟩ : Params))
      ∈ PARAMS := by decide
  have hkeypair : ∀ {high : UInt8}, high = 1 ∨ high = 2 →
      keypairFromSeed binaryRuntime sizedKeygen (.string (js "ML-DSA-65"))
        (sevens high) = .ok { sizedKeygen (js "ML-DSA-65")
          (List.replicate 32 7) with seed := List.replicate 32 7 } :=
    fun h => keypairFromSeed_ok.mpr
      ⟨_, _, _, rfl, hp, asBytes_sevens h, rfl, rfl⟩
  obtain ⟨d, hd⟩ : ∃ d, exportSeedPkcs8 binaryRuntime
      (.string (js "ML-DSA-65")) (.uint8Array (List.replicate 32 7)) = .ok d :=
    ⟨_, exportSeedPkcs8_ok.mpr ⟨_, _, rfl, hp, rfl, rfl⟩⟩
  have hexport : ∀ {high : UInt8}, high = 1 ∨ high = 2 →
      exportSeedPkcs8 binaryRuntime (.string (js "ML-DSA-65")) (sevens high)
        = .ok d :=
    fun h => exportSeedPkcs8_read.mpr
      ⟨_, _, _, rfl, hp, asBytes_sevens h, rfl, hd⟩
  exact ⟨_, _, d, hkeypair (Or.inl rfl), hkeypair (Or.inr rfl), rfl,
    by decide, by decide, rfl, hexport (Or.inl rfl), hexport (Or.inr rfl)⟩

end KxcoPostQuantum.Seed
