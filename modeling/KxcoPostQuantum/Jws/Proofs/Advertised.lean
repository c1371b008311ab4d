/-
The header a token advertises, and the one `signJws` answers for.

`signJws` keeps `alg`, `kid` and `typ` out of `opts.header` by name, but
what it signs is the JSON text of the object it spreads `opts.header`
into. A function of the name `toJSON` is copied with the rest, and then
`JSON.stringify` writes what that function returns in place of the whole
header. `signJws_advertises_iff` says when the advertised header is still
the one the options ask for.

# How the proof goes

The members of the header have distinct names whatever `opts.header` is
(`signedHeader_spread`). Without a `toJSON` to call, each comes back as
the round trip of its value (`get_roundTrip`), which for a `kid` or a
`typ` is the value itself exactly for the values of `ReadBack`
(`readBack_iff`). With one, the header is the data of what it returns
(`serialize_toJson`).
-/
import KxcoPostQuantum.Jws.Proofs.Header

namespace KxcoPostQuantum.Jws

open Lib.Base64 Lib.Utf8
open Signature (Backends)

variable {rt : Runtime} {backends : Backends}

-- =========================================================== statement

/-- The header has a member of the options, or neither has it. -/
def SameMember (opts header : JsVal) (k : JsString) : Prop :=
  ∃ v w, opts.get k = .ok v ∧ header.get k = .ok w
    ∧ w.strictEquals v = true

/-- A header with the `alg` of a row and the `kid` and `typ` of the
options. -/
def Answers (opts : JsVal) (spec : Spec) (header : JsVal) : Prop :=
  (∃ alg, (alg, spec) ∈ ALGORITHMS
      ∧ header.get (js "alg") = .ok (.string alg))
    ∧ SameMember opts header (js "kid")
    ∧ SameMember opts header (js "typ")

/-- The header a verifier reads in a token is one the options and the row
answer for. -/
def Advertises (rt : Runtime) (opts : JsVal) (spec : Spec)
    (token : JsString) : Prop :=
  ∃ header, decodeHeader rt ((token.splitOn 46).headD []) = .ok header
    ∧ Answers opts spec header

/-- What a call of a value's own `toJSON` function returns. -/
def ownToJson (v : JsVal) : Option JsVal :=
  match v.own? (js "toJSON") with
  | some (.func result) => some result
  | _ => none

/-- A value that is not given, or that JSON writes and reads back as
itself. -/
def ReadBack (rt : Runtime) : JsVal → Prop
  | .undefined | .null | .bool _ | .string _ => True
  | .number (.finite q) =>
      rt.literalValue (rt.numberToString q) = .finite q
  | _ => False

/-- When the header is the one that is answered for. Without a `toJSON`
of `opts.header` it is the `kid` and the `typ` that JSON must give back;
otherwise what `toJSON` returns has all three members already. -/
def HeaderStands (rt : Runtime) (opts : JsVal) (spec : Spec)
    (extra : JsVal) : Prop :=
  match ownToJson extra with
  | none => ∃ kid typ, opts.get (js "kid") = .ok kid
      ∧ opts.get (js "typ") = .ok typ ∧ ReadBack rt kid ∧ ReadBack rt typ
  | some result => ∃ j, serialize rt result true = .ok (some j)
      ∧ Answers opts spec (toValue rt j)

-- ========================================================== the values

/-- Nothing read from JSON is the same value as one of these: objects,
arrays and buffers are compared by identity, and what was parsed is new. -/
theorem strictEquals_reference {w v : JsVal} (hv : v.isObjectType = true)
    (hnull : v ≠ .null) : w.strictEquals v = false := by
  cases v with
  | null => exact absurd rfl hnull
  | object own inherited =>
      cases w with
      | number n => cases n <;> rfl
      | _ => rfl
  | uint8Array b | view k b | arrayBuffer b | array elems =>
      cases w with
      | number n => cases n <;> rfl
      | _ => rfl
  | _ => cases hv

/-- The round trip of a value is the value for just these: the strings, the
truth values, `null`, what is not given, and the finite numbers whose
literal reads back as they are. -/
theorem readBack_iff {v : JsVal} {e : Option Lib.Json}
    (he : serialize rt v false = .ok e) :
    (e.elim .undefined (toValue rt)).strictEquals v = true
      ↔ ReadBack rt v := by
  cases v with
  | undefined | symbol | func _ =>
      rw [serialize] at he
      cases he
      simp [JsVal.strictEquals, ReadBack]
  | null | bool _ | string _ =>
      rw [serialize] at he
      cases he
      simp [toValue, JsVal.strictEquals, ReadBack]
  | number n =>
      cases n with
      | finite q =>
          rw [serialize] at he
          cases he
          rw [Option.elim_some, toValue, ReadBack]
          cases rt.literalValue (rt.numberToString q) <;>
            simp [JsVal.strictEquals]
      | _ =>
          rw [serialize] at he
          · cases he
            simp [toValue, JsVal.strictEquals, ReadBack]
          · intro q hq
            cases hq
  | bigint _ | raises _ =>
      rw [serialize] at he
      cases he
  | uint8Array _ | view _ _ | arrayBuffer _ | array _ | object _ _ =>
      rw [strictEquals_reference rfl (by intro h; cases h)]
      exact iff_of_false Bool.false_ne_true id

-- ========================================================== the header

section

variable {opts header extra : JsVal} {spec : Spec} {d : Option Lib.Json}

/-- With a `toJSON` of its own, an object is what that returns. -/
theorem serialize_toJson {own : List (JsString × JsVal)} {result : JsVal}
    (h : JsVal.lookup (js "toJSON") own = some (.func result)) :
    serialize rt (.object own []) false = serialize rt result true := by
  have hcall : toJson rt own = some (some (serialize rt result true)) := by
    rw [toJson_eq, h]
    rfl
  conv_lhs => unfold serialize
  rw [hcall]
  rfl

/-- A `kid` or `typ` of a header is the one of the options when JSON
gives it back. -/
theorem sameMember_iff {own : List (JsString × JsVal)} {k : JsString}
    {v : JsVal} {ms : List (JsString × Lib.Json)}
    (hv : opts.get k = .ok v)
    (hlookup : JsVal.lookup k own
      = if v.strictEquals .undefined then none else some v)
    (habsent : JsVal.lookup k own = none →
      (toValue rt (.object ms)).get k = .ok .undefined)
    (hpresent : ∀ v, JsVal.lookup k own = some v →
      ∃ e, serialize rt v false = .ok e
        ∧ (toValue rt (.object ms)).get k
          = .ok (e.elim .undefined (toValue rt))) :
    SameMember opts (toValue rt (.object ms)) k ↔ ReadBack rt v := by
  by_cases hundefined : v = .undefined
  · subst hundefined
    refine iff_of_true ⟨_, _, hv, habsent hlookup, rfl⟩ trivial
  · rw [if_neg (mt JsVal.strictEquals_undefined.mp hundefined)] at hlookup
    obtain ⟨e, he, hget⟩ := hpresent v hlookup
    simp only [SameMember, hv, hget, Except.ok.injEq, exists_and_left,
      exists_eq_left']
    exact readBack_iff he

/-- The data of a header answers for the options exactly when the header
stands. -/
theorem answers_iff {secretKey : JsVal}
    (h : signedHeader rt secretKey opts = .ok (spec, header))
    (hextra : extraHeader opts = .ok extra)
    (hd : serialize rt header false = .ok d) :
    (∃ j, d = some j ∧ Answers opts spec (toValue rt j))
      ↔ HeaderStands rt opts spec extra := by
  obtain ⟨alg, typ, kid, extra', members, -, hlisted, htyp, hkid, hextra',
    hmembers, hfree, rfl, hnames⟩ := signedHeader_spread h
  cases hextra.symm.trans hextra'
  have htoJson : JsVal.lookup (js "toJSON")
      (headerMembers (.string alg) typ kid members)
        = extra.own? (js "toJSON") := by
    rw [lookup_other (by decide)]
    exact (spread_ok hmembers).2 _ 116 (by decide) (by decide)
  unfold HeaderStands
  cases hown : ownToJson extra with
  | some result =>
      have hcall : extra.own? (js "toJSON") = some (.func result) := by
        unfold ownToJson at hown
        split at hown
        next r hr =>
          cases hown
          exact hr
        next => cases hown
      rw [serialize_toJson (htoJson.trans hcall)] at hd
      simp only [hd, Except.ok.injEq]
  | none =>
      have hcode : ∀ r, toJson rt
          (headerMembers (.string alg) typ kid members) ≠ some (some r) := by
        intro r hr
        rw [toJson_eq, htoJson] at hr
        unfold ownToJson at hown
        cases hmember : extra.own? (js "toJSON") with
        | none =>
            rw [hmember] at hr
            cases hr
        | some v =>
            rw [hmember] at hr hown
            cases v with
            | func result => cases hown
            | raises e => exact spread_ne_raises hmembers hmember
            | _ => cases hr
      obtain ⟨ms, rfl, habsent, hpresent⟩ :=
        get_roundTrip rt hnames hcode hd
      have halgGet : (toValue rt (.object ms)).get (js "alg")
          = .ok (.string alg) := by
        obtain ⟨e, he, hget⟩ := hpresent _ _ lookup_alg
        rw [serialize] at he
        cases he
        rw [hget, Option.elim_some, toValue]
      have hkidIff := sameMember_iff hkid (lookup_kid (hfree _ (by decide)))
        (habsent _) (hpresent _)
      have htypIff := sameMember_iff htyp (lookup_typ (hfree _ (by decide)))
        (habsent _) (hpresent _)
      simp only [Option.some_inj, exists_eq_left', Answers, hkidIff, htypIff,
        hkid, htyp, Except.ok.injEq, exists_and_left]
      exact and_iff_right ⟨alg, hlisted, halgGet⟩

end

-- =========================================================== the token

/-- The header of a token is the data that was signed: the first segment
decodes to the bytes of the text, the text to its units, and the units parse
to the data that was printed. -/
theorem decodeHeader_token (hrt : rt.Lawful) {header h : JsVal}
    {d : Option Lib.Json} (hd : serialize rt header false = .ok d)
    {bytes signature : Bytes} :
    decodeHeader rt (((tokenOf (encodeText (d.map Lib.Json.print)) bytes
        signature).splitOn 46).headD []) = .ok h
      ↔ ∃ j, d = some j ∧ h = toValue rt j := by
  rw [splitOn_token, List.headD_cons, decodeHeader, bind_eq_ok]
  simp only [strictB64url_iff]
  cases d with
  | none =>
      refine iff_of_false ?_ ?_
      · intro hx
        obtain ⟨x, ⟨hne, -⟩, -⟩ := hx
        exact hne rfl
      · intro hx
        obtain ⟨j, hj, -⟩ := hx
        cases hj
  | some j =>
      have hj := serialize_valid hrt header false j hd
      have hparse := Lib.Json.parse_textDecode_print hj
      have hne : encodeUrl (textEncode j.print) ≠ [] := by
        intro hempty
        rw [encodeUrl_eq_nil.mp hempty] at hparse
        cases hparse
      have htext : jsonParse rt (textDecode (textEncode j.print))
          = .ok (toValue rt j) := by
        rw [jsonParse, hparse]
      constructor
      · intro hx
        obtain ⟨x, ⟨-, hx⟩, hvalue⟩ := hx
        obtain rfl := encodeUrl_injective hx
        cases htext.symm.trans hvalue
        exact ⟨j, rfl, rfl⟩
      · intro hx
        obtain ⟨j', hj', rfl⟩ := hx
        cases hj'
        exact ⟨_, ⟨hne, rfl⟩, htext⟩

/-- **Which headers are the signer's.** A token `signJws` returns is
signed in the set of the row its header was made for, and advertises that
row's `alg` with the `kid` and the `typ` of the options exactly when the
header stands. -/
theorem signJws_advertises_iff (hrt : rt.Lawful)
    {payload secretKey opts : JsVal} {token : JsString}
    (h : signJws rt backends payload secretKey opts = .ok token) :
    ∃ spec header extra bytes payload signature,
      signedHeader rt secretKey (optionsOf opts) = .ok (spec, header)
      ∧ extraHeader (optionsOf opts) = .ok extra
      ∧ token = tokenOf bytes payload signature
      ∧ Signature.sign rt backends spec.mod secretKey
        (.uint8Array (signingInput (encodeUrl bytes) (encodeUrl payload)))
        .undefined = .ok (bytesToHex signature)
      ∧ (Advertises rt (optionsOf opts) spec token
        ↔ HeaderStands rt (optionsOf opts) spec extra) := by
  obtain ⟨-, spec, header, text, bytes, signature, hheader, htext, -, hsign,
    rfl⟩ := signJws_token.mp h
  obtain ⟨-, -, -, extra, -, -, -, -, -, hextra, -⟩ :=
    signedHeader_spread hheader
  obtain ⟨d, hd, rfl⟩ := stringify_ok.mp htext
  refine ⟨spec, header, extra, _, bytes, signature, hheader, hextra, rfl,
    hsign, ?_⟩
  rw [← answers_iff hheader hextra hd]
  simp only [Advertises, decodeHeader_token hrt hd]
  constructor
  · intro hx
    obtain ⟨v, ⟨j, hj, rfl⟩, hanswers⟩ := hx
    exact ⟨j, hj, hanswers⟩
  · intro hx
    obtain ⟨j, hj, hanswers⟩ := hx
    exact ⟨_, ⟨j, hj, rfl⟩, hanswers⟩

/-- A token with the options of `named65`, which are an `alg` and a
`kid`. -/
theorem signJws_advertises_named :
    ∃ token, signJws plainRuntime ⟨none, sizedNoble⟩ (.string (js "hi"))
        (.uint8Array (List.replicate 4032 7)) named65 = .ok token
      ∧ Advertises plainRuntime named65 ⟨.mlDsa65, 1952, 4032, 3309⟩
        token := by
  have hsigned := @named65_signed (.string (js "hi")) [104, 105] rfl
  obtain ⟨spec, header, extra, -, -, -, hheader, hextra, -, -, hiff⟩ :=
    signJws_advertises_iff plainRuntime_lawful hsigned
  cases hheader
  cases hextra
  exact ⟨_, hsigned, hiff.mpr ⟨_, _, rfl, rfl, trivial, trivial⟩⟩

/-- An object whose `toJSON` returns one that names the other set. -/
def restating : JsVal :=
  .object [(js "toJSON", .func (.object
    [(js "alg", .string (js "ML-DSA-87"))] []))] []

/-- Options with it as the `header`. -/
def named65Restating : JsVal :=
  .object [(js "alg", .string (js "ML-DSA-65")), (js "header", restating)] []

/-- The header that is made of them. -/
def restatedHeader : JsVal :=
  .object [(js "alg", .string (js "ML-DSA-65")),
    (js "toJSON", .func (.object
      [(js "alg", .string (js "ML-DSA-87"))] []))] []

theorem restatedHeader_data : serialize plainRuntime restatedHeader false
    = .ok (some (.object [(js "alg", .string (js "ML-DSA-87"))])) := rfl

/-- Signed with an ML-DSA-65 key under ML-DSA-65, and the header says
ML-DSA-87. -/
theorem advertised_other_set :
    ∃ token, signJws plainRuntime ⟨none, sizedNoble⟩
        (.string (js "hi")) (.uint8Array (List.replicate 4032 7))
        named65Restating = .ok token
      ∧ signedHeader plainRuntime (.uint8Array (List.replicate 4032 7))
        named65Restating
          = .ok (⟨.mlDsa65, 1952, 4032, 3309⟩, restatedHeader)
      ∧ decodeHeader plainRuntime ((token.splitOn 46).headD [])
        = .ok (.object [(js "alg", .string (js "ML-DSA-87"))] [])
      ∧ ¬Advertises plainRuntime named65Restating
        ⟨.mlDsa65, 1952, 4032, 3309⟩ token := by
  have hheader : signedHeader plainRuntime
      (.uint8Array (List.replicate 4032 7)) named65Restating
        = .ok (⟨.mlDsa65, 1952, 4032, 3309⟩, restatedHeader) := rfl
  have htext := stringify_ok.mpr ⟨_, restatedHeader_data, rfl⟩
  have hbytes : payloadBytes plainRuntime (.string (js "hi"))
      = .ok [104, 105] := rfl
  have hsigned := @signJws_sized _ _ named65_listed _ _ named65Restating
    (List.replicate 4032 7) _ _ List.length_replicate rfl hheader htext
    hbytes
  have hdecode := (@decodeHeader_token _ plainRuntime_lawful _ _ _
    restatedHeader_data [104, 105] (List.replicate 3309 7)).mpr
      ⟨_, rfl, rfl⟩
  refine ⟨_, hsigned, hheader, hdecode, ?_⟩
  intro hx
  obtain ⟨h, hh, ⟨alg, hlisted, halg⟩, -⟩ := hx
  cases hdecode.symm.trans hh
  cases halg
  exact absurd hlisted (by decide)

end KxcoPostQuantum.Jws
