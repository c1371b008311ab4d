/-
What a delivery has shown of its timestamp once a signature is checked.

A timestamp that passes is a string of digits, so the bytes that are
signed are digits, a dot and the body (`Reaches.message`), and their
first dot ends the timestamp (`message_inj`).

# The window

The comparison is one of binary64 numbers. Over the integer the digits
stand for it is the comparison of the exact numbers up to the error of
three roundings (`within_of_le`); whole milliseconds are too far apart
for that error to show.
-/
import KxcoPostQuantum.Jws.Proofs.Segments
import KxcoPostQuantum.Webhook.Index

namespace KxcoPostQuantum.Webhook

open Lib.Utf8

-- ========================================================= the window

/-- The integer a string of decimal digits stands for. -/
def decimalValue (s : JsString) : ℕ :=
  s.foldl (fun n c => n * 10 + (c.toNat - 48)) 0

/-- `windowSeconds` as the comparison reads it. -/
def windowNumber (rt : Runtime) (windowSeconds : JsVal) :
    Except JsError JsNumber :=
  match windowSeconds with
  | .undefined => .ok (.finite 300)
  | .number n => .ok n
  | v => rt.toNumber v

/-- A number of seconds is within a window of a clock that stands at `now`
milliseconds: up to the error of binary64 arithmetic, and exactly where
the window is whole milliseconds and not tens of thousands of years. -/
def Within (now seconds : ℕ) : JsNumber → Prop
  | .finite w =>
      |(now / 1000 : ℚ) - seconds| ≤ w + (1 + now / 1000 + w) / 2 ^ 51
        ∧ ((∃ m : ℤ, w = m / 1000) → now / 1000 + w ≤ 2 ^ 40 →
          |(now / 1000 : ℚ) - seconds| ≤ w)
  | .posInf => True
  | _ => False

/-- Two numbers of milliseconds less than one apart are in order. -/
theorem le_of_le_add {x w : ℚ} (hx : ∃ m : ℤ, x = m / 1000)
    (hw : ∃ m : ℤ, w = m / 1000) {e : ℚ} (h : x ≤ w + e) (he : e < 1 / 1000) :
    x ≤ w := by
  obtain ⟨m, rfl⟩ := hx
  obtain ⟨n, rfl⟩ := hw
  have hlt : (m : ℚ) < n + 1 := by linarith
  have hle : m ≤ n := by
    have : m < n + 1 := by exact_mod_cast hlt
    omega
  have : (m : ℚ) ≤ n := by exact_mod_cast hle
  linarith

/-- **The comparison** `Math.abs(now / 1000 - tsNum) <= w`, over the
integer the timestamp stands for. -/
theorem within_of_le {now seconds : ℕ} {w : JsNumber}
    (hfinite : (JsNumber.round seconds).isFinite = true)
    (h : (JsNumber.absSub (.round (now / 1000)) (.round seconds)).le w
      = true) :
    Within now seconds w := by
  generalize hts : JsNumber.round seconds = ts at h hfinite
  cases ts with
  | nan => cases hfinite
  | posInf => cases hfinite
  | negInf => cases hfinite
  | finite b =>
      rcases JsNumber.absSub_le h with rfl | ⟨a, r, w', ha, rfl, hr, hle⟩
      · trivial
      have hclock := abs_le.mp (JsNumber.round_error ha)
      have hseconds := abs_le.mp (JsNumber.round_error hts)
      have hsub := abs_le.mp (JsNumber.round_error hr)
      rw [abs_of_nonneg (by positivity)] at hclock hseconds
      rw [abs_abs] at hsub
      have hnear : |(now / 1000 : ℚ) - seconds|
          ≤ w' + (1 + now / 1000 + w') / 2 ^ 51 := by
        have hle := le_abs_self (a - b)
        have hge := neg_abs_le (a - b)
        have hn : (0 : ℚ) ≤ now / 1000 := by positivity
        rw [abs_le]
        constructor <;> linarith
      refine ⟨hnear, fun hw hsmall => le_of_le_add ?_ hw hnear ?_⟩
      · refine ⟨|(now : ℤ) - 1000 * seconds|, ?_⟩
        rw [Int.cast_abs, ← abs_of_pos (by norm_num : (0 : ℚ) < 1000),
          ← abs_div, abs_of_pos (by norm_num : (0 : ℚ) < 1000)]
        push_cast
        congr 1
        ring
      · linarith

-- ======================================================= the timestamp

/-- A timestamp header in order: decimal digits, for an integer within the
window. -/
structure Timely (rt : Runtime) (now : ℕ) (d : Delivery) (ts : JsString) :
    Prop where
  header : d.headers.get (js "x-kxco-timestamp") = .ok (.string ts)
  nonempty : ts ≠ []
  digits : ∀ c ∈ ts, Lib.Json.isDigit c = true
  window : ∃ w, windowNumber rt d.windowSeconds = .ok w
    ∧ Within now (decimalValue ts) w

theorem checkTimestamp_eq (rt : Runtime) (now : ℕ) (ts window : JsVal) :
    checkTimestamp rt now ts window
      = if (timestampNumber ts).isFinite then
          windowNumber rt window >>= fun w =>
            pure ((JsNumber.absSub (.round (now / 1000))
              (timestampNumber ts)).le w)
        else .ok false := by
  unfold checkTimestamp
  cases window <;> rfl

/-- What `timestampOk` says of the header: it is a string of digits, and
what these come to is within the window of the clock, up to the rounding of
the language. -/
theorem checkTimestamp_ok {rt : Runtime} {now : ℕ} {ts window : JsVal}
    (h : checkTimestamp rt now ts window = .ok true) :
    ∃ s, ts = .string s ∧ s ≠ [] ∧ (∀ c ∈ s, Lib.Json.isDigit c = true)
      ∧ ∃ w, windowNumber rt window = .ok w
        ∧ Within now (decimalValue s) w := by
  rw [checkTimestamp_eq] at h
  split at h
  next hfinite =>
    obtain ⟨w, hw, hcompare⟩ := bind_eq_ok.mp h
    rw [pure_eq_ok] at hcompare
    cases ts with
    | string s =>
        rw [timestampNumber] at hfinite hcompare
        split at hfinite
        next hdigits =>
          rw [if_pos hdigits] at hcompare
          simp only [isDigits, Bool.and_eq_true, List.all_eq_true,
            Bool.not_eq_true', List.isEmpty_eq_false_iff] at hdigits
          exact ⟨s, rfl, hdigits.1, hdigits.2, w, hw,
            within_of_le hfinite hcompare⟩
        next => cases hfinite
    | _ => cases hfinite
  next => cases h

/-- What a reading says of the headers. -/
theorem readDelivery_ok {rt : Runtime} {now : ℕ} {d : Delivery} {r : Reading}
    (h : readDelivery rt now d = .ok r) :
    (∃ v, d.headers.get (js "x-kxco-timestamp") = .ok v
        ∧ r.ts = headerString v)
      ∧ (∃ v, d.headers.get (js "x-kxco-signature") = .ok v
        ∧ r.sigHmac = headerString v)
      ∧ (∃ v, d.headers.get (js "x-kxco-pq-signature") = .ok v
        ∧ r.sigPq = headerString v)
      ∧ (∃ v, d.headers.get (js "x-kxco-pq-kid") = .ok v
        ∧ r.kidOk = (!d.pinnedKid.truthy
          || (headerString v).strictEquals d.pinnedKid))
      ∧ checkTimestamp rt now r.ts d.windowSeconds = .ok r.timestampOk := by
  simp only [readDelivery, bind_eq_ok, pure_eq_ok] at h
  obtain ⟨ts, hts, sigHmac, hhmac, sigPq, hpq, kid, hkid, ok, hok, rfl⟩ := h
  exact ⟨⟨ts, hts, rfl⟩, ⟨sigHmac, hhmac, rfl⟩, ⟨sigPq, hpq, rfl⟩,
    ⟨kid, hkid, rfl⟩, hok⟩

theorem headerString_eq {v : JsVal} {s : JsString} :
    headerString v = .string s ↔ v = .string s := by
  cases v <;> simp [headerString]

/-- A delivery whose timestamp passes. -/
theorem timely_of_reading {rt : Runtime} {now : ℕ} {d : Delivery}
    {r : Reading} (h : readDelivery rt now d = .ok r)
    (hok : r.timestampOk = true) :
    ∃ ts, r.ts = .string ts ∧ Timely rt now d ts := by
  obtain ⟨⟨v, hv, hts⟩, -, -, -, hcheck⟩ := readDelivery_ok h
  rw [hok] at hcheck
  obtain ⟨s, hs, hne, hdigits, hwindow⟩ := checkTimestamp_ok hcheck
  refine ⟨s, hs, ?_, hne, hdigits, hwindow⟩
  rw [hv, headerString_eq.mp (hts.symm.trans hs)]

/-- The timestamp passes wherever a signature is checked. -/
theorem timestampOk_of_reached {d : Delivery} {r : Reading}
    (h : hmacReached d r = true ∨ pqReached d r = true) :
    r.timestampOk = true := by
  rcases h with h | h
  · exact (Bool.and_eq_true_iff.mp h).2
  · exact (Bool.and_eq_true_iff.mp (Bool.and_eq_true_iff.mp h).1).2

-- ======================================================= what is signed

/-- `verifyDelivery` gets to a signature check, and the bytes it checks
are `message`. -/
def Reaches (rt : Runtime) (now : Nat) (d : Delivery) (message : Bytes) :
    Prop :=
  ∃ r, readDelivery rt now d = .ok r
    ∧ (hmacReached d r = true ∨ pqReached d r = true)
    ∧ envelope rt r.ts d.rawBody = .ok message

/-- A digit is ASCII and is not a dot. -/
theorem digit_spec {c : UInt16} (h : Lib.Json.isDigit c = true) :
    c.toNat < 0x80 ∧ c ≠ 46 := by
  simp only [Lib.Json.isDigit, Bool.and_eq_true, decide_eq_true_eq] at h
  refine ⟨by omega, ?_⟩
  rintro rfl
  exact absurd h.1 (by decide)

/-- The bytes of text without a dot have no dot. -/
theorem dot_notMem_asciiBytes {s : JsString}
    (hs : ∀ c ∈ s, c.toNat < 0x80 ∧ c ≠ 46) :
    (46 : UInt8) ∉ Jws.asciiBytes s := by
  intro h
  obtain ⟨c, hc, heq⟩ := List.mem_map.mp h
  obtain ⟨hascii, hdot⟩ := hs c hc
  have hnat := congrArg UInt8.toNat heq
  rw [Nat.toUInt8_eq, UInt8.toNat_ofNat', Nat.mod_eq_of_lt (by omega)] at hnat
  exact hdot (UInt16.toNat_inj.mp hnat)

/-- A timestamp and its dot as bytes. -/
theorem textEncode_timestamp {ts : JsString}
    (hts : ∀ c ∈ ts, Lib.Json.isDigit c = true) :
    textEncode (ts ++ js ".") = Jws.asciiBytes ts ++ [46] := by
  rw [textEncode_ascii, List.map_append]
  · rfl
  · intro c hc
    rcases List.mem_append.mp hc with hc | hc
    · exact (digit_spec (hts c hc)).1
    · rw [List.mem_singleton.mp hc]
      decide

/-- The signed bytes are the timestamp, a dot and the body. -/
theorem Reaches.message {rt : Runtime} {now : Nat} {d : Delivery}
    {message : Bytes} (h : Reaches rt now d message) :
    ∃ ts body, Timely rt now d ts ∧ Signature.toBytes d.rawBody = .ok body
      ∧ message = textEncode (ts ++ js ".") ++ body := by
  obtain ⟨r, hr, hreached, henv⟩ := h
  obtain ⟨ts, hts, htimely⟩ :=
    timely_of_reading hr (timestampOk_of_reached hreached)
  simp only [hts, envelope, bind_eq_ok, pure_eq_ok] at henv
  obtain ⟨body, hbody, text, htext, rfl⟩ := henv
  cases htext
  exact ⟨ts, body, htimely, hbody, rfl⟩

/-- **One split.** The signed bytes give back the timestamp and the
body. -/
theorem message_inj {ts ts' : JsString} {body body' : Bytes}
    (hts : ∀ c ∈ ts, Lib.Json.isDigit c = true)
    (hts' : ∀ c ∈ ts', Lib.Json.isDigit c = true)
    (h : textEncode (ts ++ js ".") ++ body
      = textEncode (ts' ++ js ".") ++ body') :
    ts = ts' ∧ body = body' := by
  have hascii : ∀ {s : JsString}, (∀ c ∈ s, Lib.Json.isDigit c = true) →
      ∀ c ∈ s, c.toNat < 0x80 := fun hs c hc => (digit_spec (hs c hc)).1
  have hdot : ∀ {s : JsString}, (∀ c ∈ s, Lib.Json.isDigit c = true) →
      (46 : UInt8) ∉ Jws.asciiBytes s :=
    fun hs => dot_notMem_asciiBytes fun c hc => digit_spec (hs c hc)
  rw [textEncode_timestamp hts, textEncode_timestamp hts', List.append_assoc,
    List.append_assoc] at h
  obtain ⟨htext, hbody⟩ := Jws.append_dot_inj (hdot hts) (hdot hts') h
  refine ⟨Jws.textEncode_inj (hascii hts) (hascii hts') ?_, hbody⟩
  rw [textEncode_ascii (hascii hts), textEncode_ascii (hascii hts')]
  exact htext

end KxcoPostQuantum.Webhook
