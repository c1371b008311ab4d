/-
What the DRBG's methods are made of, and the services that draw nothing.

A property of procedures that the primitives have and sequencing keeps is
a property of every method up to the assignments of the counter and the
errors of the class's own (`Closed`). Each such property is an instance,
and the walk through the methods is made once. So it is for a property of
reading arguments and asking a primitive, through the three services that
do nothing else (`Asks`).
-/
import KxcoPostQuantum.Fips.Module

namespace KxcoPostQuantum.Fips

open Lib (Eff)

/-- The primitives of the DRBG's methods have the property, and sequencing
keeps it. -/
structure Closed (P : {α : Type} → Proc α → Prop) : Prop where
  pure : ∀ {α : Type} (a : α), P (pure a)
  throw : ∀ {α : Type} (e : JsError), P (throw e : Proc α)
  get : P Eff.get
  bind : ∀ {α β : Type} {p : Proc α} {f : α → Proc β}, P p →
    (∀ a, P (f a)) → P (p >>= f)
  contents : ∀ l, P (contents l)
  newArray : ∀ b, P (newArray b)
  fillZero : ∀ l, P (fillZero l)
  hmacSha512 : ∀ hmac key message, P (hmacSha512 hmac key message)
  setK : ∀ l, P (HmacDrbg.setK l)
  setV : ∀ l, P (HmacDrbg.setV l)

namespace Closed

variable {P : {α : Type} → Proc α → Prop} (hP : Closed @P)
include hP

theorem ofExcept {α : Type} (r : Except JsError α) :
    P (Eff.ofExcept r : Proc α) := by
  cases r with
  | ok a => exact hP.pure a
  | error e => exact hP.throw e

theorem nonNull (l : Option Nat) : P (nonNull l) := by
  cases l with
  | none => exact hP.throw _
  | some l => exact hP.pure l

variable (hmac : Hmac)

theorem step (byte : UInt8) (provided : ByteArg) :
    P (HmacDrbg.step hmac byte provided) :=
  hP.bind hP.get fun w =>
  hP.bind (hP.nonNull w.drbg.K) fun oldK =>
  hP.bind (hP.nonNull w.drbg.V) fun oldV =>
  hP.bind (hP.ofExcept _) fun message =>
  hP.bind (hP.contents oldK) fun key =>
  hP.bind (hP.hmacSha512 hmac key message) fun k =>
  hP.bind (hP.newArray k) fun k =>
  hP.bind (hP.setK k) fun _ =>
  hP.bind (hP.contents k) fun key =>
  hP.bind (hP.contents oldV) fun message =>
  hP.bind (hP.hmacSha512 hmac key message) fun v =>
  hP.bind (hP.newArray v) fun v =>
  hP.bind (hP.setV v) fun _ =>
  hP.bind (hP.fillZero oldK) fun _ => hP.fillZero oldV

theorem update (provided : ByteArg) : P (HmacDrbg.update hmac provided) :=
  hP.bind (hP.step hmac _ _) fun _ =>
  hP.bind (hP.ofExcept _) fun _ => iteInduction (motive := P)
    (fun _ => hP.pure _) fun _ => hP.step hmac _ _

theorem fillOutput (bytes filled : Nat) (out : Bytes) :
    P (HmacDrbg.fillOutput hmac bytes filled out) := by
  induction hk : bytes - filled using Nat.strong_induction_on
    generalizing filled out with
  | _ k ih =>
      unfold HmacDrbg.fillOutput
      by_cases hf : filled < bytes
      · rw [if_pos hf]
        have hlt : bytes - (filled + min outlen (bytes - filled)) < k := by
          simp only [outlen]
          omega
        exact
          hP.bind hP.get fun w =>
          hP.bind (hP.nonNull w.drbg.K) fun key =>
          hP.bind (hP.nonNull w.drbg.V) fun value =>
          hP.bind (hP.contents key) fun kb =>
          hP.bind (hP.contents value) fun vb =>
          hP.bind (hP.hmacSha512 hmac kb vb) fun next =>
          hP.bind (hP.newArray next) fun v =>
          hP.bind (hP.setV v) fun _ =>
          hP.bind (hP.contents v) fun block =>
          hP.bind (hP.ofExcept _) fun out => ih _ hlt _ out rfl
      · rw [if_neg hf]
        exact hP.pure out

theorem updateIfProvided (a : ByteArg) :
    P (HmacDrbg.updateIfProvided hmac a) :=
  hP.bind (hP.ofExcept _) fun _ => iteInduction (motive := P)
    (fun _ => hP.update hmac a) fun _ => hP.pure _

end Closed

-- ======================================================= the services

/-- Reading an argument and asking a primitive have the property, and
sequencing keeps it. -/
structure Asks (P : {α : Type} → Proc α → Prop) : Prop where
  ofExcept : ∀ {α : Type} (r : Except JsError α), P (Eff.ofExcept r)
  /-- A question with an answer in the place of an error. -/
  askOr : ∀ {α : Type} (f : Nat → Except JsError α) (a : α),
    P (tryCatch (ask f) fun _ => pure a)
  ask : ∀ {α : Type} (f : Nat → Except JsError α), P (ask f)
  pure : ∀ {α : Type} (a : α), P (pure a)
  bind : ∀ {α β : Type} {p : Proc α} {f : α → Proc β}, P p →
    (∀ a, P (f a)) → P (p >>= f)

namespace Asks

variable {P : {α : Type} → Proc α → Prop} (hP : Asks @P)
  (rt : Runtime) (env : Env)
include hP

theorem keypairFromSeed (alg seed : JsVal) :
    P (keypairFromSeed rt env alg seed) := by
  unfold Fips.keypairFromSeed
  apply hP.bind (hP.ofExcept _)
  intro name
  apply hP.bind (hP.ofExcept _)
  intro seed
  cases entryOf KEM alg with
  | some kem =>
      exact hP.bind (hP.ofExcept _) fun _ => hP.bind (hP.ask _) fun _ =>
        hP.pure _
  | none =>
      exact hP.bind (hP.ofExcept _) fun _ => hP.bind (hP.ofExcept _) fun _ =>
        hP.bind (hP.ask _) fun _ => hP.pure _

theorem decapsulate (alg cipherText secretKey : JsVal) :
    P (decapsulate rt env alg cipherText secretKey) :=
  hP.bind (hP.ofExcept _) fun _ =>
  hP.bind (hP.ofExcept _) fun _ =>
  hP.bind (hP.ofExcept _) fun _ =>
  hP.bind (hP.ask _) fun _ => hP.pure _

theorem verify (alg publicKey message signature opts : JsVal) :
    P (verify rt env alg publicKey message signature opts) :=
  hP.bind (hP.ofExcept _) fun _ =>
  hP.bind (hP.ofExcept _) fun _ =>
  hP.bind (hP.ofExcept _) fun _ =>
  hP.bind (hP.ofExcept _) fun _ =>
  hP.bind (hP.ofExcept _) fun _ =>
  hP.bind (hP.askOr _ _) fun _ => hP.pure _

end Asks

end KxcoPostQuantum.Fips
