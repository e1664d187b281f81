import Tamga.Checkout.Expiry
import Tamga.Checkout.KeyId

/-!
# `Checkout.Stray` — the verdict on a payload

What is made of the probe of a payload: its failure is relabelled when no signature was verified
(`gateFailure`), and what passes is handed on to the claims.
-/

namespace Tamga

open Alloc Base64 Json

variable {L : Libc}

/-! ## The payload -/

section Payload

variable {texts : FileTexts} {keys : Option KeySet} {verified : Bool} {decode : Call Bytes}
  {nowUnix : Int64}

/-- What stands between the probe and the claims. -/
def payloadGate (keys : Option KeySet) (verified : Bool) (probe : Except Failure Json) :
    Except Failure Unit :=
  if verified then probe.map fun _ => () else keySetLabelFailure keys probe

/-- What is made of a failed probe. -/
def gateFailure (verified : Bool) (f : Failure) : Failure :=
  if verified = true ∨ f.code = .outOfMemory ∨ f.code = .nullArgument then f
  else errorSet .signatureInvalid
    (ascii "signature did not verify under any held key, and the payload could not be read to name the key it claims")

theorem payloadGate_error (verified : Bool) (f : Failure) :
    payloadGate keys verified (.error f) = .error (gateFailure verified f) := by
  unfold gateFailure
  cases verified with
  | true => rfl
  | false =>
    show keySetLabelFailure keys (.error f) = _
    unfold keySetLabelFailure
    simp only [Bool.false_eq_true, false_or]
    split
    · rfl
    · rfl

/-- The code of the failure comes from the code of the probe's. -/
theorem gateFailure_code {f f' : Failure} (h : f.code = f'.code) :
    (gateFailure verified f).code = (gateFailure verified f').code := by
  unfold gateFailure
  rw [h]
  split
  · exact h
  · rfl

/-- From the probe on. -/
def afterProbe (texts : FileTexts) (keys : Option KeySet) (verified : Bool) (nowUnix : Int64)
    (probe : Except Failure Json) : Call (Json × FileClaims) :=
  match payloadGate keys verified probe with
  | .error f => throwThe Failure f
  | .ok () => finish texts probe.toOption nowUnix

theorem verifyPayload_eq (h : ¬ (verified = false ∧ keys.isNone = true)) :
    verifyPayload L texts keys verified decode nowUnix =
      Call.attempt (readPayload L texts decode) >>= afterProbe texts keys verified nowUnix := by
  unfold verifyPayload
  rw [if_neg h]
  rfl

theorem afterProbe_error (verified : Bool) (f : Failure) :
    afterProbe texts keys verified nowUnix (.error f) = throwThe Failure (gateFailure verified f) := by
  unfold afterProbe
  rw [payloadGate_error]

theorem readPayload_storable {payload : Json} (h : (readPayload L texts decode).ok = .ok payload) :
    payload.Every Storable := by
  obtain ⟨plaintext, -, hparse⟩ := AllocE.ok_bind_eq_ok.1 h
  exact (parseDocument_reads (AllocE.can_false.2 hparse)).storable

end Payload

/-- Claims that cannot be read make the payload malformed. -/
theorem claimsRead_code {claims : Option Json} {f : Failure} (h : claimsRead claims = .error f) :
    f.code = .invalidJson := by
  unfold claimsRead claimsExpiry at h
  split at h
  · split at h
    · rename_i hexpiry
      split at hexpiry
      · cases hexpiry
      · cases hexpiry
      · split at hexpiry
        · cases hexpiry
        · obtain rfl := Except.error.inj h
          obtain rfl := Except.error.inj hexpiry
          rfl
    · cases h
  · obtain rfl := Except.error.inj h
    rfl

end Tamga
