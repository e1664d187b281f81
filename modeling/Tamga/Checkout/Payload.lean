import Tamga.Checkout.Verify

/-!
# `Checkout.Payload` — what follows a signature check

Three facts about `verifyPayload`, one per way into it, on which everything about the two file
formats rests. A verified file is decided by its payload alone, whichever keys were asked; a file
that did not verify under the one key is refused before anything is decoded; one that did not verify
under a key set is never accepted, whatever its payload says.
-/

namespace Tamga

open Alloc Json

variable {L : Libc} {texts : FileTexts} {keys : Option KeySet} {decode : Call Bytes}
  {nowUnix : Int64} {resource : Json}

/-- The payload a verified file is decided by. -/
def readPayload (L : Libc) (texts : FileTexts) (decode : Call Bytes) : Call Json := do
  let plaintext ← decode
  parseDocument L plaintext texts.parseNoMemory texts.malformed

/-- **After a good signature.** The keys play no further part. -/
theorem verifyPayload_verified :
    (verifyPayload L texts keys true decode nowUnix).ok = match (readPayload L texts decode).ok with
      | .error f => .error f
      | .ok payload => (finish texts (some payload) nowUnix).ok := by
  unfold verifyPayload readPayload
  rw [if_neg (by simp), AllocE.ok_bind_of_ok (Call.ok_attempt _)]
  generalize AllocE.ok (decode >>= _) = probe
  cases probe with
  | error f => rfl
  | ok payload => rfl

/-- **After a bad signature, one key.** -/
theorem verifyPayload_unverified :
    verifyPayload L texts none false decode nowUnix =
      Call.fail .signatureInvalid texts.signatureInvalid := by
  unfold verifyPayload
  rw [if_pos (by simp)]

/-- **After a bad signature, a key set.** The label decides. -/
theorem verifyPayload_label {set : KeySet} {f : Failure}
    (hf : keySetLabelFailure (some set) (readPayload L texts decode).ok = .error f) :
    (verifyPayload L texts (some set) false decode nowUnix).ok = .error f := by
  unfold readPayload at hf
  unfold verifyPayload
  rw [if_neg (by simp), AllocE.ok_bind_of_ok (Call.ok_attempt _), if_neg Bool.false_ne_true, hf]
  rfl

theorem verifyPayload_unlabelled {set : KeySet} :
    ∃ f, (verifyPayload L texts (some set) false decode nowUnix).ok = .error f ∧
      f.code ∈ labelCodes := by
  obtain ⟨f, hf, hcode⟩ := keySetLabelFailure_error (some set) (readPayload L texts decode).ok
  exact ⟨f, verifyPayload_label hf, hcode⟩

/-- The payload is current and carries `resource`. -/
def CurrentPayload (payload : Json) (nowUnix : Int64) (resource : Json) : Prop :=
  ∃ claims, ClaimsOf payload claims ∧ ExpiresNotBefore claims (nowUnix.toInt - 60) ∧
    ResourceOf payload resource

/-- **Acceptance.** A resource comes out of exactly the verified files whose payload decodes, is a
    document, is current and carries it. -/
theorem verifyPayload_eq_ok (hL : ConsumesNumbers L) (hnow : 60 ≤ nowUnix.toInt) {verified : Bool} :
    (∃ fileClaims, (verifyPayload L texts keys verified decode nowUnix).ok =
      .ok (resource, fileClaims)) ↔
      verified = true ∧ ∃ plaintext payload, decode.ok = .ok plaintext ∧ Reads L plaintext payload ∧
        CurrentPayload payload nowUnix resource := by
  cases verified with
  | false =>
    refine ⟨?_, fun h => absurd h.1 (by decide)⟩
    rintro ⟨fileClaims, h⟩
    cases keys with
    | none => rw [verifyPayload_unverified] at h; cases h
    | some set =>
      obtain ⟨f, hf, -⟩ := @verifyPayload_unlabelled L texts decode nowUnix set
      rw [hf] at h; cases h
  | true =>
    have hread : ∀ payload, (readPayload L texts decode).ok = .ok payload ↔
        ∃ plaintext, decode.ok = .ok plaintext ∧ Reads L plaintext payload := by
      intro payload
      unfold readPayload
      simp only [AllocE.ok_bind_eq_ok, parseDocument_eq_ok hL]
    rw [verifyPayload_verified]
    constructor
    · rintro ⟨fileClaims, h⟩
      cases hp : (readPayload L texts decode).ok with
      | error f => rw [hp] at h; cases h
      | ok payload =>
        rw [hp] at h
        obtain ⟨plaintext, hplain, hreads⟩ := (hread payload).mp hp
        obtain ⟨hclaims, hexp, hres⟩ := (finish_eq_ok hreads.storable).mp h
        obtain ⟨claims, hclaims, hexp⟩ := (current_iff hnow).mp ⟨fileClaims, hclaims, hexp⟩
        exact ⟨rfl, plaintext, payload, hplain, hreads, claims, hclaims, hexp, hres⟩
    · rintro ⟨-, plaintext, payload, hplain, hreads, claims, hclaims, hexp, hres⟩
      obtain ⟨fileClaims, hclaims, hexp⟩ := (current_iff hnow).mpr ⟨claims, hclaims, hexp⟩
      rw [(hread payload).mpr ⟨plaintext, hplain, hreads⟩]
      exact ⟨fileClaims, (finish_eq_ok hreads.storable).mpr ⟨hclaims, hexp, hres⟩⟩

end Tamga
