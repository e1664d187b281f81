import Tamga.Api
import Tamga.Http.Composed

/-!
# `Http.Slot` — the error slot across calls that call (`http/endpoints.c`)

The lookup of a machine and the two activations call public functions, each of which clears the slot
and may fill it: a creation that is refused, a deletion nobody looks at, a lookup whose failure becomes
another one. Here they are with the slot in view. Whatever the calls in between did to it, on return
the slot holds the text of the failure that is returned, and is empty if none is.
-/

namespace Tamga

open Alloc Interact Json ErrorSlot

/-- Code of `http/endpoints.c` on a thread with an error slot. -/
abbrev HttpSlotted (α : Type) : Type := StateT ErrorSlot (Interact Attempt Answer) α

variable (P : Platform)

/-- The failure of an outcome. -/
def refusalOf : Outcome → Option Failure
  | .ok _ => none
  | .error refusal => some refusal.failure

/-- A public function that makes one request: it clears the slot, and stores what it returns. -/
def Operation.runSlotted (client : Option Client) (slot : Bool) (op : Operation) :
    HttpSlotted Outcome := do
  errorClear
  match ← (liftM (op.run P client slot) : HttpSlotted Outcome) with
  | .ok response => return .ok response
  | .error refusal => do
      errorStore refusal.failure
      return .error refusal

/-- The loop of `tamga_client_find_machine_by_fingerprint`. `tamga_response_page` is public, and clears
    the slot on the way. -/
def findPagesSlotted (client : Client) (licenseId fingerprint : Bytes) :
    (pagesLeft page : Nat) → HttpSlotted (Except Failure (Option Bytes))
  | 0, _ => return .ok none
  | pagesLeft + 1, page => do
      match ← (Operation.listMachines (some licenseId) (some fingerprint) (UInt32.ofNat page)
          machinePageSize).runSlotted P (some client) true with
      | .error refusal => return .error refusal.failure
      | .ok response => do
          let found ← (liftM (ofAlloc (machinePageExactMatch response fingerprint) :
            Interact Attempt Answer _) : HttpSlotted _)
          errorClear
          match found with
          | .error code => do
              errorStore (errorSet code (ascii "could not read the machine listing"))
              return .error (errorSet code (ascii "could not read the machine listing"))
          | .ok (some id) => return .ok (some id)
          | .ok none =>
              match responseTotalPages response with
              | none => return .ok none
              | some totalPages =>
                  if totalPages.toInt ≤ page then return .ok none
                  else findPagesSlotted client licenseId fingerprint pagesLeft (page + 1)

/-- `tamga_client_find_machine_by_fingerprint`. -/
def findMachineByFingerprintSlotted (client : Option Client) (licenseId fingerprint : Option Bytes)
    (slot : Bool) : HttpSlotted (Except Failure (Option Bytes)) := do
  errorClear
  match client, fingerprint, slot with
  | some client, some fingerprint, true => do
      match ← (Slotted.ofCall (requireUuid licenseId "license_id")).run with
      | .error failure => return .error failure
      | .ok licenseId => findPagesSlotted P client licenseId fingerprint machineLookupMaxPages 1
  | _, _, _ =>
      (Slotted.raise (errorSet .nullArgument
        (ascii "client, fingerprint and out_machine_id are required"))).run

/-- `tamga_activate_after_create`. The slot is cleared behind the deletion. -/
def activateAfterCreateSlotted (client : Option Client) (a : Activation) (created : Response)
    (slot : Bool) : HttpSlotted Reply := do
  match ← a.validate.runSlotted P client true with
  | .error refusal => return replyOf slot (.error refusal)
  | .ok validated =>
      if a.autoDeleteOnOverage = true ∧
          validationCodeIsOverage (responseValidationCodeEnum validated) = true then
        match createdMachineId created with
        | none => do
            errorClear
            return replyOf slot (.ok validated)
        | some machineId => do
            let _ ← (Operation.deleteMachine (some machineId)).runSlotted P client true
            errorClear
            return replyOf slot (.ok validated)
      else return replyOf slot (.ok validated)

/-- `tamga_client_activate_machine`. -/
def activateMachineSlotted (client : Option Client) (a : Activation) (slot : Bool) :
    HttpSlotted Reply := do
  errorClear
  match ← a.create.runSlotted P client true with
  | .ok created => activateAfterCreateSlotted P client a created slot
  | .error refusal => return activateCreateFailed refusal slot

/-- The machine that is to be adopted. -/
def adoptedMachineSlotted (client : Option Client) (a : Activation) (refusal : Refusal) :
    HttpSlotted (Except Failure Bytes) := do
  match ← (liftM (ofAlloc (conflictMachineId refusal.response) : Interact Attempt Answer _) :
      HttpSlotted _) with
  | .error code =>
      (Slotted.raise (errorSet code (ascii "could not read the conflict response"))).run
  | .ok (some machineId) => return .ok machineId
  | .ok none =>
      match ← findMachineByFingerprintSlotted P client a.licenseId a.fingerprint true with
      | .ok (some machineId) => return .ok machineId
      | .ok none =>
          (Slotted.raise (errorSet .fingerprintTaken
            (ascii ("the fingerprint is already activated on a different licence "
              ++ "under the policy's uniqueness scope")))).run
      | .error failure =>
          if failure.code = .outOfMemory then return .error failure
          else
            (Slotted.raise (errorSet .fingerprintTaken
              (ascii ("the fingerprint is already activated, and the existing "
                ++ "machine could not be looked up (" ++ errorName failure.code ++ ")")))).run

/-- `tamga_client_activate_machine_idempotent`. -/
def activateMachineIdempotentSlotted (client : Option Client) (a : Activation) (slot : Bool) :
    HttpSlotted Reply := do
  errorClear
  match ← a.create.runSlotted P client true with
  | .ok created => activateAfterCreateSlotted P client a created slot
  | .error refusal =>
      if refusal.failure.code ≠ .fingerprintTaken then return activateCreateFailed refusal slot
      else
        match ← adoptedMachineSlotted P client a refusal with
        | .error failure => return ⟨some failure, none⟩
        | .ok _ => do
            let outcome ← a.validate.runSlotted P client slot
            return replyOf slot outcome

/-! ## What they leave in the slot -/

section Reporting

variable {P}

theorem Operation.runSlotted_follows (op : Operation) (client : Option Client) (slot : Bool) :
    Follows (fun _ => empty) refusalOf (op.runSlotted P client slot) (op.run P client slot) := by
  intro s
  have h := Tracks.bind (Tracks.lift (s := empty) (op.run P client slot))
    (f := fun outcome => match outcome with
      | .ok response => (return .ok response : HttpSlotted Outcome)
      | .error refusal => do
          errorStore refusal.failure
          return .error refusal) (z := pure) (k := fun outcome => empty.after (refusalOf outcome)) (by
        rintro (refusal | response)
        · exact rfl
        · exact rfl)
  rw [bind_pure] at h
  exact .set_bind h

/-- **The walk over pages.** Every page starts with an empty slot, by induction on the pages left. -/
theorem findPagesSlotted_tracks (client : Client) (licenseId fingerprint : Bytes) :
    ∀ pagesLeft page, Tracks empty (findPagesSlotted P client licenseId fingerprint pagesLeft page)
      (findPages P client licenseId fingerprint pagesLeft page) fun r => empty.after (failureOf r)
  | 0, _ => .pure rfl
  | pagesLeft + 1, page => by
    unfold findPagesSlotted findPages
    refine (Operation.runSlotted_follows _ _ _ _).bind ?_
    rintro (refusal | response)
    · exact .pure rfl
    refine (Tracks.lift _).bind fun found => .set_bind ?_
    rcases found with code | (_ | id)
    · exact rfl
    · dsimp only
      cases responseTotalPages response with
      | none => exact .pure rfl
      | some totalPages =>
        dsimp only
        split
        · exact .pure rfl
        · exact findPagesSlotted_tracks client licenseId fingerprint pagesLeft (page + 1)
    · exact .pure rfl

theorem findMachineByFingerprintSlotted_follows (client : Option Client)
    (licenseId fingerprint : Option Bytes) (slot : Bool) :
    Follows (fun _ => empty) failureOf
      (findMachineByFingerprintSlotted P client licenseId fingerprint slot)
      (findMachineByFingerprint P client licenseId fingerprint slot) := by
  intro s
  refine .set_bind ?_
  match client, fingerprint, slot with
  | some client, some fingerprint, true =>
    refine (Slotted.Follows.ofCall _ empty).bind ?_
    rintro (failure | licenseId)
    · exact .pure rfl
    · exact findPagesSlotted_tracks _ _ _ _ _
  | none, _, _ => exact rfl
  | some _, none, _ => exact rfl
  | some _, some _, false => exact rfl

theorem activateAfterCreateSlotted_follows (client : Option Client) (a : Activation)
    (created : Response) (slot : Bool) :
    Follows (fun _ => empty) Reply.failure (activateAfterCreateSlotted P client a created slot)
      (activateAfterCreate P client a created slot) := by
  intro s
  unfold activateAfterCreateSlotted activateAfterCreate
  refine (Operation.runSlotted_follows _ _ _ _).bind ?_
  rintro (refusal | validated)
  · exact .pure rfl
  dsimp only
  split
  · cases createdMachineId created with
    | none => exact rfl
    | some machineId => exact (Operation.runSlotted_follows _ _ _ _).bind fun _ => rfl
  · exact .pure rfl

/-- An adoption that fails reports; one that succeeds leaves the slot to what follows it. -/
theorem adoptedMachineSlotted_bind {α : Type} {k : Except Failure Bytes → HttpSlotted α}
    {z : Except Failure Bytes → Interact Attempt Answer α} {g : α → ErrorSlot}
    (herror : ∀ f, Tracks (holding f) (k (.error f)) (z (.error f)) g)
    (hok : ∀ machineId s, Tracks s (k (.ok machineId)) (z (.ok machineId)) g)
    (client : Option Client) (a : Activation) (refusal : Refusal) (s : ErrorSlot) :
    Tracks s (adoptedMachineSlotted P client a refusal >>= k)
      (adoptedMachine P client a refusal >>= z) g := by
  unfold adoptedMachineSlotted adoptedMachine
  rw [bind_assoc, bind_assoc]
  refine (Tracks.lift _).bind fun conflict => ?_
  rcases conflict with code | (_ | machineId)
  · exact herror _
  · dsimp only
    rw [bind_assoc, bind_assoc]
    refine (findMachineByFingerprintSlotted_follows _ _ _ _ s).bind fun found => ?_
    rcases found with failure | (_ | machineId)
    · dsimp only
      split
      · exact herror failure
      · exact herror _
    · exact herror _
    · exact hok machineId _
  · exact hok machineId _

/-- **The activations and the slot.** -/
theorem activateMachineSlotted_follows (client : Option Client) (a : Activation) (slot : Bool) :
    Follows (fun _ => empty) Reply.failure (activateMachineSlotted P client a slot)
      (activateMachine P client a slot) := by
  intro s
  refine .set_bind ((Operation.runSlotted_follows _ _ _ _).bind ?_)
  rintro (refusal | created)
  · exact .pure rfl
  · exact activateAfterCreateSlotted_follows _ _ _ _ _

theorem activateMachineIdempotentSlotted_follows (client : Option Client) (a : Activation)
    (slot : Bool) :
    Follows (fun _ => empty) Reply.failure (activateMachineIdempotentSlotted P client a slot)
      (activateMachineIdempotent P client a slot) := by
  intro s
  unfold activateMachineIdempotentSlotted activateMachineIdempotent
  refine .set_bind ((Operation.runSlotted_follows _ _ _ _).bind ?_)
  rintro (refusal | created)
  · dsimp only
    split
    · exact .pure rfl
    refine adoptedMachineSlotted_bind (fun f => ?_) (fun machineId s => ?_) _ _ _ _
    · exact .pure rfl
    · refine (Operation.runSlotted_follows _ _ _ _).bind fun outcome => .pure ?_
      cases outcome <;> rfl
  · exact activateAfterCreateSlotted_follows _ _ _ _ _

/-- **The slot across calls that call.** Whatever an earlier call left in the slot, the lookup and the two
    activations send the requests and return the outcome of `Http.Composed`, on every run and under every
    refusal; the slot they leave says of the outcome what the caller is told, and nothing of the calls in
    between. -/
theorem composed_slot (client : Option Client) (slot : Bool) :
    (∀ licenseId fingerprint, Follows (fun _ => empty) failureOf
      (findMachineByFingerprintSlotted P client licenseId fingerprint slot)
      (findMachineByFingerprint P client licenseId fingerprint slot)) ∧
    ∀ a, Follows (fun _ => empty) Reply.failure (activateMachineSlotted P client a slot)
        (activateMachine P client a slot) ∧
      Follows (fun _ => empty) Reply.failure (activateMachineIdempotentSlotted P client a slot)
        (activateMachineIdempotent P client a slot) := by
  refine ⟨fun licenseId fingerprint => ?_, fun a => ⟨?_, ?_⟩⟩
  · exact findMachineByFingerprintSlotted_follows client licenseId fingerprint slot
  · exact activateMachineSlotted_follows client a slot
  · exact activateMachineIdempotentSlotted_follows client a slot

end Reporting

/-! ## The contract -/

/-- A call on a thread, with its arguments. -/
inductive LibraryCall : Type where
  | offline (offlineCall : OfflineCall)
  | findMachineByFingerprint (client : Option Client) (licenseId fingerprint : Option Bytes)
      (slot : Bool)
  | activateMachine (client : Option Client) (a : Activation) (slot : Bool)
  | activateMachineIdempotent (client : Option Client) (a : Activation) (slot : Bool)

/-- Its status; no failure is `TAMGA_OK`. -/
def LibraryCall.status (C : Crypto) (qsort : List FpComponent → List FpComponent) :
    LibraryCall → HttpSlotted (Option Failure)
  | offline offlineCall => offlineCall.status C P.toLibc qsort
  | findMachineByFingerprint client licenseId fingerprint slot =>
      failureOf <$> findMachineByFingerprintSlotted P client licenseId fingerprint slot
  | activateMachine client a slot => Reply.failure <$> activateMachineSlotted P client a slot
  | activateMachineIdempotent client a slot =>
      Reply.failure <$> activateMachineIdempotentSlotted P client a slot

theorem LibraryCall.status_reports (C : Crypto) (qsort : List FpComponent → List FpComponent)
    (call : LibraryCall) : Reports (fun _ => empty) id (call.status P C qsort) := by
  cases call with
  | offline offlineCall => exact offlineCall.status_reports C P.toLibc qsort
  | findMachineByFingerprint => exact (findMachineByFingerprintSlotted_follows _ _ _ _).status.reports
  | activateMachine => exact (activateMachineSlotted_follows _ _ _).status.reports
  | activateMachineIdempotent => exact (activateMachineIdempotentSlotted_follows _ _ _).status.reports

/-- **The error slot.** Whatever earlier calls left in it, whatever the arguments are, the server
    answers and memory is refused: behind a call the slot is empty if and only if the status is
    `TAMGA_OK`. -/
theorem errorSlot_contract (C : Crypto) (qsort : List FpComponent → List FpComponent)
    (call : LibraryCall) (slot : ErrorSlot) (σ : ℕ → Bool) (answers : Stream' Answer) :
    (((call.status P C qsort).run slot).under σ answers).2.2.lastErrorMessage = none ↔
      (((call.status P C qsort).run slot).under σ answers).2.1 = none :=
  (call.status_reports P C qsort).lastErrorMessage slot (runs_under _ σ answers)

end Tamga
