import Tamga.Http.Endpoints

/-!
# `Http.Composed` — endpoints that act on what other endpoints returned (`http/endpoints.c`)

The entitlement check, the lookup of a machine by its fingerprint, and the two activations. Each calls
endpoints of `Http.Endpoints` one after the other; between two of them it reads the response it got.

An activation may be given no response slot. Its result is a `Reply`: the status, and what it leaves
in the slot if there is one.
-/

namespace Tamga

open Alloc Json

variable (P : Platform)

/-- `tamga_client_has_entitlement`: the first page only, matched on `code`. -/
def hasEntitlement (client : Option Client) (licenseId code : Option Bytes) (limit : UInt32)
    (slot : Bool) : Http (Except Failure Bool) :=
  match client, code, slot with
  | some client, some code, true => do
      let limit := if 0 < limit then limit else 100
      match ← (Operation.listEntitlements licenseId limit none).run P (some client) true with
      | .error refusal => return .error refusal.failure
      | .ok response =>
          return .ok ((jsonItems (jsonMember response.json "data")).any fun entitlement =>
            jsonString (jsonMember (jsonMember (some entitlement) "attributes") "code") = some code)
  | _, _, _ => return .error (errorSet .nullArgument (ascii "client, code and out_has are required"))

/-! ## Looking a machine up -/

/-- `TAMGA_MACHINE_PAGE_SIZE`. -/
def machinePageSize : UInt32 := 100

/-- `TAMGA_MACHINE_LOOKUP_MAX_PAGES`. -/
def machineLookupMaxPages : Nat := 10

/-- The id of a machine whose fingerprint is the given one. -/
def exactMatch (fingerprint : Bytes) (machine : Json) : Option Bytes :=
  if jsonString (jsonMember (jsonMember (some machine) "attributes") "fingerprint") = some fingerprint then
    jsonString (jsonMember (some machine) "id")
  else none

/-- `tamga_machine_page_exact_match`: a copy of the first match. -/
def machinePageExactMatch (response : Response) (fingerprint : Bytes) :
    Alloc (Except ErrorCode (Option Bytes)) :=
  match (jsonItems (jsonMember response.json "data")).findSome? (exactMatch fingerprint) with
  | none => pure (.ok none)
  | some id => do
      match ← strdup id with
      | none => return .error .outOfMemory
      | some copy => return .ok (some copy)

/-- The loop over pages. It stops at the server's page count, and at the first page of a server that
    does not tell one. -/
def findPages (client : Client) (licenseId fingerprint : Bytes) :
    (pagesLeft page : Nat) → Http (Except Failure (Option Bytes))
  | 0, _ => return .ok none
  | pagesLeft + 1, page => do
      match ← (Operation.listMachines (some licenseId) (some fingerprint) (UInt32.ofNat page)
          machinePageSize).run P (some client) true with
      | .error refusal => return .error refusal.failure
      | .ok response =>
          match ← Interact.ofAlloc (machinePageExactMatch response fingerprint) with
          | .error code => return .error (errorSet code (ascii "could not read the machine listing"))
          | .ok (some id) => return .ok (some id)
          | .ok none =>
              match responseTotalPages response with
              | none => return .ok none
              | some totalPages =>
                  if totalPages.toInt ≤ page then return .ok none
                  else findPages client licenseId fingerprint pagesLeft (page + 1)

/-- `tamga_client_find_machine_by_fingerprint`. -/
def findMachineByFingerprint (client : Option Client) (licenseId fingerprint : Option Bytes)
    (slot : Bool) : Http (Except Failure (Option Bytes)) :=
  match client, fingerprint, slot with
  | some client, some fingerprint, true => do
      match ← Interact.ofAlloc (requireUuid licenseId "license_id").run with
      | .error failure => return .error failure
      | .ok licenseId => findPages P client licenseId fingerprint machineLookupMaxPages 1
  | _, _, _ =>
      return .error (errorSet .nullArgument
        (ascii "client, fingerprint and out_machine_id are required"))

/-! ## Activation -/

/-- The arguments of an activation beside the client and the response slot. -/
structure Activation where
  licenseId : Option Bytes
  fingerprint : Option Bytes
  optionsJson : Option Bytes
  scopeJson : Option Bytes
  autoDeleteOnOverage : Bool

/-- What an activation returns; no failure is `TAMGA_OK`. -/
structure Reply where
  failure : Option Failure
  response : Option Response
  deriving DecidableEq

/-- The code of the returned status; `none` is `TAMGA_OK`. -/
def Reply.code (reply : Reply) : Option ErrorCode := reply.failure.map Failure.code

/-- Handing an outcome on to a slot that may not be there. -/
def replyOf (slot : Bool) : Outcome → Reply
  | .ok response => ⟨none, if slot then some response else none⟩
  | .error refusal => ⟨some refusal.failure, if slot then refusal.response else none⟩

namespace Activation

variable (a : Activation)

/-- This call's `tamga_client_create_machine`. -/
def create : Operation := .createMachine a.licenseId a.fingerprint a.optionsJson

/-- This call's `tamga_client_validate_by_id`. -/
def validate : Operation := .validateById a.licenseId a.scopeJson false none

end Activation

/-- `tamga_activate_create_failed`: only a limit of the licence leaves the creation's response. A
    creation that succeeded has a response, so the code for one without it is left out. -/
def activateCreateFailed (refusal : Refusal) (slot : Bool) : Reply :=
  ⟨some refusal.failure,
    if slot ∧ validationCodeFromError (some refusal.failure.code) ≠ .unknown then refusal.response
    else none⟩

/-- The string `data.id`. -/
def createdMachineId (created : Response) : Option Bytes :=
  jsonString (jsonMember (jsonMember created.json "data") "id")

/-- `tamga_activate_after_create`: the validation, and the rollback of an overage. What the deletion
    comes to is not looked at. -/
def activateAfterCreate (client : Option Client) (a : Activation) (created : Response)
    (slot : Bool) : Http Reply := do
  match ← a.validate.run P client true with
  | .error refusal => return replyOf slot (.error refusal)
  | .ok validated =>
      if a.autoDeleteOnOverage = true ∧
          validationCodeIsOverage (responseValidationCodeEnum validated) = true then
        match createdMachineId created with
        | none => return replyOf slot (.ok validated)
        | some machineId => do
            let _ ← (Operation.deleteMachine (some machineId)).run P client true
            return replyOf slot (.ok validated)
      else return replyOf slot (.ok validated)

/-- `tamga_client_activate_machine`. -/
def activateMachine (client : Option Client) (a : Activation) (slot : Bool) : Http Reply := do
  match ← a.create.run P client true with
  | .ok created => activateAfterCreate P client a created slot
  | .error refusal => return activateCreateFailed refusal slot

/-- The string `errors[0].meta.machineId`. -/
def namedMachineId (created : Option Response) : Option Bytes :=
  jsonString (jsonMember (jsonMember (firstError (created.bind Response.json)) "meta") "machineId")

/-- `tamga_conflict_machine_id`. -/
def conflictMachineId (created : Option Response) : Alloc (Except ErrorCode (Option Bytes)) :=
  match namedMachineId created with
  | none => pure (.ok none)
  | some machineId => do
      match ← strdup machineId with
      | none => return .error .outOfMemory
      | some copy => return .ok (some copy)

/-- The machine a creation that was refused with `FINGERPRINT_TAKEN` is to adopt, from the conflict
    itself or from the lookup; an error is what the call returns at once. -/
def adoptedMachine (client : Option Client) (a : Activation) (refusal : Refusal) :
    Http (Except Failure Bytes) := do
  match ← Interact.ofAlloc (conflictMachineId refusal.response) with
  | .error code => return .error (errorSet code (ascii "could not read the conflict response"))
  | .ok (some machineId) => return .ok machineId
  | .ok none =>
      match ← findMachineByFingerprint P client a.licenseId a.fingerprint true with
      | .ok (some machineId) => return .ok machineId
      | .ok none =>
          return .error (errorSet .fingerprintTaken
            (ascii ("the fingerprint is already activated on a different licence "
              ++ "under the policy's uniqueness scope")))
      | .error failure =>
          if failure.code = .outOfMemory then return .error failure
          else
            return .error (errorSet .fingerprintTaken
              (ascii ("the fingerprint is already activated, and the existing "
                ++ "machine could not be looked up (" ++ errorName failure.code ++ ")")))

/-- `tamga_client_activate_machine_idempotent`. An adopted machine is validated, with the caller's own
    slot, and never deleted. -/
def activateMachineIdempotent (client : Option Client) (a : Activation) (slot : Bool) :
    Http Reply := do
  match ← a.create.run P client true with
  | .ok created => activateAfterCreate P client a created slot
  | .error refusal =>
      if refusal.failure.code ≠ .fingerprintTaken then return activateCreateFailed refusal slot
      else
        match ← adoptedMachine P client a refusal with
        | .error failure => return ⟨some failure, none⟩
        | .ok _ => do
            let outcome ← a.validate.run P client slot
            return replyOf slot outcome

/-! ## Every function that talks to the transport -/

/-- A public function of `http/endpoints.c` with its arguments; `slot` as in `Operation.run`. -/
inductive Endpoint : Type where
  | single (op : Operation) (slot : Bool)
  | hasEntitlement (licenseId code : Option Bytes) (limit : UInt32) (slot : Bool)
  | findMachineByFingerprint (licenseId fingerprint : Option Bytes) (slot : Bool)
  | activateMachine (a : Activation) (slot : Bool)
  | activateMachineIdempotent (a : Activation) (slot : Bool)

/-- Its run; the results are of different types and are left out. -/
def Endpoint.run (client : Option Client) : Endpoint → Http Unit
  | single op slot => do let _ ← op.run P client slot; return ()
  | hasEntitlement licenseId code limit slot => do
      let _ ← Tamga.hasEntitlement P client licenseId code limit slot; return ()
  | findMachineByFingerprint licenseId fingerprint slot => do
      let _ ← Tamga.findMachineByFingerprint P client licenseId fingerprint slot; return ()
  | activateMachine a slot => do let _ ← Tamga.activateMachine P client a slot; return ()
  | activateMachineIdempotent a slot => do
      let _ ← Tamga.activateMachineIdempotent P client a slot; return ()

end Tamga
