import Tamga.Checkout.Decode
import Tamga.Http.Client
import Tamga.Json.Write

/-!
# `Http.Endpoints` — one function per endpoint that issues a single request (`http/endpoints.c`)

Each checks its arguments, builds a path, a query and a body, and hands them to `sendScoped`. What
comes before the sending is a `Call Prepared`; `endpoint` puts the NULL check in front of it and the
sending behind it. `Operation` is the list of them all with their arguments, in the order of the
source.

A C string argument that may be NULL is an `Option Bytes`; `slot` says whether `out_response` is not
NULL. A JSON object that is attached to its parent before it is filled is the same object in both
places: `withMember` says so.
-/

namespace Tamga

open Alloc Json

/-- `tamga_require_uuid`. -/
def requireUuid (value : Option Bytes) (what : String) : Call Bytes :=
  match value with
  | none => Call.fail .nullArgument (what ++ " is required")
  | some value =>
      if (uuidNormalize value).isNone then Call.fail .nullArgument (what ++ " must be a UUID")
      else return value

/-- `tamga_require_uuid`, and the canonical form from the second parse of the same string; wherever the
    source makes that parse, it cannot fail any more. -/
def requireCanonical (value : Option Bytes) (what : String) : Call Bytes := do
  let value ← requireUuid value what
  match uuidNormalize value with
  | none => Call.fail .nullArgument (what ++ " must be a UUID")
  | some canonical => return canonical

/-- `requireCanonical` of an argument that may be absent. -/
def optionalCanonical (value : Option Bytes) (what : String) : Call (Option Bytes) :=
  match value with
  | none => return none
  | some value => do
      let canonical ← requireCanonical (some value) what
      return some canonical

/-- `tamga_path`: NULL if `id` is no UUID. -/
def tamgaPath (start : String) (id : Bytes) (suffix : String) : Alloc (Option Bytes) := do
  let buf ← Buf.init.appendStr (ascii start)
  match uuidNormalize id with
  | none => return none
  | some canonical =>
      let buf ← buf.appendStr canonical
      let buf ← buf.appendStr (ascii suffix)
      buf.detachString

/-- `tamga_parse_optional_object`. -/
def parseOptionalObject (L : Libc) (json : Option Bytes) (what : String) : Call (Option Json) :=
  match json with
  | none => return none
  | some json => do
      let object ← parseDocument L json ("could not parse " ++ what) (what ++ " is not valid JSON: ")
      if object.isObject then return some object
      else Call.fail .invalidJson (what ++ " must be a JSON object")

/-- The query under construction: the buffer, whether no parameter is in it yet, and whether every
    value so far could be encoded. -/
structure Query where
  buf : Buf
  first : Bool
  built : Bool

namespace Query

def init : Query := ⟨Buf.init, true, true⟩

/-- `tamga_query_add`, which a caller skips once it has failed. -/
def add (query : Query) (name : String) (value : Bytes) : Alloc Query :=
  if ¬ query.built then pure query
  else do
    match ← urlEncode value with
    | none => return { query with built := false }
    | some encoded =>
        let buf ← if query.first then pure query.buf else query.buf.appendByte 0x26
        let buf ← buf.appendStr (ascii name)
        let buf ← buf.appendByte 0x3D
        let buf ← buf.appendStr encoded
        return ⟨buf, false, true⟩

/-- `tamga_query_add` of a value that may be absent. -/
def addOptional (query : Query) (name : String) (value : Option Bytes) : Alloc Query :=
  match value with
  | none => pure query
  | some value => query.add name value

/-- A number that is written only when it is not zero. -/
def addNumber (query : Query) (name : String) (number : Nat) : Alloc Query :=
  if number = 0 then pure query
  else do
    let buf ← if query.first then pure query.buf else query.buf.appendByte 0x26
    let buf ← buf.appendFmt (ascii name ++ 0x3D :: printInt number)
    return ⟨buf, false, query.built⟩

/-- The buffer is detached in any case. -/
def finish (query : Query) : Alloc (Option Bytes) := do
  let text ← query.buf.detachString
  return if query.built then text else none

end Query

/-! ## The common frame -/

/-- The text of nearly every failure while a request is built. -/
def noRequest : String := "could not build the request"

/-- A text or a path the request cannot do without. -/
def require {α : Type} (x : Alloc (Option α)) : Call α := Call.orFail .outOfMemory noRequest x

/-- A body and a path, both asked for before either is looked at. -/
def requireBoth (body path : Alloc (Option Bytes)) : Call (Bytes × Bytes) := do
  let body ← (liftM body : Call (Option Bytes))
  let path ← (liftM path : Call (Option Bytes))
  match body, path with
  | some body, some path => return (body, path)
  | _, _ => Call.fail .outOfMemory noRequest

/-- The NULL check of an endpoint, its preparation, and the sending. There is nothing to prepare when
    another required pointer is NULL. -/
def endpoint (P : Platform) (client : Option Client) (slot : Bool) (message : String)
    (prepare : Option (Call Prepared)) : Http Outcome :=
  match client, slot, prepare with
  | some client, true, some prepare => do
      match ← Interact.ofAlloc prepare.run with
      | .error failure => return refused failure
      | .ok p => sendScoped P client p
  | _, _, _ => return refused (errorSet .nullArgument (ascii message))

/-- `tamga_client_send` of a GET. -/
def getRequest (path : Bytes) (query : Option Bytes) : Prepared :=
  ⟨.account, .get, path, query, none, none, false⟩

/-- `tamga_client_send` of a POST, with or without a body. -/
def postRequest (path : Bytes) (body otp : Option Bytes) : Prepared :=
  ⟨.account, .post, path, none, body, otp, true⟩

def deleteRequest (path : Bytes) : Prepared := ⟨.account, .delete, path, none, none, none, false⟩

/-- An object that is already attached at `key` of `object`, as it is now. -/
def withMember (object : Json) (key : String) (child : Json) : Json :=
  .obj (setMember object.objectMembers (ascii key) child)

/-- `tamga_json_object_set` in a function that has no other answer to a refusal. -/
def attach (object : Json) (key : String) (child : Json) : Call Json :=
  require (objectSet object (ascii key) (some child))

/-- `tamga_json_object_set` of a string made on the spot. -/
def attachString (object : Json) (key : String) (text : Bytes) : Call Json :=
  require (setString object (ascii key) text)

/-- `tamga_json_object_set` of a scalar made on the spot. -/
def attachNew (object : Json) (key : String) (value : Json) : Call Json :=
  require (do let item ← new value; objectSet object (ascii key) item)

/-- `n` objects, asked for one after the other; whether all of them are there. -/
def askObjects : Nat → Alloc Bool
  | 0 => pure true
  | n + 1 => do
      let object ← newObject
      let others ← askObjects n
      return object.isSome && others

/-- `n` empty objects, all asked for before the first is looked at. -/
def freshObjects (n : Nat) : Call Unit := do
  if ← askObjects n then return () else Call.fail .outOfMemory noRequest

/-- An object nothing has been added to. -/
def emptyObject : Json := .obj []

variable (L : Libc)

/-- `tamga_json_write`, then the release of the tree. -/
def writeBody (root : Json) : Call Bytes := require (write L root)

/-! ## Validation -/

/-- `tamga_client_validate_by_key`. -/
def prepareValidateByKey (otp : Option Bytes) (licenseKey : Bytes) : Call Prepared := do
  freshObjects 1
  let body ← attachString emptyObject "key" licenseKey
  let text ← writeBody L body
  return postRequest (ascii "/licenses/actions/validate-key") (some text) otp

/-- `tamga_client_validate_by_id`: `meta` is attached empty and filled afterwards. -/
def prepareValidateById (licenseId scopeJson : Option Bytes) (skipTouch : Bool)
    (otp : Option Bytes) : Call Prepared := do
  let licenseId ← requireUuid licenseId "license_id"
  let scope ← parseOptionalObject L scopeJson "scope_json"
  freshObjects 2
  let root ← attach emptyObject "meta" emptyObject
  let details ← attachNew emptyObject "skip_touch" (.bool skipTouch)
  let details ← match scope with
    | none => pure details
    | some scope => attach details "scope" scope
  let (text, path) ← requireBoth (write L (withMember root "meta" details))
    (tamgaPath "/licenses/" licenseId "/actions/validate")
  return postRequest path (some text) otp

/-- `tamga_client_quick_validate`. -/
def prepareQuickValidate (licenseId otp : Option Bytes) : Call Prepared := do
  let licenseId ← requireUuid licenseId "license_id"
  let path ← require (tamgaPath "/licenses/" licenseId "/actions/validate")
  return { getRequest path none with otp := otp }

/-! ## Resources, actions and deletions addressed by one id -/

/-- A path of one id: the whole preparation of many endpoints. -/
def preparePath (start : String) (id : Option Bytes) (what suffix : String)
    (request : Bytes → Prepared) : Call Prepared := do
  let id ← requireUuid id what
  let path ← require (tamgaPath start id suffix)
  return request path

/-- `tamga_get_resource`. -/
def prepareGetResource (start : String) (id : Option Bytes) (what suffix : String) : Call Prepared :=
  preparePath start id what suffix fun path => getRequest path none

/-- A POST without a body. -/
def prepareAction (start : String) (id : Option Bytes) (what suffix : String) : Call Prepared :=
  preparePath start id what suffix fun path => postRequest path none none

def prepareDelete (start : String) (id : Option Bytes) (what : String) : Call Prepared :=
  preparePath start id what "" deleteRequest

/-! ## Check-out -/

/-- `TAMGA_MACHINE_FILE_MAX_TTL_SECONDS`. -/
def machineFileMaxTtlSeconds : Int64 := 31536000

/-- `tamga_machine_file_ttl_is_valid`. -/
def machineFileTtlIsValid (ttlSeconds : Int64) : Bool :=
  0 < ttlSeconds && ttlSeconds ≤ machineFileMaxTtlSeconds

/-- `tamga_checkout_query`. -/
def checkoutQuery (encrypt : Bool) (ttlSeconds : Int64) : Alloc (Option Bytes) := do
  let buf ← Buf.init.appendStr (if encrypt then ascii "encrypt=true" else ascii "encrypt=false")
  let buf ← if 0 < ttlSeconds then buf.appendFmt (ascii "&ttl=" ++ printInt ttlSeconds.toInt)
    else pure buf
  buf.detachString

/-- `tamga_checkout_body`. -/
def checkoutBody (encrypt : Bool) (ttlSeconds : Int64) : Call Bytes := do
  freshObjects 2
  let root ← attach emptyObject "meta" emptyObject
  let details ← attachNew emptyObject "encrypt" (.bool encrypt)
  let details ← attachNew details "ttl" (if 0 < ttlSeconds then .int ttlSeconds else .null)
  writeBody L (withMember root "meta" details)

/-- `tamga_checkout`. -/
def prepareCheckout (start : String) (id : Option Bytes) (what : String) (encrypt : Bool)
    (ttlSeconds : Int64) (raw : Bool) : Call Prepared := do
  let id ← requireUuid id what
  if 0 < ttlSeconds ∧ machineFileTtlIsValid ttlSeconds = false then
    Call.fail .ttlInvalid "ttl must be between 1 second and 365 days"
  else
    let path ← require (tamgaPath start id "/actions/check-out")
    if raw then
      let query ← require (checkoutQuery encrypt ttlSeconds)
      return getRequest path (some query)
    else
      let body ← checkoutBody L encrypt ttlSeconds
      return postRequest path (some body) none

/-! ## Machines -/

/-- `optional_fields` and `updatable_fields`. -/
def machineFields : List String :=
  ["name", "ip", "hostname", "platform", "cores", "memory", "disk", "metadata"]

/-- The loop that copies the recognised fields. -/
def copyFields (options : Json) (attributes : Json) : Call Json :=
  machineFields.foldlM (fun attributes field =>
    match options.objectGet (ascii field) with
    | none => pure attributes
    | some value => do
        let copy ← require (clone value)
        attach attributes field copy) attributes

/-- `tamga_client_create_machine`. The tree is assembled empty, then its leaves are filled in. -/
def prepareCreateMachine (licenseId optionsJson : Option Bytes) (fingerprint : Bytes) :
    Call Prepared := do
  let canonical ← requireCanonical licenseId "license_id"
  let options ← parseOptionalObject L optionsJson "options_json"
  freshObjects 6
  let root ← attach emptyObject "data" emptyObject
  let data ← attachString emptyObject "type" (ascii "machines")
  let data ← attach data "attributes" emptyObject
  let data ← attach data "relationships" emptyObject
  let relationships ← attach emptyObject "license" emptyObject
  let license ← attach emptyObject "data" emptyObject
  let attributes ← attachString emptyObject "fingerprint" fingerprint
  let attributes ← match options with
    | none => pure attributes
    | some options => copyFields options attributes
  let licenseData ← attachString emptyObject "type" (ascii "licenses")
  let licenseData ← attachString licenseData "id" canonical
  let license := withMember license "data" licenseData
  let relationships := withMember relationships "license" license
  let data := withMember (withMember data "attributes" attributes) "relationships" relationships
  let text ← writeBody L (withMember root "data" data)
  return postRequest (ascii "/machines") (some text) none

/-- `tamga_client_update_machine`. -/
def prepareUpdateMachine (machineId : Option Bytes) (attributesJson : Bytes) : Call Prepared := do
  let machineId ← requireUuid machineId "machine_id"
  let given ← parseOptionalObject L (some attributesJson) "attributes_json"
  freshObjects 3
  let root ← attach emptyObject "data" emptyObject
  let data ← attachString emptyObject "type" (ascii "machines")
  let data ← attach data "attributes" emptyObject
  let attributes ← match given with
    | none => pure emptyObject
    | some given => copyFields given emptyObject
  let (text, path) ← requireBoth
    (write L (withMember root "data" (withMember data "attributes" attributes)))
    (tamgaPath "/machines/" machineId "")
  return ⟨.account, .patch, path, none, some text, none, true⟩

/-- `tamga_client_list_machines`: no licence means every one. -/
def prepareListMachines (licenseId search : Option Bytes) (pageNumber pageSize : UInt32) :
    Call Prepared := do
  let canonical ← optionalCanonical licenseId "license_id"
  let query ← require (do
    let query ← Query.init.addNumber "page%5Bnumber%5D" pageNumber.toNat
    let query ← query.addNumber "page%5Bsize%5D" pageSize.toNat
    let query ← query.addOptional "filter%5Blicense%5D" canonical
    let query ← query.addOptional "filter%5Bq%5D" search
    query.finish)
  return getRequest (ascii "/machines") (some query)

/-- `tamga_client_generate_offline_proof`: no dataset is an empty one. -/
def prepareGenerateOfflineProof (machineId datasetJson : Option Bytes) : Call Prepared := do
  let machineId ← requireUuid machineId "machine_id"
  let dataset ← parseOptionalObject L datasetJson "dataset_json"
  freshObjects (if dataset.isNone then 3 else 2)
  let root ← attach emptyObject "meta" emptyObject
  let details ← attach emptyObject "dataset" (dataset.getD emptyObject)
  let (text, path) ← requireBoth (write L (withMember root "meta" details))
    (tamgaPath "/machines/" machineId "/actions/generate-offline-proof")
  return postRequest path (some text) none

/-! ## Components and processes -/

/-- The flat body of `tamga_client_create_component` and `tamga_client_create_process`. -/
def prepareCreate (path : String) (machineId metadataJson : Option Bytes)
    (fields : List (String × Bytes)) : Call Prepared := do
  let canonical ← requireCanonical machineId "machine_id"
  let metadata ← parseOptionalObject L metadataJson "metadata_json"
  freshObjects (if metadata.isNone then 2 else 1)
  let root ← attachString emptyObject "machine_id" canonical
  let root ← fields.foldlM (fun root field => attachString root field.1 field.2) root
  let root ← attach root "metadata" (metadata.getD emptyObject)
  let text ← writeBody L root
  return postRequest (ascii path) (some text) none

/-- The query of `tamga_list`: the cursor is written as it is, a UUID needs no encoding. -/
def listQuery (limit : UInt32) (after : Option Bytes) : Alloc (Option Bytes) := do
  let buf ← if limit ≠ 0 then Buf.init.appendFmt (ascii "limit=" ++ printInt limit.toNat)
    else pure Buf.init
  let buf ← match after with
    | none => pure buf
    | some canonical => do
        let buf ← if limit ≠ 0 then buf.appendByte 0x26 else pure buf
        let buf ← buf.appendStr (ascii "page%5Bafter%5D=")
        buf.appendStr canonical
  buf.detachString

/-- `tamga_list`. -/
def prepareList (start : String) (id : Option Bytes) (what suffix : String) (limit : UInt32)
    (after : Option Bytes) : Call Prepared := do
  let id ← requireUuid id what
  let after ← optionalCanonical after "after"
  let query ← require (listQuery limit after)
  let path ← require (tamgaPath start id suffix)
  return getRequest path (some query)

/-! ## Entitlements -/

/-- `tamga_client_get_entitlement`. -/
def prepareGetEntitlement (licenseId entitlementId : Option Bytes) : Call Prepared := do
  let license ← requireCanonical licenseId "license_id"
  let entitlement ← requireCanonical entitlementId "entitlement_id"
  let path ← require (joined [ascii "/licenses/", license, ascii "/entitlements/", entitlement])
  return getRequest path none

/-- `tamga_entitlement_action_path`. -/
def entitlementActionPath (licenseId entitlementId : Bytes) (action : String) :
    Alloc (Option Bytes) :=
  match uuidNormalize licenseId, uuidNormalize entitlementId with
  | some license, some entitlement =>
      joined [ascii "/licenses/", license, ascii "/entitlements/", entitlement, ascii "/actions/",
        ascii action]
  | _, _ => pure none

/-- The body of `tamga_entitlement_usage_action`: none for an amount of 0. -/
def usageBody (field : String) (amount : UInt32) : Call (Option Bytes) :=
  if amount = 0 then return none
  else do
    freshObjects 1
    let root ← attachNew emptyObject field (.int (Int64.ofNat amount.toNat))
    let text ← writeBody L root
    return some text

/-- `tamga_entitlement_usage_action`, whose field is named as its action, and with an amount of 0
    `tamga_client_reset_entitlement_usage`. A path that cannot be built is blamed on the ids. -/
def prepareUsage (licenseId entitlementId : Option Bytes) (action : String) (amount : UInt32) :
    Call Prepared := do
  let licenseId ← requireUuid licenseId "license_id"
  let entitlementId ← requireUuid entitlementId "entitlement_id"
  let path ← Call.orFail .nullArgument "license_id and entitlement_id must be UUIDs"
    (entitlementActionPath licenseId entitlementId action)
  let body ← usageBody L action amount
  return postRequest path body none

/-! ## Releases and artifacts -/

/-- `tamga_client_check_upgrade`. -/
def prepareCheckUpgrade (productId channel constraint : Option Bytes)
    (platform filetype version : Bytes) : Call Prepared := do
  let product ← requireCanonical productId "product_id"
  let query ← require (do
    let query ← Query.init.add "product" product
    let query ← query.add "platform" platform
    let query ← query.add "filetype" filetype
    let query ← query.add "version" version
    let query ← query.addOptional "channel" channel
    let query ← query.addOptional "constraint" constraint
    query.finish)
  return getRequest (ascii "/releases/actions/upgrade") (some query)

/-- `TAMGA_PRESIGN_TTL_MIN_SECONDS` and `TAMGA_PRESIGN_TTL_MAX_SECONDS`. -/
def presignTtlMinSeconds : UInt32 := 60
def presignTtlMaxSeconds : UInt32 := 604800

/-- The query of `tamga_client_get_artifact_download_url`. -/
def downloadQuery (ttlSeconds : UInt32) : Alloc (Option Bytes) := do
  let buf ← Buf.init.appendStr (ascii "redirect=false")
  let buf ← if ttlSeconds ≠ 0 then buf.appendFmt (ascii "&ttl=" ++ printInt ttlSeconds.toNat)
    else pure buf
  buf.detachString

/-- `tamga_client_get_artifact_download_url`. -/
def prepareDownloadUrl (artifactId : Option Bytes) (ttlSeconds : UInt32) : Call Prepared := do
  let artifactId ← requireUuid artifactId "artifact_id"
  if ttlSeconds ≠ 0 ∧ (ttlSeconds < presignTtlMinSeconds ∨ presignTtlMaxSeconds < ttlSeconds) then
    Call.fail .ttlInvalid "ttl must be between 60 seconds and 604800 seconds (1 week)"
  else
    let path ← require (tamgaPath "/artifacts/" artifactId "/actions/download")
    let query ← require (downloadQuery ttlSeconds)
    return getRequest path (some query)

/-! ## All of them -/

/-- The endpoints that issue one request, with the arguments of `tamga_client_…`. -/
inductive Operation : Type where
  | validateByKey (licenseKey otp : Option Bytes)
  | validateById (licenseId scopeJson : Option Bytes) (skipTouch : Bool) (otp : Option Bytes)
  | quickValidate (licenseId otp : Option Bytes)
  | checkIn (licenseId : Option Bytes)
  | getLicense (licenseId : Option Bytes)
  | getLicensePolicy (licenseId : Option Bytes)
  | getPolicy (policyId : Option Bytes)
  | checkOutLicense (licenseId : Option Bytes) (encrypt : Bool) (ttlSeconds : Int64)
  | checkOutLicenseJson (licenseId : Option Bytes) (encrypt : Bool) (ttlSeconds : Int64)
  | checkOutMachine (machineId : Option Bytes) (encrypt : Bool) (ttlSeconds : Int64)
  | checkOutMachineJson (machineId : Option Bytes) (encrypt : Bool) (ttlSeconds : Int64)
  | createMachine (licenseId fingerprint optionsJson : Option Bytes)
  | deleteMachine (machineId : Option Bytes)
  | getMachine (machineId : Option Bytes)
  | updateMachine (machineId attributesJson : Option Bytes)
  | listMachines (licenseId search : Option Bytes) (pageNumber pageSize : UInt32)
  | pingHeartbeat (machineId : Option Bytes)
  | resetHeartbeat (machineId : Option Bytes)
  | generateOfflineProof (machineId datasetJson : Option Bytes)
  | createComponent (machineId fingerprint name metadataJson : Option Bytes)
  | listComponents (machineId : Option Bytes) (limit : UInt32) (after : Option Bytes)
  | listMachineProcesses (machineId : Option Bytes) (limit : UInt32) (after : Option Bytes)
  | createProcess (machineId pid metadataJson : Option Bytes)
  | pingProcess (processId : Option Bytes)
  | deleteProcess (processId : Option Bytes)
  | listEntitlements (licenseId : Option Bytes) (limit : UInt32) (after : Option Bytes)
  | getEntitlement (licenseId entitlementId : Option Bytes)
  | incrementEntitlementUsage (licenseId entitlementId : Option Bytes) (amount : UInt32)
  | decrementEntitlementUsage (licenseId entitlementId : Option Bytes) (amount : UInt32)
  | resetEntitlementUsage (licenseId entitlementId : Option Bytes)
  | listSigningKeys
  | checkUpgrade (productId platform filetype version channel constraint : Option Bytes)
  | listReleaseArtifacts (releaseId : Option Bytes) (limit : UInt32) (after : Option Bytes)
  | getArtifact (artifactId : Option Bytes)
  | getArtifactDownloadUrl (artifactId : Option Bytes) (ttlSeconds : UInt32)
  | health

namespace Operation

/-- The text of the NULL check. -/
def message : Operation → String
  | validateByKey .. => "client, license_key and out_response are required"
  | createMachine .. => "client, fingerprint and out_response are required"
  | updateMachine .. => "client, attributes_json and out_response are required"
  | createComponent .. => "client, fingerprint, name and out_response are required"
  | createProcess .. => "client, pid and out_response are required"
  | checkUpgrade .. => "client, platform, filetype, version and out_response are required"
  | _ => "client and out_response are required"

/-- What an endpoint does between its NULL check and the sending. -/
def prepare : Operation → Option (Call Prepared)
  | validateByKey licenseKey otp => licenseKey.map (prepareValidateByKey L otp)
  | validateById licenseId scopeJson skipTouch otp =>
      some (prepareValidateById L licenseId scopeJson skipTouch otp)
  | quickValidate licenseId otp => some (prepareQuickValidate licenseId otp)
  | checkIn licenseId => some (prepareAction "/licenses/" licenseId "license_id" "/actions/check-in")
  | getLicense licenseId => some (prepareGetResource "/licenses/" licenseId "license_id" "")
  | getLicensePolicy licenseId =>
      some (prepareGetResource "/licenses/" licenseId "license_id" "/policy")
  | getPolicy policyId => some (prepareGetResource "/policies/" policyId "policy_id" "")
  | checkOutLicense licenseId encrypt ttlSeconds =>
      some (prepareCheckout L "/licenses/" licenseId "license_id" encrypt ttlSeconds true)
  | checkOutLicenseJson licenseId encrypt ttlSeconds =>
      some (prepareCheckout L "/licenses/" licenseId "license_id" encrypt ttlSeconds false)
  | checkOutMachine machineId encrypt ttlSeconds =>
      some (prepareCheckout L "/machines/" machineId "machine_id" encrypt ttlSeconds true)
  | checkOutMachineJson machineId encrypt ttlSeconds =>
      some (prepareCheckout L "/machines/" machineId "machine_id" encrypt ttlSeconds false)
  | createMachine licenseId fingerprint optionsJson =>
      fingerprint.map (prepareCreateMachine L licenseId optionsJson)
  | deleteMachine machineId => some (prepareDelete "/machines/" machineId "machine_id")
  | getMachine machineId => some (prepareGetResource "/machines/" machineId "machine_id" "")
  | updateMachine machineId attributesJson => attributesJson.map (prepareUpdateMachine L machineId)
  | listMachines licenseId search pageNumber pageSize =>
      some (prepareListMachines licenseId search pageNumber pageSize)
  | pingHeartbeat machineId =>
      some (prepareAction "/machines/" machineId "machine_id" "/actions/ping-heartbeat")
  | resetHeartbeat machineId =>
      some (prepareAction "/machines/" machineId "machine_id" "/actions/reset-heartbeat")
  | generateOfflineProof machineId datasetJson =>
      some (prepareGenerateOfflineProof L machineId datasetJson)
  | createComponent machineId fingerprint name metadataJson =>
      match fingerprint, name with
      | some fingerprint, some name =>
          some (prepareCreate L "/components" machineId metadataJson
            [("fingerprint", fingerprint), ("name", name)])
      | _, _ => none
  | listComponents machineId limit after =>
      some (prepareList "/machines/" machineId "machine_id" "/components" limit after)
  | listMachineProcesses machineId limit after =>
      some (prepareList "/machines/" machineId "machine_id" "/processes" limit after)
  | createProcess machineId pid metadataJson =>
      pid.map fun pid => prepareCreate L "/processes" machineId metadataJson [("pid", pid)]
  | pingProcess processId =>
      some (prepareAction "/processes/" processId "process_id" "/actions/ping")
  | deleteProcess processId => some (prepareDelete "/processes/" processId "process_id")
  | listEntitlements licenseId limit after =>
      some (prepareList "/licenses/" licenseId "license_id" "/entitlements" limit after)
  | getEntitlement licenseId entitlementId => some (prepareGetEntitlement licenseId entitlementId)
  | incrementEntitlementUsage licenseId entitlementId amount =>
      some (prepareUsage L licenseId entitlementId "increment" amount)
  | decrementEntitlementUsage licenseId entitlementId amount =>
      some (prepareUsage L licenseId entitlementId "decrement" amount)
  | resetEntitlementUsage licenseId entitlementId =>
      some (prepareUsage L licenseId entitlementId "reset" 0)
  | listSigningKeys => some (return getRequest (ascii "/signing-keys") none)
  | checkUpgrade productId platform filetype version channel constraint =>
      match platform, filetype, version with
      | some platform, some filetype, some version =>
          some (prepareCheckUpgrade productId channel constraint platform filetype version)
      | _, _, _ => none
  | listReleaseArtifacts releaseId limit after =>
      some (prepareList "/releases/" releaseId "release_id" "/artifacts" limit after)
  | getArtifact artifactId => some (prepareGetResource "/artifacts/" artifactId "artifact_id" "")
  | getArtifactDownloadUrl artifactId ttlSeconds => some (prepareDownloadUrl artifactId ttlSeconds)
  | health => some (return { getRequest (ascii "/v1/health") none with scope := .origin })

/-- The endpoint function itself. -/
def run (P : Platform) (client : Option Client) (slot : Bool) (op : Operation) : Http Outcome :=
  endpoint P client slot op.message (op.prepare P.toLibc)

end Operation

end Tamga
