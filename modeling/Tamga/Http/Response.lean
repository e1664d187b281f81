import Tamga.Error
import Tamga.Json.Parse
import Tamga.Util.Uuid

/-!
# `Http.Response` — what a transport hands over and what is read from it

`HttpResponse` is the answer as the transport has it (`http/transport.c`), `Response` the one an
endpoint hands to its caller: the body parsed if it is JSON, and the server's own error code
(`http/client.c`). The validation outcomes are those of `models/validation.c`.
-/

namespace Tamga

open Alloc Json

/-- `TamgaTransportFailure`: why `perform` returned false. -/
inductive TransportFailure : Type where
  | network
  | oversized
  | outOfMemory
  deriving DecidableEq, Repr

/-- `TamgaHttpResponse` after a `perform` that returned true; header names and values are C strings. -/
structure HttpResponse where
  status : Int
  body : Option Bytes
  headers : List (Bytes × Bytes)
  deriving DecidableEq, Repr

/-- What one call of `perform` comes back with. -/
inductive Answer : Type where
  | failed (reason : TransportFailure)
  | answered (http : HttpResponse)
  deriving DecidableEq, Repr

/-! ## Handing a response over

A transport hands its response to the client part by part, and the client copies each part. A caller's
transport is told when a copy could not be made, but it need not listen. -/

/-- `TamgaHttpResult`: the response so far, the room in its header table, and why a part was refused. -/
structure HttpResult where
  response : HttpResponse
  headerCapacity : Nat
  failure : TransportFailure

/-- `tamga_http_response_init`, then `tamga_http_result_set_status`. -/
def HttpResult.init (status : Int) : HttpResult := ⟨⟨status, none, []⟩, 0, .network⟩

/-- `tamga_http_result_set_body` of a body that is not NULL. -/
def resultSetBody (result : HttpResult) (body : Bytes) : Alloc (Bool × HttpResult) :=
  if body.length > maxReasonableLen then return (false, { result with failure := .oversized })
  else do
    if ← malloc then
      return (true, { result with response := { result.response with body := some body } })
    else return (false, { result with failure := .outOfMemory })

/-- The table of `tamga_http_response_add_header`, grown if it is full; at most 512 headers fit. -/
def growHeaders (result : HttpResult) : Alloc (Option HttpResult) :=
  if result.response.headers.length < result.headerCapacity then return some result
  else
    let capacity := if result.headerCapacity = 0 then 8 else result.headerCapacity * 2
    if 512 < capacity then return none
    else do if ← malloc then return some { result with headerCapacity := capacity } else return none

/-- `tamga_http_result_add_header`: a header that does not fit counts as out of memory. Both copies are
    made before either is looked at. -/
def resultAddHeader (result : HttpResult) (header : Bytes × Bytes) : Alloc (Bool × HttpResult) := do
  let refused (result : HttpResult) := (false, { result with failure := .outOfMemory })
  match ← growHeaders result with
  | none => return refused result
  | some result =>
      let name ← strdup header.1
      let value ← strdup header.2
      match name, value with
      | some name, some value =>
          let headers := result.response.headers ++ [(name, value)]
          return (true, { result with response := { result.response with headers := headers } })
      | _, _ => return refused result

/-- The headers, one after the other, and what `perform` comes back with. -/
def deliverHeaders (heedful : Bool) (result : HttpResult) : List (Bytes × Bytes) → Alloc Answer
  | [] => return .answered result.response
  | header :: rest => do
      let (held, result) ← resultAddHeader result header
      if heedful = true ∧ held = false then return .failed result.failure
      else deliverHeaders heedful result rest

/-- The status and the body, if there is one. -/
def deliverBody (http : HttpResponse) : Alloc (Bool × HttpResult) :=
  match http.body with
  | none => return (true, HttpResult.init http.status)
  | some body => resultSetBody (HttpResult.init http.status) body

/-- A caller's `perform` that has this answer. A `heedful` one returns false once a part is refused;
    the one the README shows is not heedful. -/
def deliver (heedful : Bool) : Answer → Alloc Answer
  | .failed reason => return .failed reason
  | .answered http => do
      let (held, result) ← deliverBody http
      if heedful = true ∧ held = false then return .failed result.failure
      else deliverHeaders heedful result http.headers

/-- `tamga_header_name_equal`. -/
def headerNameEqual (a b : Bytes) : Bool := a.map asciiLower = b.map asciiLower

/-- `tamga_http_response_header`: the first header of that name. -/
def HttpResponse.header (http : HttpResponse) (name : Bytes) : Option Bytes :=
  (http.headers.find? fun h => headerNameEqual h.1 name).map Prod.snd

/-- `TamgaResponse`. `json` is `none` when the body is not JSON. -/
structure Response where
  status : Int
  body : Option Bytes
  json : Option Json
  headers : List (Bytes × Bytes)
  apiErrorCode : Option Bytes
  deriving DecidableEq

/-! ## Reading a document

`tamga_json_object_get`, `_array_at` and `_as_string` answer NULL for NULL, so a path through a
document is a chain of `Option.bind`; a string found at its end is used as a C string. -/

/-- The member `key`. -/
def jsonMember (value : Option Json) (key : String) : Option Json :=
  value.bind fun v => v.objectGet (ascii key)

/-- A string, up to its first NUL byte. -/
def jsonString (value : Option Json) : Option Bytes := (value.bind asString).map cstr

/-- `tamga_json_array_at(value, 0)`. -/
def jsonFirst (value : Option Json) : Option Json := value.bind fun v => v.arrayItems.head?

/-- The items of an array; none of anything else. -/
def jsonItems (value : Option Json) : List Json := (value.map arrayItems).getD []

/-- `errors[0]`. -/
def firstError (json : Option Json) : Option Json := jsonFirst (jsonMember json "errors")

/-- `tamga_response_meta_field`: quick-validate has its fields at the top level, not under `meta`. -/
def responseMetaField (json : Option Json) (field : String) : Option Json :=
  match jsonMember json "meta" with
  | none => jsonMember json field
  | some envelope => jsonMember (some envelope) field

/-- `tamga_response_validation_code`. -/
def responseValidationCode (response : Response) : Option Bytes :=
  jsonString (responseMetaField response.json "code")

/-- `tamga_response_page`, the one number its caller here asks for: `totalPages`, if all four numbers
    are there. -/
def responseTotalPages (response : Response) : Option Int64 :=
  let page := jsonMember (jsonMember response.json "meta") "page"
  match page with
  | some (.obj _) =>
      match (jsonMember page "number").bind asInt, (jsonMember page "size").bind asInt,
        (jsonMember page "total").bind asInt, (jsonMember page "totalPages").bind asInt with
      | some _, some _, some _, some totalPages => some totalPages
      | _, _, _, _ => none
  | _ => none

/-! ## Validation outcomes -/

/-- `TamgaValidationCode`. -/
inductive ValidationCode : Type where
  | unknown
  | valid
  | notFound
  | banned
  | suspended
  | expired
  | overdue
  | entitlementsMissing
  | tooManyMachines
  | tooManyCores
  | tooMuchMemory
  | tooMuchDisk
  | tooManyProcesses
  | tooManyUsers
  | heartbeatDead
  | heartbeatNotStarted
  | productScopeMismatch
  | policyScopeMismatch
  | userScopeMismatch
  | fingerprintScopeMismatch
  | componentsScopeMismatch
  | checksumScopeMismatch
  | versionScopeMismatch
  | environmentScopeMismatch
  | tooManyUses
  deriving DecidableEq, Repr

/-- `TAMGA_VALIDATION_CODES`. -/
def validationCodes : List (String × ValidationCode) :=
  [("VALID", .valid), ("NOT_FOUND", .notFound), ("BANNED", .banned), ("SUSPENDED", .suspended),
    ("EXPIRED", .expired), ("OVERDUE", .overdue), ("ENTITLEMENTS_MISSING", .entitlementsMissing),
    ("TOO_MANY_MACHINES", .tooManyMachines), ("TOO_MANY_CORES", .tooManyCores),
    ("TOO_MUCH_MEMORY", .tooMuchMemory), ("TOO_MUCH_DISK", .tooMuchDisk),
    ("TOO_MANY_PROCESSES", .tooManyProcesses), ("TOO_MANY_USERS", .tooManyUsers),
    ("HEARTBEAT_DEAD", .heartbeatDead), ("HEARTBEAT_NOT_STARTED", .heartbeatNotStarted),
    ("PRODUCT_SCOPE_MISMATCH", .productScopeMismatch),
    ("POLICY_SCOPE_MISMATCH", .policyScopeMismatch), ("USER_SCOPE_MISMATCH", .userScopeMismatch),
    ("FINGERPRINT_SCOPE_MISMATCH", .fingerprintScopeMismatch),
    ("COMPONENTS_SCOPE_MISMATCH", .componentsScopeMismatch),
    ("CHECKSUM_SCOPE_MISMATCH", .checksumScopeMismatch),
    ("VERSION_SCOPE_MISMATCH", .versionScopeMismatch),
    ("ENVIRONMENT_SCOPE_MISMATCH", .environmentScopeMismatch), ("TOO_MANY_USES", .tooManyUses)]

/-- `tamga_validation_code_parse`. -/
def validationCodeParse (code : Option Bytes) : ValidationCode :=
  match code with
  | none => .unknown
  | some code => ((validationCodes.find? fun entry => ascii entry.1 = code).map Prod.snd).getD .unknown

/-- `tamga_response_validation_code_enum`. -/
def responseValidationCodeEnum (response : Response) : ValidationCode :=
  validationCodeParse (responseValidationCode response)

/-- `tamga_validation_code_is_overage`. -/
def validationCodeIsOverage (code : ValidationCode) : Bool :=
  code ∈ [ValidationCode.tooManyMachines, .tooManyCores, .tooMuchMemory, .tooMuchDisk, .tooManyProcesses]

/-- `tamga_validation_code_from_error`; `none` is `TAMGA_OK`. -/
def validationCodeFromError (code : Option ErrorCode) : ValidationCode :=
  match code with
  | some .machineLimitExceeded => .tooManyMachines
  | some .coreLimitExceeded => .tooManyCores
  | some .memoryLimitExceeded => .tooMuchMemory
  | some .diskLimitExceeded => .tooMuchDisk
  | some .tooManyProcesses => .tooManyProcesses
  | _ => .unknown

/-! ## Errors the server reports -/

/-- The string `errors[0].code`. -/
def apiErrorCode (json : Option Json) : Option Bytes := jsonString (jsonMember (firstError json) "code")

/-- The codes `tamga_map_api_error` knows, in its order. -/
def apiErrorCodes : List (String × ErrorCode) :=
  [("CHECK_IN_NOT_REQUIRED", .checkInNotRequired), ("LICENSE_NOT_ENCRYPTED", .licenseNotEncrypted),
    ("LICENSE_KEY_MISSING", .licenseKeyMissing), ("TTL_INVALID", .ttlInvalid),
    ("PRESIGN_TTL_INVALID", .ttlInvalid), ("SCHEME_NOT_SUPPORTED", .schemeNotSupported),
    ("FINGERPRINT_TAKEN", .fingerprintTaken), ("DATASET_INVALID", .datasetInvalid),
    ("PID_TAKEN", .pidTaken), ("MACHINE_LIMIT_EXCEEDED", .machineLimitExceeded),
    ("CORE_LIMIT_EXCEEDED", .coreLimitExceeded), ("MEMORY_LIMIT_EXCEEDED", .memoryLimitExceeded),
    ("DISK_LIMIT_EXCEEDED", .diskLimitExceeded), ("TOO_MANY_PROCESSES", .tooManyProcesses),
    ("METER_LIMIT_EXCEEDED", .meterLimitExceeded), ("LICENSE_SUSPENDED", .licenseSuspended),
    ("LICENSE_EXPIRED", .licenseExpired), ("LICENSE_NOT_ALLOWED", .licenseNotAllowed),
    ("SIGNING_KEY_MISSING", .signingKeyMissing), ("SECRET_KEY_MISSING", .secretKeyMissing)]

/-- The code for an HTTP status alone. -/
def statusErrorCode (status : Int) : ErrorCode :=
  if status = 401 then .unauthorized
  else if status = 403 then .forbidden
  else if status = 404 then .notFound
  else if status = 500 ∨ status = 502 ∨ status = 503 ∨ status = 504 then .server
  else .api

/-- The code `tamga_map_api_error` returns. -/
def mapApiError (status : Int) (code : Option Bytes) : ErrorCode :=
  if status = 429 then .rateLimited
  else
    match code.bind fun code => apiErrorCodes.find? fun entry => ascii entry.1 = code with
    | some entry => entry.2
    | none => statusErrorCode status

/-- `tamga_response_from_http`; `none` is NULL, which the caller reports as out of memory. A body that
    is not JSON is no error, a parse that ran out of memory is. -/
def responseFromHttp (L : Libc) (http : HttpResponse) : Alloc (Option Response) := do
  if ← malloc then
    let response (json : Option Json) : Response := ⟨http.status, http.body, json, http.headers, none⟩
    match http.body with
    | none => return some (response none)
    | some body =>
        if body.length = 0 then return some (response none)
        else
          match ← (parse L (some body)).run with
          | .ok json => return some (response (some json))
          | .error .outOfMemory => return none
          | .error (.malformed _) => return some (response none)
  else return none

end Tamga
