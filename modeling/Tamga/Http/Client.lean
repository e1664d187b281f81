import Mathlib.Data.List.DropRight
import Tamga.Http.Response
import Tamga.Lib.Interact
import Tamga.Util.Base64

/-!
# `Http.Client` — requests, credentials and the retry policy (`http/client.c`)

A setter is given the client it changes and returns a status together with the client it leaves, in
the order of the source's checks, copies and assignments, so that a half-made change could be seen.

`sendScoped` is `tamga_client_send_scoped`. One call of the transport is one `Attempt`; what the client
slept before it belongs to it. The process id, which spreads retries, is the platform's.
-/

namespace Tamga

open Alloc Json

/-- What the platform supplies. -/
structure Platform extends Libc where
  processId : Nat

/-! ## Headers and versions -/

def isVersionChar (c : UInt8) : Bool :=
  (0x30 ≤ c && c ≤ 0x39) || (0x61 ≤ c && c ≤ 0x7A) || (0x41 ≤ c && c ≤ 0x5A) || c = 0x2E || c = 0x2D

/-- `tamga_sanitize_api_version`: the first 32 allowed bytes. -/
def sanitizeApiVersion (version : Bytes) : Alloc (Option Bytes) := do
  let buf ← ((version.filter isVersionChar).take 32).foldlM Buf.appendByte Buf.init
  buf.detachString

def isLineBreak (c : UInt8) : Bool := c = 0x0D || c = 0x0A

/-- `tamga_header_value_is_safe`. -/
def headerValueIsSafe (value : Bytes) : Bool := value.all fun c => !isLineBreak c

/-- The HTTP methods the endpoints use. -/
inductive Method : Type where
  | get
  | post
  | patch
  | delete
  deriving DecidableEq, Repr

/-- `retryable_suffixes`. -/
def retryableSuffixes : List Bytes :=
  [ascii "/actions/validate", ascii "/actions/validate-key", ascii "/actions/check-in",
    ascii "/actions/check-out", ascii "/actions/ping", ascii "/actions/ping-heartbeat",
    ascii "/actions/reset-heartbeat"]

/-- `tamga_request_is_retryable`. -/
def requestIsRetryable (method : Method) (path : Bytes) : Bool :=
  match method with
  | .get => true
  | .post => retryableSuffixes.any fun suffix => suffix.isSuffixOf path
  | .patch | .delete => false

/-- `tamga_retry_jitter_ms`; the sum wraps at 64 bits. -/
def retryJitterMs (P : Platform) (attempt : Nat) : Nat :=
  (P.processId * 2654435761 + attempt * 40503) % 2 ^ 64 % 1000

/-- `tamga_retry_delay_ms`. -/
def retryDelayMs (P : Platform) (attempt : Nat) (retryAfterSeconds : Int) : Nat :=
  if 0 < retryAfterSeconds then (min retryAfterSeconds 60).toNat * 1000
  else 2 ^ min attempt 5 * 1000 + retryJitterMs P attempt

/-! ## Clients -/

/-- `TamgaAuthKind`. -/
inductive AuthKind : Type where
  | bearer
  | license
  | basicEmailPassword
  | basicToken
  | basicLicense
  | queryToken
  deriving DecidableEq, Repr

/-- The kind a caller's number stands for. -/
def authKind (raw : UInt32) : Option AuthKind :=
  if raw = 0 then some .bearer
  else if raw = 1 then some .license
  else if raw = 2 then some .basicEmailPassword
  else if raw = 3 then some .basicToken
  else if raw = 4 then some .basicLicense
  else if raw = 5 then some .queryToken
  else none

/-- `auth_kind`, `auth_primary` and `auth_secondary`, once `auth_configured`. -/
structure Credentials where
  kind : AuthKind
  primary : Bytes
  secondary : Option Bytes
  deriving DecidableEq, Repr

/-- A transport, by identity: the one the build has, or a caller's callback with its data. -/
inductive Transport : Type where
  | builtIn
  | custom (callback : Nat)
  deriving DecidableEq, Repr

/-- `TamgaClient`. -/
structure Client where
  accountId : Bytes
  host : Bytes
  apiVersion : Bytes
  origin : Bytes
  baseUrl : Bytes
  timeoutMs : Nat
  maxRetries : Nat
  auth : Option Credentials
  transport : Option Transport
  deriving DecidableEq, Repr

/-- `TAMGA_DEFAULT_API_VERSION`. -/
def defaultApiVersion : Bytes := ascii "1.8"

/-- `TAMGA_DEFAULT_TIMEOUT_MS`. -/
def defaultTimeoutMs : Nat := 45000

/-- `TAMGA_DEFAULT_MAX_RETRIES`. -/
def defaultMaxRetries : Nat := 3

/-- `tamga_client_compose_origin`: blanks before, blanks and slashes after the host go, and `https://`
    is put before a host without a scheme. -/
def composeOrigin (host : Bytes) : Alloc (Option Bytes) := do
  let trimmed := (host.dropWhile (· = 0x20)).rdropWhile fun c => c = 0x2F || c = 0x20
  let hasScheme : Bool :=
    (7 < trimmed.length && trimmed.take 7 = ascii "http://") ||
      (8 < trimmed.length && trimmed.take 8 = ascii "https://")
  let buf ← if hasScheme then pure Buf.init else Buf.init.appendStr (ascii "https://")
  let buf ← buf.append trimmed
  buf.detachString

/-- `tamga_client_compose_base_url`. -/
def composeBaseUrl (origin accountId : Bytes) : Alloc (Option Bytes) := do
  let buf ← Buf.init.appendStr origin
  let buf ← buf.appendStr (ascii "/v1/accounts/")
  let buf ← buf.appendStr accountId
  buf.detachString

/-- `tamga_client_new`; `builtIn` is what `tamga_http_transport_create_default` returns. Every string
    is asked for before the first is looked at. -/
def clientNew (builtIn : Option Transport) (accountId host : Option Bytes) : Call Client :=
  match accountId, host with
  | some accountId, some host =>
      if accountId.length = 0 ∨ host.length = 0 then
        Call.fail .nullArgument "account_id and host must not be empty"
      else do
        if ← malloc then
          let accountCopy ← (liftM (strdup accountId) : Call (Option Bytes))
          let hostCopy ← (liftM (strdup host) : Call (Option Bytes))
          let version ← (liftM (strdup defaultApiVersion) : Call (Option Bytes))
          let origin ← (liftM (composeOrigin host) : Call (Option Bytes))
          let baseUrl ← match origin with
            | none => pure none
            | some origin => (liftM (composeBaseUrl origin accountId) : Call (Option Bytes))
          match accountCopy, hostCopy, version, origin, baseUrl with
          | some accountId, some host, some apiVersion, some origin, some baseUrl =>
              return ⟨accountId, host, apiVersion, origin, baseUrl, defaultTimeoutMs,
                defaultMaxRetries, none, builtIn⟩
          | _, _, _, _, _ => Call.fail .outOfMemory "could not allocate the client"
        else Call.fail .outOfMemory "could not allocate the client"
  | _, _ => Call.fail .nullArgument "account_id, host and out_client are all required"

/-! ## Setters -/

/-- What a setter returns and leaves. -/
abbrev Update : Type := Alloc (Except Failure Unit × Client)

/-- The status of a setter that changes nothing. -/
def Client.refuse (client : Client) (code : ErrorCode) (message : String) : Update :=
  pure (.error (errorSet code (ascii message)), client)

/-- The end of `tamga_client_set_auth`: both copies are made before a field changes. -/
def storeCredentials (client : Client) (kind : AuthKind) (primary : Bytes)
    (secondary : Option Bytes) : Update := do
  match ← strdup primary with
  | none => client.refuse .outOfMemory "could not store the credential"
  | some primaryCopy =>
      match secondary with
      | none => return (.ok (), { client with auth := some ⟨kind, primaryCopy, none⟩ })
      | some secondary =>
          match ← strdup secondary with
          | none => client.refuse .outOfMemory "could not store the credential"
          | some secondaryCopy =>
              return (.ok (), { client with auth := some ⟨kind, primaryCopy, some secondaryCopy⟩ })

/-- `tamga_client_set_auth`. -/
def setAuth (client : Client) (kind : UInt32) (primary secondary : Option Bytes) : Update :=
  match primary with
  | none => client.refuse .nullArgument "client and primary are required"
  | some primary =>
      match authKind kind with
      | none => client.refuse .unsupportedScheme "unknown auth kind"
      | some kind =>
          if kind = .basicEmailPassword ∧ secondary = none then
            client.refuse .nullArgument "the email form requires a password"
          else if ¬ (headerValueIsSafe primary = true ∧ ∀ s ∈ secondary, headerValueIsSafe s = true) then
            client.refuse .nullArgument "the credential contains a line break"
          else storeCredentials client kind primary secondary

/-- `tamga_client_set_api_version`. -/
def setApiVersion (client : Client) (version : Option Bytes) : Update :=
  match version with
  | none => client.refuse .nullArgument "client and version are required"
  | some version => do
      match ← strdup version with
      | none => client.refuse .outOfMemory "could not store the version"
      | some copy => return (.ok (), { client with apiVersion := copy })

/-- `tamga_client_set_timeout_ms`. -/
def setTimeoutMs (client : Client) (timeoutMs : UInt32) : Update :=
  if timeoutMs = 0 then client.refuse .lengthInvalid "the timeout must be positive"
  else return (.ok (), { client with timeoutMs := timeoutMs.toNat })

/-- `tamga_client_set_max_retries`. -/
def setMaxRetries (client : Client) (maxRetries : UInt32) : Update :=
  if maxRetries > 16 then
    client.refuse .lengthInvalid "an unreasonable retry count would let one call block for hours"
  else return (.ok (), { client with maxRetries := maxRetries.toNat })

/-- `tamga_client_set_transport`: the two records of a caller's transport, then the exchange. -/
def setTransport (client : Client) (callback : Option Nat) : Update :=
  match callback with
  | none => client.refuse .nullArgument "client and perform are required"
  | some callback => do
      if ← malloc then
        if ← malloc then return (.ok (), { client with transport := some (.custom callback) })
        else client.refuse .outOfMemory "could not allocate the transport"
      else client.refuse .outOfMemory "could not allocate the transport"

/-! ## Building a request -/

/-- `tamga_buf_init`, appends, `tamga_buf_detach_string`. -/
def joined (parts : List Bytes) : Alloc (Option Bytes) := do
  let buf ← parts.foldlM Buf.appendStr Buf.init
  buf.detachString

/-- The text before `Basic` encoding. A password that is not there fails the buffer. -/
def basicPair (auth : Credentials) : Alloc (Option Bytes) :=
  match auth.kind, auth.secondary with
  | .basicEmailPassword, some secondary => joined [auth.primary, ascii ":", secondary]
  | .basicEmailPassword, none => do
      let buf ← [auth.primary, ascii ":"].foldlM Buf.appendStr Buf.init
      buf.markFailed.detachString
  | .basicToken, _ => joined [auth.primary, ascii ":"]
  | _, _ => joined [ascii "license:", auth.primary]

/-- The value of the `Authorization` header; `none` is NULL. -/
def authValue (auth : Credentials) : Alloc (Option Bytes) :=
  match auth.kind with
  | .bearer => joined [ascii "Bearer ", auth.primary]
  | .license => joined [ascii "License ", auth.primary]
  | _ => do
      match ← basicPair auth with
      | none => return none
      | some pair =>
          match ← base64EncodeAlloc pair with
          | none => return none
          | some encoded => joined [ascii "Basic ", encoded]

/-- `tamga_client_auth_header`: `none` is false, `some none` the form that has no header. The name of
    the header is a copy too. -/
def clientAuthHeader (auth : Credentials) : Alloc (Option (Option (Bytes × Bytes))) :=
  if auth.kind = .queryToken then pure (some none)
  else do
    match ← authValue auth with
    | none => return none
    | some value =>
        match ← strdup (ascii "Authorization") with
        | none => return none
        | some name => return some (some (name, value))

def isUnreserved (c : UInt8) : Bool :=
  (0x41 ≤ c && c ≤ 0x5A) || (0x61 ≤ c && c ≤ 0x7A) || (0x30 ≤ c && c ≤ 0x39) || c = 0x2D || c = 0x5F ||
    c = 0x2E || c = 0x7E

def hexDigitUpper (n : UInt8) : UInt8 := (ascii "0123456789ABCDEF").getD n.toNat 0

/-- The bytes `tamga_url_encode` appends for one byte. -/
def urlEncodeByte (c : UInt8) : Bytes :=
  if isUnreserved c then [c] else [0x25, hexDigitUpper (c >>> 4 &&& 0x0F), hexDigitUpper (c &&& 0x0F)]

/-- `tamga_url_encode`. -/
def urlEncode (value : Bytes) : Alloc (Option Bytes) := do
  let buf ← (value.flatMap urlEncodeByte).foldlM Buf.appendByte Buf.init
  buf.detachString

/-- `TamgaPathScope`. -/
inductive PathScope : Type where
  | account
  | origin
  deriving DecidableEq, Repr

/-- `tamga_client_build_url`. -/
def buildUrl (client : Client) (scope : PathScope) (path : Bytes) (query : Option Bytes) :
    Alloc (Option Bytes) := do
  let buf ← Buf.init.appendStr (if scope = .origin then client.origin else client.baseUrl)
  let buf ← buf.appendStr path
  let query := query.getD []
  let hasQuery : Bool := query.length ≠ 0
  let buf ← if hasQuery then buf.appendByte 0x3F >>= fun buf => buf.appendStr query else pure buf
  match client.auth with
  | some ⟨.queryToken, primary, _⟩ =>
      match ← urlEncode primary with
      | none => return none
      | some encoded =>
          let buf ← buf.appendByte (if hasQuery then 0x26 else 0x3F)
          let buf ← buf.appendStr (ascii "token=")
          let buf ← buf.appendStr encoded
          buf.detachString
  | _ => buf.detachString

/-- The arguments of `tamga_client_send_scoped` beside the client and the response slot. -/
structure Prepared where
  scope : PathScope
  method : Method
  path : Bytes
  query : Option Bytes
  body : Option Bytes
  otp : Option Bytes
  jsonApiBody : Bool
  deriving DecidableEq, Repr

/-- `TamgaHttpRequest`. -/
structure HttpRequest where
  method : Method
  url : Bytes
  headers : List (Bytes × Bytes)
  body : Option Bytes
  timeoutMs : Nat
  deriving DecidableEq, Repr

/-- The `headers` array. -/
def requestHeaders (auth : Option (Bytes × Bytes)) (version : Bytes) (p : Prepared) :
    List (Bytes × Bytes) :=
  auth.toList ++
    [(ascii "Tamga-Version", version),
      (ascii "Accept", ascii "application/vnd.api+json, application/json")] ++
    (if p.body.isSome then
      [(ascii "Content-Type",
        if p.jsonApiBody then ascii "application/vnd.api+json" else ascii "application/json")]
    else []) ++
    (p.otp.map fun otp => (ascii "Tamga-OTP", otp)).toList

/-- `tamga_client_send_scoped` up to its loop. The URL and the version are both asked for before
    either is looked at. -/
def clientRequest (client : Client) (p : Prepared) : Call HttpRequest :=
  match client.transport, client.auth with
  | none, _ =>
      Call.fail .noTransport
        "this build has no HTTP transport; register one with tamga_client_set_transport()"
  | some _, none =>
      Call.fail .nullArgument
        "no credentials configured; call tamga_client_set_auth() before making a request"
  | some _, some auth =>
      if ¬ ∀ otp ∈ p.otp, headerValueIsSafe otp = true then
        Call.fail .nullArgument "the OTP contains a line break and cannot be sent as a header"
      else do
        let authHeader ← Call.orFail .outOfMemory "could not build the auth header"
          (clientAuthHeader auth)
        let url ← (liftM (buildUrl client p.scope p.path p.query) : Call (Option Bytes))
        let version ← (liftM (sanitizeApiVersion client.apiVersion) : Call (Option Bytes))
        match url, version with
        | some url, some version =>
            return ⟨p.method, url, requestHeaders authHeader version p, p.body, client.timeoutMs⟩
        | _, _ => Call.fail .outOfMemory "could not build the request"

/-! ## Sending it -/

/-- One call of the transport's `perform`, with what was slept before it. -/
structure Attempt where
  sleptMs : Option Nat
  request : HttpRequest
  deriving DecidableEq, Repr

/-- A status other than `TAMGA_OK`, and what is left in the response slot. -/
structure Refusal where
  failure : Failure
  response : Option Response
  deriving DecidableEq

abbrev Outcome : Type := Except Refusal Response

/-- Code that talks to the transport. -/
abbrev Http (α : Type) : Type := Interact Attempt Answer α

/-- A failure that leaves no response. -/
def refused (failure : Failure) : Outcome := .error ⟨failure, none⟩

/-- A transport that could not make the request. -/
def transportFailure : TransportFailure → Failure
  | .oversized =>
      errorSet .transport
        (ascii "the server's response exceeded the maximum size this library will accept")
  | .outOfMemory => errorSet .outOfMemory (ascii "could not hold the server's response")
  | .network => errorSet .transport (ascii "the request could not be completed")

/-- What the loop does with a response. The server's code is copied for the caller; a copy that cannot
    be made is left out. -/
def concludeResponse (response : Response) : Alloc Outcome :=
  if 200 ≤ response.status ∧ response.status < 300 then return .ok response
  else do
    let code := apiErrorCode response.json
    let copy ← match code with
      | none => pure none
      | some code => strdup code
    let response := { response with apiErrorCode := copy }
    let detail := match copy with
      | none => []
      | some code => ascii " " ++ code
    return .error ⟨errorSet (mapApiError response.status code)
      (ascii "the server returned HTTP " ++ printInt response.status ++ detail), some response⟩

/-- What the loop does with an answer it does not retry. -/
def conclude (L : Libc) : Answer → Alloc Outcome
  | .failed reason => pure (refused (transportFailure reason))
  | .answered http => do
      match ← responseFromHttp L http with
      | none => return refused (errorSet .outOfMemory (ascii "could not read the response"))
      | some response => concludeResponse response

/-- A 429 on a request that may be repeated: the seconds `Retry-After` asks for. -/
def throttled (retryable : Bool) : Answer → Option Int
  | .failed _ => none
  | .answered http =>
      if http.status = 429 ∧ retryable = true then
        some (((http.header (ascii "Retry-After")).map strtollValue).getD 0)
      else none

/-- The loop of `tamga_client_send_scoped`; `attempt < max_retries` is `retriesLeft` not being zero. -/
def sendLoop (P : Platform) (request : HttpRequest) (retryable : Bool) :
    (retriesLeft attempt : Nat) → (sleptMs : Option Nat) → Http Outcome
  | 0, _, sleptMs => do
      let answer ← Interact.perform ⟨sleptMs, request⟩
      Interact.ofAlloc (conclude P.toLibc answer)
  | retriesLeft + 1, attempt, sleptMs => do
      let answer ← Interact.perform ⟨sleptMs, request⟩
      match throttled retryable answer with
      | some seconds =>
          sendLoop P request retryable retriesLeft (attempt + 1) (some (retryDelayMs P attempt seconds))
      | none => Interact.ofAlloc (conclude P.toLibc answer)

/-- `tamga_client_send_scoped`, for a client and a response slot that are there. -/
def sendScoped (P : Platform) (client : Client) (p : Prepared) : Http Outcome := do
  match ← Interact.ofAlloc (clientRequest client p).run with
  | .error failure => return refused failure
  | .ok request =>
      sendLoop P request (requestIsRetryable p.method p.path) client.maxRetries 0 none

end Tamga
