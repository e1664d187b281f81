import Tamga.Http.Send

/-!
# `Http.Routes` — where each endpoint's request goes

`Operation.route` states what a request of each endpoint is meant to be: its method, its path with the
canonical UUIDs in place, and the names and values of its query, none of it encoded. The code builds
that path and a text that parses back to that query, whatever bytes the caller's strings have and
whatever allocations are refused (`Operation.build_route`, `Operation.sends_addressed`).
-/

namespace Tamga

open Alloc Json Percent

variable {F : Prop}

/-- What a request is meant to be. -/
structure Route where
  scope : PathScope
  method : Method
  path : Bytes
  query : List (Bytes × Bytes)
  deriving DecidableEq

/-! ## The routes -/

/-- A resource of one id. -/
def idRoute (method : Method) (start : String) (id : Option Bytes) (suffix : String)
    (query : List (Bytes × Bytes)) : Option Route :=
  (id.bind uuidNormalize).map fun canonical =>
    ⟨.account, method, ascii start ++ canonical ++ ascii suffix, query⟩

/-- An entitlement of a licence. -/
def entitlementRoute (method : Method) (licenseId entitlementId : Option Bytes) (suffix : String) :
    Option Route := do
  let license ← licenseId.bind uuidNormalize
  let entitlement ← entitlementId.bind uuidNormalize
  return ⟨.account, method,
    ascii "/licenses/" ++ license ++ ascii "/entitlements/" ++ entitlement ++ ascii suffix, []⟩

/-- A parameter that is given only with a value. -/
def given (name : String) (value : Option Bytes) : List (Bytes × Bytes) :=
  (value.map fun v => (ascii name, v)).toList

/-- A number that is given only if it is not zero. -/
def givenNumber (name : String) (number : Nat) : List (Bytes × Bytes) :=
  if number = 0 then [] else [(ascii name, Decimal.encode number)]

/-- An id that may be absent but not malformed. -/
def optionalUuid : Option Bytes → Option (Option Bytes)
  | none => some none
  | some id => (uuidNormalize id).map some

/-- A page of a list. -/
def listRoute (start : String) (id : Option Bytes) (suffix : String) (limit : UInt32)
    (after : Option Bytes) : Option Route := do
  let canonical ← optionalUuid after
  idRoute .get start id suffix (givenNumber "limit" limit.toNat ++ given "page[after]" canonical)

/-- A certificate is fetched with its options in the query, or posted for with them in the body. -/
def checkoutRoute (start : String) (id : Option Bytes) (encrypt : Bool) (ttlSeconds : Int64) :
    Option Route :=
  idRoute .get start id "/actions/check-out"
    ((ascii "encrypt", ascii (if encrypt then "true" else "false")) ::
      if 0 < ttlSeconds then [(ascii "ttl", Decimal.encode ttlSeconds.toInt.toNat)] else [])

/-- The intended request of an endpoint; none if an id is not a UUID. -/
def Operation.route : Operation → Option Route
  | validateByKey _ _ => some ⟨.account, .post, ascii "/licenses/actions/validate-key", []⟩
  | validateById licenseId _ _ _ => idRoute .post "/licenses/" licenseId "/actions/validate" []
  | quickValidate licenseId _ => idRoute .get "/licenses/" licenseId "/actions/validate" []
  | checkIn licenseId => idRoute .post "/licenses/" licenseId "/actions/check-in" []
  | getLicense licenseId => idRoute .get "/licenses/" licenseId "" []
  | getLicensePolicy licenseId => idRoute .get "/licenses/" licenseId "/policy" []
  | getPolicy policyId => idRoute .get "/policies/" policyId "" []
  | checkOutLicense licenseId encrypt ttlSeconds =>
      checkoutRoute "/licenses/" licenseId encrypt ttlSeconds
  | checkOutLicenseJson licenseId _ _ => idRoute .post "/licenses/" licenseId "/actions/check-out" []
  | checkOutMachine machineId encrypt ttlSeconds =>
      checkoutRoute "/machines/" machineId encrypt ttlSeconds
  | checkOutMachineJson machineId _ _ => idRoute .post "/machines/" machineId "/actions/check-out" []
  | createMachine _ _ _ => some ⟨.account, .post, ascii "/machines", []⟩
  | deleteMachine machineId => idRoute .delete "/machines/" machineId "" []
  | getMachine machineId => idRoute .get "/machines/" machineId "" []
  | updateMachine machineId _ => idRoute .patch "/machines/" machineId "" []
  | listMachines licenseId search pageNumber pageSize => do
      let license ← optionalUuid licenseId
      return ⟨.account, .get, ascii "/machines",
        givenNumber "page[number]" pageNumber.toNat ++ givenNumber "page[size]" pageSize.toNat ++
          given "filter[license]" license ++ given "filter[q]" search⟩
  | pingHeartbeat machineId => idRoute .post "/machines/" machineId "/actions/ping-heartbeat" []
  | resetHeartbeat machineId => idRoute .post "/machines/" machineId "/actions/reset-heartbeat" []
  | generateOfflineProof machineId _ =>
      idRoute .post "/machines/" machineId "/actions/generate-offline-proof" []
  | createComponent .. => some ⟨.account, .post, ascii "/components", []⟩
  | listComponents machineId limit after => listRoute "/machines/" machineId "/components" limit after
  | listMachineProcesses machineId limit after =>
      listRoute "/machines/" machineId "/processes" limit after
  | createProcess .. => some ⟨.account, .post, ascii "/processes", []⟩
  | pingProcess processId => idRoute .post "/processes/" processId "/actions/ping" []
  | deleteProcess processId => idRoute .delete "/processes/" processId "" []
  | listEntitlements licenseId limit after =>
      listRoute "/licenses/" licenseId "/entitlements" limit after
  | getEntitlement licenseId entitlementId => entitlementRoute .get licenseId entitlementId ""
  | incrementEntitlementUsage licenseId entitlementId _ =>
      entitlementRoute .post licenseId entitlementId "/actions/increment"
  | decrementEntitlementUsage licenseId entitlementId _ =>
      entitlementRoute .post licenseId entitlementId "/actions/decrement"
  | resetEntitlementUsage licenseId entitlementId =>
      entitlementRoute .post licenseId entitlementId "/actions/reset"
  | listSigningKeys => some ⟨.account, .get, ascii "/signing-keys", []⟩
  | checkUpgrade productId platform filetype version channel constraint => do
      let product ← productId.bind uuidNormalize
      return ⟨.account, .get, ascii "/releases/actions/upgrade",
        (ascii "product", product) :: given "platform" platform ++ given "filetype" filetype ++
          given "version" version ++ given "channel" channel ++ given "constraint" constraint⟩
  | listReleaseArtifacts releaseId limit after =>
      listRoute "/releases/" releaseId "/artifacts" limit after
  | getArtifact artifactId => idRoute .get "/artifacts/" artifactId "" []
  | getArtifactDownloadUrl artifactId ttlSeconds =>
      idRoute .get "/artifacts/" artifactId "/actions/download"
        ((ascii "redirect", ascii "false") :: givenNumber "ttl" ttlSeconds.toNat)
  | health => some ⟨.origin, .get, ascii "/v1/health", []⟩

/-! ## Ids -/

section Ids

variable {value : Option Bytes} {what : String}

theorem requireUuid_ensures :
    Call.Ensures (fun id => value = some id ∧ (uuidNormalize id).isSome) (requireUuid value what) := by
  unfold requireUuid
  split
  · exact .throw _
  · split
    · exact .throw _
    · rename_i hid
      exact .pure ⟨rfl, by simpa [← Option.isSome_iff_ne_none] using hid⟩

theorem requireCanonical_ensures : Call.Ensures
    (fun canonical => value.bind uuidNormalize = some canonical) (requireCanonical value what) := by
  refine .bind requireUuid_ensures ?_
  rintro id ⟨rfl, -⟩
  split
  · exact .throw _
  · rename_i hid
    exact .pure hid

theorem optionalCanonical_ensures : Call.Ensures
    (fun canonical => optionalUuid value = some canonical) (optionalCanonical value what) := by
  cases value with
  | none => exact .pure rfl
  | some id =>
    refine .bind requireCanonical_ensures fun canonical hcanonical => ?_
    rw [Option.bind_some] at hcanonical
    exact .pure (by rw [optionalUuid, hcanonical]; rfl)

/-- A UUID needs no encoding. -/
theorem encode_canonical {id canonical : Bytes} (h : uuidNormalize id = some canonical) :
    encode canonical = canonical := by
  obtain ⟨uuid, -, -, rfl⟩ := uuidNormalize_eq_some.1 h
  have : ∀ c, isCanonical c = true → unreserved c = true := forall_byte (by decide +kernel)
  exact encode_eq_self fun c hc => this c (isCanonical_of_mem_uuidFormat c hc)

theorem tamgaPath_can {start : String} {id : Bytes} {suffix : String} {path : Bytes}
    (h : (tamgaPath start id suffix).Can F (some path)) : ∃ canonical,
      uuidNormalize id = some canonical ∧ path = ascii start ++ canonical ++ ascii suffix :=
  tamgaPath_ok ((tamgaPath_sound start id suffix).some_eq h)

theorem requireBoth_ensures {Q : Bytes → Prop} {body path : Alloc (Option Bytes)}
    (h : ∀ p, path.Can True (some p) → Q p) :
    Call.Ensures (fun texts => Q texts.2) (requireBoth body path) := by
  refine .bind_lift fun b _ => .bind_lift fun p hp => ?_
  split
  · exact .pure (h _ hp)
  · exact .throw _

end Ids

/-! ## Queries written out by hand -/

theorem givenNumber_toNat (name : String) (n : UInt32) : givenNumber name n.toNat =
    if n ≠ 0 then [(ascii name, Decimal.encode n.toNat)] else [] := by
  have hiff : n.toNat = 0 ↔ n = 0 := UInt32.toNat_inj (b := 0)
  simp [givenNumber, hiff]

/-- What `listQuery` writes: the limit, then the cursor. -/
def listText (limit : UInt32) (after : Option Bytes) : Bytes :=
  (if limit ≠ 0 then ascii "limit=" ++ printInt limit.toNat else []) ++
    (after.map fun canonical => (if limit ≠ 0 then [0x26] else []) ++
      (ascii "page%5Bafter%5D=" ++ canonical)).getD []

theorem listQuery_writes (limit : UInt32) (after : Option Bytes) : ∃ w,
    Buf.Writes w (listText limit after) ∧ listQuery limit after = w Buf.init >>= Buf.detachString := by
  have hlimit := (Buf.Writes.appendFmt (ascii "limit=" ++ printInt limit.toNat)).ite (p := limit ≠ 0)
  cases after with
  | none =>
    refine ⟨_, hlimit.seq .nil, ?_⟩
    unfold listQuery
    by_cases hl : limit = 0 <;> simp [hl]
  | some canonical =>
    refine ⟨_, hlimit.seq ((Buf.Writes.append [0x26]).ite.seq
      ((Buf.Writes.append (ascii "page%5Bafter%5D=")).seq (.append canonical))), ?_⟩
    unfold listQuery
    by_cases hl : limit = 0 <;> simp [hl, Buf.appendStr, Buf.appendByte]

theorem listText_eq {limit : UInt32} {after id : Option Bytes} (hafter : optionalUuid id = some after) :
    listText limit after = render (givenNumber "limit" limit.toNat ++ given "page[after]" after) := by
  have hlimit : ascii "limit=" = encode (ascii "limit") ++ [Percent.equals] := by decide
  have hname : ascii "page%5Bafter%5D=" = encode (ascii "page[after]") ++ [Percent.equals] := by
    decide
  rw [givenNumber_toNat]
  cases after with
  | none =>
    by_cases hl : limit = 0
    · simp [listText, hl, given, render]
    · simp [listText, hl, given, render, renderPair, hlimit, Query.printInt_natCast, Query.encode_decimal]
  | some canonical =>
    have hcursor : encode canonical = canonical := by
      cases id with
      | none => cases hafter
      | some id =>
        obtain ⟨c, hc, h⟩ := Option.map_eq_some_iff.mp hafter
        injection h with h
        exact encode_canonical (h ▸ hc)
    by_cases hl : limit = 0
    · simp [listText, hl, given, render, renderPair, hname, hcursor]
    · rw [given, Option.map_some, Option.toList_some, render_append (by simp [hl])]
      simp [listText, hl, render, renderPair, hlimit, hname, hcursor, Query.printInt_natCast,
        Query.encode_decimal, ampersand]

/-- A pair, and the lifetime when there is one: the shape of the other two queries. -/
theorem writes_ttl {p : Prop} [Decidable p] (first : Bytes × Bytes) (n : Nat) : Buf.Writes (fun buf =>
      buf.appendStr (renderPair first) >>= fun buf =>
        if p then buf.appendFmt (ascii "&ttl=" ++ printInt n) else pure buf)
    (render (first :: if p then [(ascii "ttl", Decimal.encode n)] else [])) := by
  have httl : ascii "&ttl=" ++ printInt n = ampersand :: renderPair (ascii "ttl", Decimal.encode n) := by
    rw [show ascii "&ttl=" = ampersand :: (encode (ascii "ttl") ++ [Percent.equals]) by decide,
      Query.printInt_natCast, renderPair, Query.encode_decimal, List.cons_append, List.append_assoc]
    rfl
  have hwrites := (Buf.Writes.append (renderPair first)).seq
    ((Buf.Writes.appendFmt (ascii "&ttl=" ++ printInt n)).ite (p := p))
  have htext : renderPair first ++ (if p then ascii "&ttl=" ++ printInt n else []) =
      render (first :: if p then [(ascii "ttl", Decimal.encode n)] else []) := by
    split
    · rw [httl, render_cons_cons]
      simp [render]
    · simp [render]
  exact htext ▸ hwrites

theorem checkoutQuery_writes (encrypt : Bool) (ttlSeconds : Int64) : ∃ w,
    Buf.Writes w (render ((ascii "encrypt", ascii (if encrypt then "true" else "false")) ::
      if 0 < ttlSeconds then [(ascii "ttl", Decimal.encode ttlSeconds.toInt.toNat)] else [])) ∧
    checkoutQuery encrypt ttlSeconds = w Buf.init >>= Buf.detachString := by
  refine ⟨_, writes_ttl _ _, ?_⟩
  have hfirst : (if encrypt then ascii "encrypt=true" else ascii "encrypt=false") =
      renderPair (ascii "encrypt", ascii (if encrypt then "true" else "false")) := by
    cases encrypt <;> decide
  unfold checkoutQuery
  rw [hfirst]
  by_cases httl : 0 < ttlSeconds
  · rw [Int.toNat_of_nonneg (le_of_lt (Int64.lt_iff_toInt_lt.mp httl))]
    simp [httl]
  · simp [httl]

theorem downloadQuery_writes (ttlSeconds : UInt32) : ∃ w, Buf.Writes w
      (render ((ascii "redirect", ascii "false") :: givenNumber "ttl" ttlSeconds.toNat)) ∧
    downloadQuery ttlSeconds = w Buf.init >>= Buf.detachString := by
  rw [givenNumber_toNat]
  refine ⟨_, writes_ttl _ _, ?_⟩
  unfold downloadQuery
  rw [show ascii "redirect=false" = renderPair (ascii "redirect", ascii "false") by decide]
  by_cases httl : ttlSeconds = 0 <;> simp [httl]

theorem written {x : Alloc (Option Bytes)} {t text : Bytes}
    (hx : ∃ w, Buf.Writes w t ∧ x = w Buf.init >>= Buf.detachString)
      (h : x.Can F (some text)) : text = t := by
  obtain ⟨w, hw, rfl⟩ := hx
  exact (hw.detachString_some h).1

/-! ## Each preparation keeps to its route -/

/-- A request that is about to be sent is the one the route describes. -/
structure Prepared.Follows (p : Prepared) (r : Route) : Prop where
  scope : p.scope = r.scope
  method : p.method = r.method
  path : p.path = r.path
  query : p.query.getD [] = Percent.render r.query

section Follows

variable {L : Libc} {p : Prepared} {id : Option Bytes} {start what suffix : String}

theorem follows_get (path : Bytes) : (getRequest path none).Follows ⟨.account, .get, path, []⟩ :=
  ⟨rfl, rfl, rfl, rfl⟩

theorem follows_query {path text : Bytes} {pairs : List (Bytes × Bytes)}
    (h : text = render pairs) :
    (getRequest path (some text)).Follows ⟨.account, .get, path, pairs⟩ :=
  ⟨rfl, rfl, rfl, h⟩

theorem follows_post (path : Bytes) (body otp : Option Bytes) :
    (postRequest path body otp).Follows ⟨.account, .post, path, []⟩ :=
  ⟨rfl, rfl, rfl, rfl⟩

theorem follows_patch (text path : Bytes) : Prepared.Follows
    ⟨.account, .patch, path, none, some text, none, true⟩ ⟨.account, .patch, path, []⟩ :=
  ⟨rfl, rfl, rfl, rfl⟩

theorem follows_delete (path : Bytes) : (deleteRequest path).Follows ⟨.account, .delete, path, []⟩ :=
  ⟨rfl, rfl, rfl, rfl⟩

/-- The preparation keeps to the route. -/
abbrev KeepsTo (route : Option Route) (prepare : Call Prepared) : Prop :=
  Call.Ensures (fun p => ∃ r, route = some r ∧ p.Follows r) prepare

theorem preparePath_keepsTo (request : Bytes → Prepared) {method : Method}
    (hrequest : ∀ path, (request path).Follows ⟨.account, method, path, []⟩) :
    KeepsTo (idRoute method start id suffix []) (preparePath start id what suffix request) := by
  refine .bind requireUuid_ensures ?_
  rintro i ⟨rfl, -⟩
  refine AllocE.Ensures.bind (Call.Ensures.orFail fun _ => tamgaPath_can) ?_
  rintro path ⟨canonical, hcanonical, rfl⟩
  refine .pure ⟨_, ?_, hrequest _⟩
  rw [idRoute, Option.bind_some, hcanonical]; rfl

/-- A body and a path of one id, at the end of a preparation. -/
theorem bothTexts_keepsTo {body : Alloc (Option Bytes)} {request : Bytes → Bytes → Prepared}
    {method : Method} {i : Bytes}
    (hrequest : ∀ text path, (request text path).Follows ⟨.account, method, path, []⟩) :
    KeepsTo (idRoute method start (some i) suffix [])
      (requireBoth body (tamgaPath start i suffix) >>= fun texts =>
        pure (request texts.1 texts.2)) := by
  refine .bind (requireBoth_ensures fun _ => tamgaPath_can) ?_
  rintro ⟨text, path⟩ ⟨canonical, hcanonical, rfl⟩
  refine .pure ⟨_, ?_, hrequest _ _⟩
  rw [idRoute, Option.bind_some, hcanonical]; rfl

theorem prepareValidateById_keepsTo {scopeJson otp : Option Bytes} {skipTouch : Bool} :
    KeepsTo (idRoute .post "/licenses/" id "/actions/validate" [])
      (prepareValidateById L id scopeJson skipTouch otp) := by
  refine .bind requireUuid_ensures ?_
  rintro i ⟨rfl, -⟩
  refine .rest fun scope => .rest fun _ => .rest fun root => .rest fun details => ?_
  cases scope with
  | none => exact bothTexts_keepsTo fun text path => follows_post path (some text) otp
  | some scope =>
    refine .rest fun details => ?_
    exact bothTexts_keepsTo fun text path => follows_post path (some text) otp

theorem prepareValidateByKey_keepsTo {otp : Option Bytes} {licenseKey : Bytes} :
    KeepsTo (some ⟨.account, .post, ascii "/licenses/actions/validate-key", []⟩)
      (prepareValidateByKey L otp licenseKey) :=
  .rest fun _ => .rest fun _ => .rest fun _ => .pure ⟨_, rfl, follows_post _ _ _⟩

theorem prepareQuickValidate_keepsTo {otp : Option Bytes} :
    KeepsTo (idRoute .get "/licenses/" id "/actions/validate" []) (prepareQuickValidate id otp) :=
  preparePath_keepsTo (fun path => { getRequest path none with otp := otp })
    fun _ => ⟨rfl, rfl, rfl, rfl⟩

theorem prepareCheckout_keepsTo {encrypt : Bool} {ttlSeconds : Int64} (raw : Bool) :
    KeepsTo (if raw then checkoutRoute start id encrypt ttlSeconds
        else idRoute .post start id "/actions/check-out" [])
      (prepareCheckout L start id what encrypt ttlSeconds raw) := by
  refine AllocE.Ensures.bind requireUuid_ensures ?_
  rintro i ⟨rfl, -⟩
  by_cases httl : 0 < ttlSeconds ∧ machineFileTtlIsValid ttlSeconds = false
  · rw [if_pos httl]
    exact AllocE.Ensures.throw _
  rw [if_neg httl]
  refine AllocE.Ensures.bind (Call.Ensures.orFail fun _ => tamgaPath_can) ?_
  rintro path ⟨canonical, hcanonical, rfl⟩
  cases raw with
  | true =>
    refine AllocE.Ensures.bind (Call.Ensures.orFail fun _ h => written (checkoutQuery_writes _ _) h) ?_
    rintro query hquery
    refine AllocE.Ensures.pure ⟨_, ?_, follows_query hquery⟩
    rw [if_pos rfl, checkoutRoute, idRoute, Option.bind_some, hcanonical]; rfl
  | false =>
    refine .rest fun body => AllocE.Ensures.pure ⟨_, ?_, follows_post _ _ _⟩
    rw [if_neg (by decide), idRoute, Option.bind_some, hcanonical]; rfl

theorem prepareCreateMachine_keepsTo {optionsJson : Option Bytes} {fingerprint : Bytes} :
    KeepsTo (some ⟨.account, .post, ascii "/machines", []⟩)
      (prepareCreateMachine L id optionsJson fingerprint) := by
  refine .rest fun _ => .rest fun options => .rest fun _ => .rest fun _ => .rest fun _ =>
    .rest fun _ => .rest fun _ => .rest fun _ => .rest fun _ => .rest fun _ => ?_
  cases options with
  | none =>
    exact .rest fun _ => .rest fun _ => .rest fun _ => .rest fun _ =>
      .pure ⟨_, rfl, follows_post _ _ _⟩
  | some options =>
    exact .rest fun _ => .rest fun _ => .rest fun _ => .rest fun _ =>
      .pure ⟨_, rfl, follows_post _ _ _⟩

theorem prepareUpdateMachine_keepsTo {attributesJson : Bytes} :
    KeepsTo (idRoute .patch "/machines/" id "" []) (prepareUpdateMachine L id attributesJson) := by
  refine .bind requireUuid_ensures ?_
  rintro i ⟨rfl, -⟩
  refine .rest fun given => .rest fun _ => .rest fun _ => .rest fun _ => .rest fun _ => ?_
  cases given with
  | none => exact .rest fun _ => bothTexts_keepsTo follows_patch
  | some given => exact .rest fun _ => bothTexts_keepsTo follows_patch

theorem prepareGenerateOfflineProof_keepsTo {datasetJson : Option Bytes} :
    KeepsTo (idRoute .post "/machines/" id "/actions/generate-offline-proof" [])
      (prepareGenerateOfflineProof L id datasetJson) := by
  refine .bind requireUuid_ensures ?_
  rintro i ⟨rfl, -⟩
  exact .rest fun _ => .rest fun _ => .rest fun _ => .rest fun _ =>
    bothTexts_keepsTo fun text path => follows_post path (some text) none

theorem prepareCreate_keepsTo {path : String} {metadataJson : Option Bytes}
    {fields : List (String × Bytes)} :
    KeepsTo (some ⟨.account, .post, ascii path, []⟩) (prepareCreate L path id metadataJson fields) :=
  .rest fun _ => .rest fun _ => .rest fun _ => .rest fun _ => .rest fun _ => .rest fun _ =>
    .rest fun _ => .pure ⟨_, rfl, follows_post _ _ _⟩

theorem prepareList_keepsTo {limit : UInt32} {after : Option Bytes} :
    KeepsTo (listRoute start id suffix limit after)
      (prepareList start id what suffix limit after) := by
  refine AllocE.Ensures.bind requireUuid_ensures ?_
  rintro i ⟨rfl, -⟩
  refine AllocE.Ensures.bind optionalCanonical_ensures fun cursor hcursor => ?_
  refine AllocE.Ensures.bind (Call.Ensures.orFail
      fun _ h => (written (listQuery_writes _ _) h).trans (listText_eq hcursor)) ?_
  intro query hquery
  refine AllocE.Ensures.bind (Call.Ensures.orFail fun _ => tamgaPath_can) ?_
  rintro path ⟨canonical, hcanonical, rfl⟩
  refine AllocE.Ensures.pure ⟨_, ?_, follows_query hquery⟩
  simp [listRoute, hcursor, idRoute, hcanonical]

theorem prepareListMachines_keepsTo {search : Option Bytes} {pageNumber pageSize : UInt32} :
    KeepsTo (Operation.listMachines id search pageNumber pageSize).route
      (prepareListMachines id search pageNumber pageSize) := by
  refine .bind optionalCanonical_ensures fun license hlicense => ?_
  refine .bind (Q := fun text => text = render
    ([] ++ givenNumber "page[number]" pageNumber.toNat ++ givenNumber "page[size]" pageSize.toNat ++
      given "filter[license]" license ++ given "filter[q]" search))
    (Call.Ensures.orFail fun text h => ?_) ?_
  · obtain ⟨q₁, h₁, h⟩ := can_bind.1 h
    obtain ⟨q₂, h₂, h⟩ := can_bind.1 h
    obtain ⟨q₃, h₃, h⟩ := can_bind.1 h
    obtain ⟨q₄, h₄, h⟩ := can_bind.1 h
    exact ((((Query.renders_init.addNumber (ascii "page[number]") (by decide) h₁).addNumber
      (ascii "page[size]") (by decide) h₂).addOptional
      (ascii "filter[license]") (by decide) h₃).addOptional
      (ascii "filter[q]") (by decide) h₄).finish h
  · intro query hquery
    refine .pure ⟨_, ?_, follows_query hquery⟩
    simp [Operation.route, hlicense]

theorem prepareGetEntitlement_keepsTo {entitlementId : Option Bytes} :
    KeepsTo (entitlementRoute .get id entitlementId "") (prepareGetEntitlement id entitlementId) := by
  refine .bind requireCanonical_ensures fun license hlicense => ?_
  refine .bind requireCanonical_ensures fun entitlement hentitlement => ?_
  refine AllocE.Ensures.bind (Call.Ensures.orFail fun _ h => (joined_some h).1) ?_
  rintro path rfl
  refine .pure ⟨_, ?_, follows_get _⟩
  simp [entitlementRoute, hlicense, hentitlement]
  rfl

theorem prepareUsage_keepsTo {entitlementId : Option Bytes} {action : String} {amount : UInt32}
    (hsuffix : suffix = "/actions/" ++ action) :
    KeepsTo (entitlementRoute .post id entitlementId suffix)
      (prepareUsage L id entitlementId action amount) := by
  subst hsuffix
  refine .bind requireUuid_ensures ?_
  rintro licenseId ⟨rfl, hlicense⟩
  refine .bind requireUuid_ensures ?_
  rintro entitlementId ⟨rfl, hentitlement⟩
  obtain ⟨license, hlicense⟩ := Option.isSome_iff_exists.mp hlicense
  obtain ⟨entitlement, hentitlement⟩ := Option.isSome_iff_exists.mp hentitlement
  refine .bind (Q := fun path => path = [ascii "/licenses/", license,
    ascii "/entitlements/", entitlement, ascii "/actions/", ascii action].flatten)
    (Call.Ensures.orFail fun path h => ?_) ?_
  · exact (joined_some (by simpa [entitlementActionPath, hlicense, hentitlement] using h)).1
  rintro path rfl
  refine .rest fun body => .pure ⟨_, ?_, follows_post _ _ _⟩
  simp [entitlementRoute, hlicense, hentitlement, ascii_append]

theorem prepareCheckUpgrade_keepsTo {channel constraint : Option Bytes}
    {platform filetype version : Bytes} :
    KeepsTo (Operation.checkUpgrade id platform filetype version channel constraint).route
      (prepareCheckUpgrade id channel constraint platform filetype version) := by
  refine .bind requireCanonical_ensures fun product hproduct => ?_
  refine .bind (Q := fun text => text = render
    ([] ++ [(ascii "product", product)] ++ [(ascii "platform", platform)] ++
      [(ascii "filetype", filetype)] ++ [(ascii "version", version)] ++ given "channel" channel ++
      given "constraint" constraint)) (Call.Ensures.orFail fun text h => ?_) ?_
  · obtain ⟨q₁, h₁, h⟩ := can_bind.1 h
    obtain ⟨q₂, h₂, h⟩ := can_bind.1 h
    obtain ⟨q₃, h₃, h⟩ := can_bind.1 h
    obtain ⟨q₄, h₄, h⟩ := can_bind.1 h
    obtain ⟨q₅, h₅, h⟩ := can_bind.1 h
    obtain ⟨q₆, h₆, h⟩ := can_bind.1 h
    exact ((((((Query.renders_init.add (ascii "product") (by decide) h₁).add
      (ascii "platform") (by decide) h₂).add (ascii "filetype") (by decide)
      h₃).add (ascii "version") (by decide) h₄).addOptional (ascii "channel")
      (by decide) h₅).addOptional (ascii "constraint") (by decide) h₆).finish h
  · intro query hquery
    refine .pure ⟨_, ?_, follows_query hquery⟩
    simp [Operation.route, hproduct, given]

theorem prepareDownloadUrl_keepsTo {ttlSeconds : UInt32} :
    KeepsTo (Operation.getArtifactDownloadUrl id ttlSeconds).route
      (prepareDownloadUrl id ttlSeconds) := by
  refine AllocE.Ensures.bind requireUuid_ensures ?_
  rintro i ⟨rfl, -⟩
  split
  · exact AllocE.Ensures.throw _
  refine AllocE.Ensures.bind (Call.Ensures.orFail fun _ => tamgaPath_can) ?_
  rintro path ⟨canonical, hcanonical, rfl⟩
  refine AllocE.Ensures.bind (Call.Ensures.orFail fun _ h => written (downloadQuery_writes _) h) ?_
  intro query hquery
  refine AllocE.Ensures.pure ⟨_, ?_, follows_query hquery⟩
  rw [Operation.route, idRoute, Option.bind_some, hcanonical]; rfl

theorem Operation.prepare_keepsTo {op : Operation} {prepare : Call Prepared}
    (h : op.prepare L = some prepare) : KeepsTo op.route prepare := by
  cases op with
  | validateByKey licenseKey otp =>
    obtain ⟨key, rfl, rfl⟩ := Option.map_eq_some_iff.mp h
    exact prepareValidateByKey_keepsTo
  | createMachine licenseId fingerprint optionsJson =>
    obtain ⟨fingerprint, rfl, rfl⟩ := Option.map_eq_some_iff.mp h
    exact prepareCreateMachine_keepsTo
  | updateMachine machineId attributesJson =>
    obtain ⟨attributes, rfl, rfl⟩ := Option.map_eq_some_iff.mp h
    exact prepareUpdateMachine_keepsTo
  | createProcess machineId pid metadataJson =>
    obtain ⟨pid, rfl, rfl⟩ := Option.map_eq_some_iff.mp h
    exact prepareCreate_keepsTo
  | createComponent machineId fingerprint name metadataJson =>
    simp only [Operation.prepare] at h
    split at h
    · cases h; exact prepareCreate_keepsTo
    · cases h
  | checkUpgrade productId platform filetype version channel constraint =>
    simp only [Operation.prepare] at h
    split at h
    · cases h; exact prepareCheckUpgrade_keepsTo
    · cases h
  | validateById => cases h; exact prepareValidateById_keepsTo
  | quickValidate => cases h; exact prepareQuickValidate_keepsTo
  | checkOutLicense | checkOutMachine =>
    cases h; exact prepareCheckout_keepsTo true
  | checkOutLicenseJson | checkOutMachineJson =>
    cases h; exact prepareCheckout_keepsTo false
  | checkIn | pingHeartbeat | resetHeartbeat | pingProcess =>
    cases h; exact preparePath_keepsTo _ fun path => follows_post path none none
  | getLicense | getLicensePolicy | getPolicy | getMachine | getArtifact =>
    cases h; exact preparePath_keepsTo _ follows_get
  | deleteMachine | deleteProcess =>
    cases h; exact preparePath_keepsTo _ follows_delete
  | listMachines => cases h; exact prepareListMachines_keepsTo
  | generateOfflineProof => cases h; exact prepareGenerateOfflineProof_keepsTo
  | listComponents | listMachineProcesses | listEntitlements | listReleaseArtifacts =>
    cases h; exact prepareList_keepsTo
  | getEntitlement => cases h; exact prepareGetEntitlement_keepsTo
  | incrementEntitlementUsage | decrementEntitlementUsage | resetEntitlementUsage =>
    cases h; exact prepareUsage_keepsTo (by decide)
  | getArtifactDownloadUrl => cases h; exact prepareDownloadUrl_keepsTo
  | listSigningKeys => cases h; exact .pure ⟨_, rfl, follows_get _⟩
  | health => cases h; exact .pure ⟨_, rfl, ⟨rfl, rfl, rfl, rfl⟩⟩

end Follows

/-! ## What is sent -/

/-- The pair that the query-token scheme adds. -/
def Client.tokenPairs (client : Client) : List (Bytes × Bytes) := given "token" client.token

/-- A query, with its mark if there is one. -/
def queryText (pairs : List (Bytes × Bytes)) : Bytes :=
  if pairs = [] then [] else 0x3F :: Percent.render pairs

/-- The URL of a route. -/
def Client.urlOf (client : Client) (r : Route) : Bytes :=
  client.root r.scope ++ r.path ++ queryText (r.query ++ client.tokenPairs)

theorem render_eq_nil {pairs : List (Bytes × Bytes)} : render pairs = [] ↔ pairs = [] := by
  constructor
  · intro h
    cases pairs with
    | nil => rfl
    | cons p pairs =>
      cases pairs with
      | nil => simp [render, renderPair] at h
      | cons q pairs => simp [render_cons_cons, renderPair] at h
  · rintro rfl; rfl

theorem Client.urlText_render (client : Client) (r : Route) :
    client.urlText r.scope r.path (render r.query) = client.urlOf r := by
  have htoken : ascii "token=" = encode (ascii "token") ++ [Percent.equals] := by decide
  unfold Client.urlText Client.urlOf Client.tokenPairs given queryText urlPieces tokenPieces
  simp only [List.length_eq_zero_iff, ne_eq, render_eq_nil]
  by_cases hq : r.query = []
  · cases client.token with
    | none => simp [hq]
    | some primary => simp [hq, htoken, render, renderPair]
  · cases client.token with
    | none => simp [hq]
    | some primary =>
      simp [hq, htoken, render_append hq, renderPair]
      rfl

variable {slot : Bool}

theorem Operation.build_route {L : Libc} {op : Operation} {client : Option Client}
    {c : Client} {p : Prepared} {r : HttpRequest}
    (h : (op.build L client slot).Can F (.ok (c, p, r))) : ∃ route, op.route = some route ∧
      p.Follows route ∧ r.method = route.method ∧ r.url = c.urlOf route := by
  obtain ⟨-, -, prepare, hprepare, hp, hr⟩ := build_can_ok.1 h
  obtain ⟨route, hroute, hfollows⟩ := (prepare_keepsTo hprepare).of_can hp
  obtain ⟨-, -, auth, header, version, -, -, -, hurl, hform⟩ :=
    clientRequest_ok.1 ((clientRequest_reports c p).sound.ok_eq hr)
  refine ⟨route, hroute, hfollows, ?_, ?_⟩
  · rw [hform]; exact hfollows.method
  · rw [(buildUrl_ok.1 hurl).1, hfollows.scope, hfollows.path, hfollows.query, c.urlText_render]

/-- The attempt is one of the endpoint's route. -/
def Operation.Addressed (op : Operation) (client : Option Client) (r : HttpRequest) : Prop :=
  ∃ c route, client = some c ∧ op.route = some route ∧ r.method = route.method ∧
    r.url = c.urlOf route

theorem Operation.sends_addressed {P : Platform} {op : Operation} {client : Option Client} :
    (op.run P client slot).Sends fun a => op.Addressed client a.request :=
  sends_of_build fun c p r h => by
    obtain ⟨route, hroute, -, hmethod, hurl⟩ := build_route h
    exact ⟨c, route, (build_can_ok.1 h).1, hroute, hmethod, hurl⟩

/-! ## The endpoints that issue several requests -/

/-- A page of the lookup by fingerprint. -/
def LookupPage (licenseId fingerprint : Option Bytes) (op : Operation) : Prop :=
  ∃ page : Nat, page ≤ machineLookupMaxPages ∧
    op = .listMachines licenseId fingerprint (UInt32.ofNat page) machinePageSize

/-- A request of an activation that does not adopt. -/
def Activation.Issues (a : Activation) (op : Operation) : Prop :=
  op = a.create ∨ op = a.validate ∨ ∃ machineId, op = .deleteMachine (some machineId)

/-- The requests an endpoint may issue. -/
def Endpoint.Issues : Endpoint → Operation → Prop
  | single op _, op' => op' = op
  | hasEntitlement licenseId _ limit _, op =>
      op = .listEntitlements licenseId (if 0 < limit then limit else 100) none
  | findMachineByFingerprint licenseId fingerprint _, op => LookupPage licenseId fingerprint op
  | activateMachine a _, op => a.Issues op
  | activateMachineIdempotent a _, op => a.Issues op ∨ LookupPage a.licenseId a.fingerprint op

section Issues

variable {P : Platform} {client : Option Client} {K : ∀ α : Type, Http α → Prop}
  (hK : Interact.Compositional K)

include hK

theorem hasEntitlement_issued {licenseId code : Option Bytes} {limit : UInt32}
    (h : K _ ((Operation.listEntitlements licenseId (if 0 < limit then limit else 100) none).run P
      client true)) : K _ (hasEntitlement P client licenseId code limit slot) := by
  unfold hasEntitlement
  split
  · refine hK.bind h fun outcome => ?_
    cases outcome with
    | error refusal => exact hK.pure _
    | ok response => exact hK.pure _
  · exact hK.pure _

theorem findPages_issued {c : Client} {licenseId fingerprint : Bytes}
    (h : ∀ op, LookupPage (some licenseId) (some fingerprint) op → K _ (op.run P (some c) true)) :
    ∀ {pagesLeft page : Nat}, page + pagesLeft ≤ machineLookupMaxPages + 1 →
      K _ (findPages P c licenseId fingerprint pagesLeft page) := by
  intro pagesLeft
  induction pagesLeft with
  | zero => intro page _; exact hK.pure _
  | succ pagesLeft ih =>
    intro page hpage
    refine hK.bind (h _ ⟨page, by omega, rfl⟩) fun outcome => ?_
    cases outcome with
    | error refusal => exact hK.pure _
    | ok response =>
      refine hK.bind_ofAlloc fun found _ => ?_
      rcases found with code | _ | id
      · exact hK.pure _
      · dsimp only
        cases responseTotalPages response with
        | none => exact hK.pure _
        | some totalPages =>
          dsimp only
          split
          · exact hK.pure _
          · exact ih (by omega)
      · exact hK.pure _

theorem findMachineByFingerprint_issued {licenseId fingerprint : Option Bytes}
    (h : ∀ op, LookupPage licenseId fingerprint op → K _ (op.run P client true)) :
    K _ (findMachineByFingerprint P client licenseId fingerprint slot) := by
  unfold findMachineByFingerprint
  split
  · refine hK.bind_ofAlloc fun id hid => ?_
    match id, hid with
    | .error failure, _ => exact hK.pure _
    | .ok id, hid =>
      obtain ⟨rfl, -⟩ := requireUuid_ensures id hid
      exact findPages_issued hK h (by decide)
  · exact hK.pure _

theorem activateAfterCreate_issued {a : Activation} {created : Response}
    (h : ∀ op, a.Issues op → K _ (op.run P client true)) :
    K _ (activateAfterCreate P client a created slot) := by
  refine hK.bind (h _ (Or.inr (Or.inl rfl))) fun outcome => ?_
  cases outcome with
  | error refusal => exact hK.pure _
  | ok validated =>
    show K _ (if _ then _ else _)
    split
    · split
      · exact hK.pure _
      · exact hK.bind (h _ (Or.inr (Or.inr ⟨_, rfl⟩))) fun _ => hK.pure _
    · exact hK.pure _

theorem adoptedMachine_issued {a : Activation} {refusal : Refusal}
    (h : ∀ op, LookupPage a.licenseId a.fingerprint op → K _ (op.run P client true)) :
    K _ (adoptedMachine P client a refusal) := by
  refine hK.bind_ofAlloc fun named _ => ?_
  match named with
  | .error code => exact hK.pure _
  | .ok (some machineId) => exact hK.pure _
  | .ok none =>
    refine hK.bind (findMachineByFingerprint_issued hK h) fun found => ?_
    match found with
    | .ok (some machineId) => exact hK.pure _
    | .ok none => exact hK.pure _
    | .error failure =>
      show K _ (if _ then _ else _)
      split
      · exact hK.pure _
      · exact hK.pure _

/-- What the requests that an endpoint may issue have, and sequencing keeps, the endpoint has. -/
theorem Endpoint.run_issued {e : Endpoint}
    (h : ∀ op slot, e.Issues op → K _ (op.run P client slot)) : K _ (e.run P client) := by
  cases e with
  | single op slot => exact hK.bind (h op slot rfl) fun _ => hK.pure _
  | hasEntitlement licenseId code limit slot =>
    exact hK.bind (hasEntitlement_issued hK (h _ true rfl)) fun _ => hK.pure _
  | findMachineByFingerprint licenseId fingerprint slot =>
    exact hK.bind (findMachineByFingerprint_issued hK fun op hop => h op true hop)
      fun _ => hK.pure _
  | activateMachine a slot =>
    refine hK.bind ?_ fun _ => hK.pure _
    refine hK.bind (h _ true (Or.inl rfl)) fun outcome => ?_
    cases outcome with
    | ok created => exact activateAfterCreate_issued hK fun op hop => h op true hop
    | error refusal => exact hK.pure _
  | activateMachineIdempotent a slot =>
    refine hK.bind ?_ fun _ => hK.pure _
    refine hK.bind (h _ true (Or.inl (Or.inl rfl))) fun outcome => ?_
    cases outcome with
    | ok created => exact activateAfterCreate_issued hK fun op hop => h op true (Or.inl hop)
    | error refusal =>
      show K _ (if _ then _ else _)
      split
      · exact hK.pure _
      · refine hK.bind (adoptedMachine_issued hK fun op hop => h op true (Or.inr hop))
          fun adopted => ?_
        cases adopted with
        | error failure => exact hK.pure _
        | ok machineId =>
          exact hK.bind (h _ slot (Or.inl (Or.inr (Or.inl rfl)))) fun _ => hK.pure _

end Issues

/-! ## Nothing a caller passes changes the shape of a URL -/

/-- The tail of a URL: nothing, or a query that reads back as `pairs`. -/
def ReadsBack (tail : Bytes) (pairs : List (Bytes × Bytes)) : Prop :=
  tail = [] ∧ pairs = [] ∨ ∃ query, tail = 0x3F :: query ∧ Percent.parse query = pairs

theorem readsBack_queryText (pairs : List (Bytes × Bytes)) : ReadsBack (queryText pairs) pairs := by
  unfold queryText
  by_cases h : pairs = []
  · exact Or.inl ⟨if_pos h, h⟩
  · exact Or.inr ⟨_, if_neg h, parse_render h⟩

/-- **Queries and paths are injection-free.** Whatever bytes the arguments have, whatever the transport
    answers and whatever allocations are refused, the URL of every request is the root, the fixed
    route with canonical UUIDs, and nothing or a query that splits and decodes to the intended pairs,
    the token last. -/
theorem endpoint_urls (P : Platform) (client : Option Client) (e : Endpoint) (σ : Nat → Bool)
    (answers : Stream' Answer) :
    (∀ entry ∈ ((e.run P client).under σ answers).1, ∃ c op route tail,
      client = some c ∧ e.Issues op ∧ op.route = some route ∧
        entry.1.request.method = route.method ∧
        entry.1.request.url = c.root route.scope ++ route.path ++ tail ∧
        ReadsBack tail (route.query ++ c.tokenPairs)) ∧
    ∀ id canonical, uuidNormalize id = some canonical →
      canonical.length = 36 ∧ ∀ b ∈ canonical, isHexLower b = true ∨ b = hyphen := by
  constructor
  · intro entry hentry
    have hsends : (e.run P client).Sends fun a => ∃ op, e.Issues op ∧ op.Addressed client a.request :=
      Endpoint.run_issued (Interact.compositional_sends _) fun op slot hop =>
        Operation.sends_addressed.mono fun a ha => ⟨op, hop, ha⟩
    obtain ⟨op, hop, c, route, hclient, hroute, hmethod, hurl⟩ :=
      hsends.runs (Interact.runs_under (e.run P client) σ answers) entry hentry
    exact ⟨c, op, route, _, hclient, hop, hroute, hmethod, hurl, readsBack_queryText _⟩
  · intro id canonical h
    obtain ⟨uuid, hlen, -, rfl⟩ := uuidNormalize_eq_some.1 h
    refine ⟨length_uuidFormat hlen, fun b hb => ?_⟩
    have := isCanonical_of_mem_uuidFormat b hb
    simpa [isCanonical] using this

end Tamga
