import Tamga.Http.Refusal

/-!
# `Http.Activation` — activating a machine

An activation is a small protocol: create the machine, validate the licence, and undo the creation if
the licence turns out to be over its limits. The idempotent one adopts the machine that already has the
fingerprint when the creation is refused with `FINGERPRINT_TAKEN`.

`Activation.Steps` lists the rows of exchanges such a call can make, and `activation_steps` shows that
the code makes no others. That no machine is destroyed that the call did not create is read off the
rows (`activation_deletes`).
-/

namespace Tamga

open Alloc Json Interact

variable {P : Platform} {L : Libc}

/-- `tamga_client_activate_machine`, or `tamga_client_activate_machine_idempotent`. -/
def Activation.run (P : Platform) (client : Option Client) (a : Activation) (slot idempotent : Bool) :
    Http Reply :=
  if idempotent then activateMachineIdempotent P client a slot else activateMachine P client a slot

/-! ## Telling the requests apart -/

section Requests

variable {client : Option Client} {a : Activation} {r : HttpRequest}

theorem create_addressed : a.create.Addressed client r ↔ ∃ c, client = some c ∧ r.method = .post ∧
    r.url = c.urlOf ⟨.account, .post, ascii "/machines", []⟩ := by
  constructor
  · rintro ⟨c, _, hclient, ⟨⟩, hmethod, hurl⟩
    exact ⟨c, hclient, hmethod, hurl⟩
  · rintro ⟨c, hclient, hmethod, hurl⟩
    exact ⟨c, _, hclient, rfl, hmethod, hurl⟩

theorem validate_addressed : a.validate.Addressed client r ↔ ∃ c canonical, client = some c ∧
    a.licenseId.bind uuidNormalize = some canonical ∧ r.method = .post ∧
    r.url = c.urlOf ⟨.account, .post,
      ascii "/licenses/" ++ canonical ++ ascii "/actions/validate", []⟩ := by
  constructor
  · rintro ⟨c, route, hclient, hroute, hmethod, hurl⟩
    obtain ⟨canonical, hcanonical, rfl⟩ := Option.map_eq_some_iff.mp hroute
    exact ⟨c, canonical, hclient, hcanonical, hmethod, hurl⟩
  · rintro ⟨c, canonical, hclient, hcanonical, hmethod, hurl⟩
    exact ⟨c, _, hclient, Option.map_eq_some_iff.mpr ⟨canonical, hcanonical, rfl⟩, hmethod, hurl⟩

/-- No request is both the creation and the validation. -/
theorem not_create_validate : ¬ (a.create.Addressed client r ∧ a.validate.Addressed client r) := by
  rintro ⟨hcreate, hvalidate⟩
  obtain ⟨c, rfl, -, hurl⟩ := create_addressed.1 hcreate
  obtain ⟨_, canonical, ⟨⟩, -, -, hurl'⟩ := validate_addressed.1 hvalidate
  rw [hurl] at hurl'
  simp only [Client.urlOf, List.append_assoc] at hurl'
  have hsecond := congrArg (fun text => text.getD 1 0) (List.append_cancel_left hurl')
  revert hsecond
  show (0x6D : UInt8) ≠ 0x6C
  decide

theorem deleteMachine_method {id : Option Bytes}
    (h : (Operation.deleteMachine id).Addressed client r) : r.method = .delete := by
  obtain ⟨c, route, -, hroute, hmethod, -⟩ := h
  obtain ⟨canonical, -, rfl⟩ := Option.map_eq_some_iff.mp hroute
  exact hmethod

theorem lookup_method {licenseId fingerprint : Option Bytes} {op : Operation}
    (hop : LookupPage licenseId fingerprint op) (h : op.Addressed client r) : r.method = .get := by
  obtain ⟨page, -, rfl⟩ := hop
  obtain ⟨c, route, -, hroute, hmethod, -⟩ := h
  obtain ⟨license, -, hroute⟩ := Option.bind_eq_some_iff.mp hroute
  injection hroute with hroute
  rw [hmethod, ← hroute]

end Requests

/-! ## The deletion can be built

Its URL is no longer than the validation's, which was built just before. -/

theorem canonical_spec {id canonical : Bytes} (h : uuidNormalize id = some canonical) :
    canonical.length = 36 ∧ NulFree canonical := by
  obtain ⟨uuid, hlen, -, rfl⟩ := uuidNormalize_eq_some.1 h
  refine ⟨length_uuidFormat hlen, fun hmem => ?_⟩
  exact absurd (isCanonical_of_mem_uuidFormat _ hmem) (by decide)

/-- Another request of the same client whose path is no longer. -/
theorem clientRequest_shorter {c : Client} {p : Prepared} {r : HttpRequest} {route : Route}
    {path : Bytes} (p' : Prepared) (h : (clientRequest c p).ok = .ok r) (hp : p.Follows route)
    (hscope : route.scope = .account) (hquery : route.query = []) (hnul : NulFree path)
    (hlen : path.length ≤ route.path.length) (hp' : p'.Follows ⟨.account, p'.method, path, []⟩)
    (hotp : p'.otp = none) : ∃ r', (clientRequest c p').ok = .ok r' := by
  obtain ⟨htransport, -, auth, header, version, hauth, hheader, hversion, hurl, -⟩ :=
    clientRequest_ok.1 h
  obtain ⟨htext, hfree, hshort⟩ := buildUrl_ok.1 hurl
  rw [hp.scope, hp.path, hp.query, c.urlText_render, Client.urlOf, hscope, hquery] at htext
  rw [htext, nulFree_append, nulFree_append] at hfree
  rw [htext, List.length_append, List.length_append] at hshort
  refine ⟨⟨p'.method, c.urlOf ⟨.account, p'.method, path, []⟩, _, p'.body, c.timeoutMs⟩,
    clientRequest_ok.2 ⟨htransport, by rw [hotp]; nofun, auth, header, version, hauth, hheader,
      hversion, buildUrl_ok.2 ⟨?_, ?_, ?_⟩, rfl⟩⟩
  · rw [hp'.scope, hp'.path, hp'.query, c.urlText_render]
  · exact nulFree_append.2 ⟨nulFree_append.2 ⟨hfree.1.1, hnul⟩, hfree.2⟩
  · simp only [Client.urlOf, List.length_append]
    omega

variable {client : Option Client}

theorem deleteMachine_built {a : Activation}
    {built : Client × Prepared × HttpRequest} (h : (a.validate.build L client true).ok = .ok built)
    {id canonical : Bytes} (hid : uuidNormalize id = some canonical) :
    ∃ built', ((Operation.deleteMachine (some id)).build L client true).ok = .ok built' := by
  obtain ⟨c, p, r⟩ := built
  have hbuild := AllocE.can_false.2 h
  obtain ⟨rfl, -, prepare, -, -, hr⟩ := Operation.build_can_ok.1 hbuild
  obtain ⟨route, hroute, hfollows, -, -⟩ := Operation.build_route hbuild
  obtain ⟨license, hlicense, rfl⟩ := Option.map_eq_some_iff.mp hroute
  obtain ⟨licenseId, -, hlicense⟩ := Option.bind_eq_some_iff.mp hlicense
  obtain ⟨hlen, hnul⟩ := canonical_spec hid
  have hlen' := (canonical_spec hlicense).1
  have hstart : (ascii "/machines/").length = 10 := by decide
  have hstart' : (ascii "/licenses/").length = 10 := by decide
  have hempty : ascii "" = [] := rfl
  have hpath : (tamgaPath "/machines/" id "").ok = some (ascii "/machines/" ++ canonical) := by
    rw [tamgaPath_eq hid]
    have hroom : 46 < Buf.maxGrowth := by decide
    refine joined_ok.2 ⟨by simp [hempty], nulFree_append.2 ⟨by decide, hnul⟩, ?_⟩
    rw [List.length_append]; omega
  have hprepare : (prepareDelete "/machines/" (some id) "machine_id").ok =
      .ok (deleteRequest (ascii "/machines/" ++ canonical)) := by
    have huuid : (requireUuid (some id) "machine_id").ok = .ok id := by
      simp [requireUuid, hid]
    have hrequire : (require (tamgaPath "/machines/" id "")).ok =
        .ok (ascii "/machines/" ++ canonical) := Call.orFail_eq_ok.2 hpath
    unfold prepareDelete preparePath
    rw [AllocE.ok_bind_of_ok huuid, AllocE.ok_bind_of_ok hrequire]
    rfl
  obtain ⟨r', hr'⟩ := clientRequest_shorter (deleteRequest (ascii "/machines/" ++ canonical))
    (AllocE.can_false.1 hr) hfollows rfl rfl (nulFree_append.2 ⟨by decide, hnul⟩)
    (by simp only [List.length_append]; omega) ⟨rfl, rfl, rfl, rfl⟩ rfl
  exact ⟨_, AllocE.can_false.1 (Operation.build_can_ok.2 ⟨rfl, rfl, _, rfl,
    AllocE.can_false.2 hprepare, AllocE.can_false.2 hr'⟩)⟩

theorem deleteMachine_not_built {id : Bytes} (hid : uuidNormalize id = none)
    {built : Client × Prepared × HttpRequest} :
    ((Operation.deleteMachine (some id)).build L client true).ok ≠ .ok built := by
  intro h
  obtain ⟨route, hroute, -⟩ := Operation.build_route (AllocE.can_false.2 h)
  obtain ⟨canonical, hcanonical, -⟩ := Option.map_eq_some_iff.mp hroute
  rw [Option.bind_some, hid] at hcanonical
  cases hcanonical

/-- Only the server says that a fingerprint is taken. -/
theorem create_not_taken {F : Prop} {a : Activation} {slot : Bool}
    {failure : Failure} (h : (a.create.build L client slot).Can F (.error failure)) :
    failure.code ≠ .fingerprintTaken := by
  intro htaken
  have hcode : failure.code ∈ unsentCodes :=
    Operation.build_failsWith failure (h.mono fun _ => trivial)
  rw [htaken] at hcode
  revert hcode
  decide

/-! ## The rows of exchanges -/

namespace Activation

variable (a : Activation)

/-- The id of a created machine that is to be deleted again: the creation gave one that is a UUID, and
    the licence turned out to be over a limit. -/
def RollsBack (L : Libc) (creation validation : Answer) (id : Bytes) : Prop :=
  a.autoDeleteOnOverage = true ∧
    (∃ created, creation.accepted L = some created ∧ createdMachineId created = some id ∧
      (uuidNormalize id).isSome) ∧
    ∃ validated, validation.accepted L = some validated ∧
      validationCodeIsOverage (responseValidationCodeEnum validated) = true

/-- The rows of exchanges that a call can make. -/
inductive Steps (L : Libc) (idempotent : Bool) : List (Operation × Answer) → Prop where
  | unsent : Steps L idempotent []
  | refused (w : Answer) (h : w.accepted L = none) : Steps L idempotent [(a.create, w)]
  | created (w : Answer) (h : w.accepted L ≠ none) : Steps L idempotent [(a.create, w)]
  | validated (w v : Answer) (h : w.accepted L ≠ none) (hkept : ∀ id, ¬ a.RollsBack L w v id) :
      Steps L idempotent [(a.create, w), (a.validate, v)]
  | rolledBack (w v x : Answer) (id : Bytes) (h : a.RollsBack L w v id) :
      Steps L idempotent [(a.create, w), (a.validate, v), (.deleteMachine (some id), x)]
  | lookedUp (w : Answer) (lookups : List (Operation × Answer)) (hidempotent : idempotent = true)
      (h : w.refusedWith L = some .fingerprintTaken)
      (hlookups : ∀ step ∈ lookups, LookupPage a.licenseId a.fingerprint step.1) :
      Steps L idempotent ((a.create, w) :: lookups)
  | adopted (w v : Answer) (lookups : List (Operation × Answer)) (hidempotent : idempotent = true)
      (h : w.refusedWith L = some .fingerprintTaken)
      (hlookups : ∀ step ∈ lookups, LookupPage a.licenseId a.fingerprint step.1) :
      Steps L idempotent ((a.create, w) :: (lookups ++ [(a.validate, v)]))

end Activation

section Runs

variable {client : Option Client} {a : Activation} {slot : Bool} {answers : Stream' Answer}
  {trace : List (Attempt × Answer)}

/-- After the creation: nothing more, a validation, or a validation and the deletion it calls for. -/
theorem activateAfterCreate_steps {w : Answer} {created : Response} {reply : Reply}
    (hcreated : w.accepted P.toLibc = some created)
    (h : (activateAfterCreate P client a created slot).Runs False answers trace reply) :
    ∃ steps, Exchanges client steps trace ∧
      ∀ idempotent, a.Steps P.toLibc idempotent ((a.create, w) :: steps) := by
  have hne : w.accepted P.toLibc ≠ none := by rw [hcreated]; nofun
  obtain ⟨first, rest, outcome, rfl, hvalidate, h⟩ := runs_bind.1 h
  rcases Operation.runs_cases hvalidate with ⟨failure, -, rfl, rfl⟩ | ⟨built, v, hbuilt, hexchange, rfl⟩
  · obtain ⟨rfl, -⟩ := runs_pure.1 h
    exact ⟨[], .nil, fun idempotent => .created w hne⟩
  cases hv : v.accepted P.toLibc with
  | none =>
    obtain ⟨refusal, hconclude, -, -⟩ := conclude_refused hv
    rw [hconclude] at h
    obtain ⟨rfl, -⟩ := runs_pure.1 h
    refine ⟨[(a.validate, v)], by simpa using Exchanges.single hexchange,
      fun idempotent => .validated w v hne ?_⟩
    rintro id ⟨-, -, validated, hvalidated, -⟩
    rw [hv] at hvalidated
    cases hvalidated
  | some validated =>
    rw [conclude_accepted hv] at h
    -- without a deletion the row ends with the validation
    have hkept : (∀ id, ¬ a.RollsBack P.toLibc w v id) → rest = [] →
        ∃ steps, Exchanges client steps (first ++ rest) ∧
          ∀ idempotent, a.Steps P.toLibc idempotent ((a.create, w) :: steps) := by
      rintro hkept rfl
      exact ⟨[(a.validate, v)], by simpa using Exchanges.single hexchange,
        fun idempotent => .validated w v hne hkept⟩
    dsimp only at h
    by_cases hover : a.autoDeleteOnOverage = true ∧
        validationCodeIsOverage (responseValidationCodeEnum validated) = true
    · rw [if_pos hover] at h
      cases hid : createdMachineId created with
      | none =>
        rw [hid] at h
        refine hkept ?_ (runs_pure.1 h).1
        rintro id ⟨-, ⟨created', hcreated', hid', -⟩, -⟩
        rw [hcreated] at hcreated'
        injection hcreated' with hcreated'
        rw [← hcreated', hid] at hid'
        cases hid'
      | some id =>
        rw [hid] at h
        obtain ⟨second, third, outcome, rfl, hdelete, h⟩ := runs_bind.1 h
        obtain ⟨rfl, -⟩ := runs_pure.1 h
        cases huuid : uuidNormalize id with
        | none =>
          rcases Operation.runs_cases hdelete with ⟨_, -, rfl, -⟩ | ⟨built', _, hbuilt', -, -⟩
          · refine hkept ?_ rfl
            rintro id' ⟨-, ⟨created', hcreated', hid', huuid'⟩, -⟩
            rw [hcreated] at hcreated'
            injection hcreated' with hcreated'
            rw [← hcreated', hid] at hid'
            injection hid' with hid'
            rw [← hid', huuid] at huuid'
            cases huuid'
          · exact absurd hbuilt' (deleteMachine_not_built huuid)
        | some canonical =>
          obtain ⟨built', hbuilt'⟩ := deleteMachine_built hbuilt huuid
          rcases Operation.runs_cases hdelete with ⟨_, herror, -, -⟩ | ⟨_, x, -, hdeleted, -⟩
          · rw [hbuilt'] at herror
            cases herror
          · refine ⟨[(a.validate, v), (.deleteMachine (some id), x)], ?_, fun idempotent => ?_⟩
            · simpa using Exchanges.cons hexchange (Exchanges.single hdeleted)
            · exact .rolledBack w v x id ⟨hover.1,
                ⟨created, hcreated, hid, by rw [huuid]; rfl⟩, validated, hv, hover.2⟩
    · rw [if_neg hover] at h
      refine hkept ?_ (runs_pure.1 h).1
      rintro id ⟨hauto, -, validated', hvalidated', hcode⟩
      rw [hv] at hvalidated'
      injection hvalidated' with hvalidated'
      exact hover ⟨hauto, hvalidated' ▸ hcode⟩

/-- The lookup found a machine: a page listed one with that fingerprint. -/
def Lists (L : Libc) (fingerprint : Bytes) (answer : Answer) : Prop :=
  ∃ response machine, answer.accepted L = some response ∧
    machine ∈ jsonItems (jsonMember response.json "data") ∧
    jsonString (jsonMember (jsonMember (some machine) "attributes") "fingerprint") = some fingerprint

theorem machinePageExactMatch_lists {response : Response} {fingerprint id : Bytes}
    (h : (machinePageExactMatch response fingerprint).ok = .ok (some id)) :
    ∃ machine ∈ jsonItems (jsonMember response.json "data"),
      jsonString (jsonMember (jsonMember (some machine) "attributes") "fingerprint") =
        some fingerprint := by
  unfold machinePageExactMatch at h
  cases hfound : (jsonItems (jsonMember response.json "data")).findSome? (exactMatch fingerprint) with
  | none => rw [hfound] at h; cases h
  | some found =>
    obtain ⟨machine, hmachine, hmatch⟩ := List.exists_of_findSome?_eq_some hfound
    unfold exactMatch at hmatch
    split at hmatch
    · rename_i hfingerprint
      exact ⟨machine, hmachine, hfingerprint⟩
    · cases hmatch

theorem findPages_steps {c : Client} {licenseId fingerprint : Bytes} :
    ∀ {pagesLeft page : Nat} {answers : Stream' Answer} {trace : List (Attempt × Answer)}
      {found : Except Failure (Option Bytes)}, page + pagesLeft ≤ machineLookupMaxPages + 1 →
      (findPages P c licenseId fingerprint pagesLeft page).Runs False answers trace found →
      ∃ steps, Exchanges (some c) steps trace ∧
        (∀ step ∈ steps, LookupPage (some licenseId) (some fingerprint) step.1) ∧
        ∀ id, found = .ok (some id) → ∃ step ∈ steps, Lists P.toLibc fingerprint step.2 := by
  intro pagesLeft
  induction pagesLeft with
  | zero =>
    intro page answers trace found _ h
    obtain ⟨rfl, rfl⟩ := runs_pure.1 h
    exact ⟨[], .nil, by simp, by simp⟩
  | succ pagesLeft ih =>
    intro page answers trace found hpage h
    have hlookup : LookupPage (some licenseId) (some fingerprint)
        (.listMachines (some licenseId) (some fingerprint) (UInt32.ofNat page) machinePageSize) :=
      ⟨page, by omega, rfl⟩
    obtain ⟨first, rest, outcome, rfl, hlist, h⟩ := runs_bind.1 h
    rcases Operation.runs_cases hlist with ⟨failure, -, rfl, rfl⟩ | ⟨-, w, -, hexchange, rfl⟩
    · obtain ⟨rfl, rfl⟩ := runs_pure.1 h
      exact ⟨[], .nil, by simp, by simp⟩
    -- the row so far; the rest is nothing or what the next pages add
    have hstop : rest = [] → (∀ id, found = .ok (some id) → Lists P.toLibc fingerprint w) →
        ∃ steps, Exchanges (some c) steps (first ++ rest) ∧
          (∀ step ∈ steps, LookupPage (some licenseId) (some fingerprint) step.1) ∧
          ∀ id, found = .ok (some id) → ∃ step ∈ steps, Lists P.toLibc fingerprint step.2 := by
      rintro rfl hfound
      refine ⟨_, by simpa using Exchanges.single hexchange, ?_, fun id hid => ?_⟩
      · intro step hstep
        rw [List.mem_singleton.mp hstep]
        exact hlookup
      · exact ⟨_, List.mem_singleton_self _, hfound id hid⟩
    cases hw : w.accepted P.toLibc with
    | none =>
      obtain ⟨refusal, hconclude, -, -⟩ := conclude_refused hw
      rw [hconclude] at h
      obtain ⟨hrest, rfl⟩ := runs_pure.1 h
      exact hstop hrest (by simp)
    | some response =>
      rw [conclude_accepted hw] at h
      obtain ⟨matched, hmatched, h⟩ := runs_bind_ofAlloc.1 h
      rcases matched with code | _ | id
      · obtain ⟨hrest, rfl⟩ := runs_pure.1 h
        exact hstop hrest (by simp)
      · dsimp only at h
        cases htotal : responseTotalPages response with
        | none =>
          rw [htotal] at h
          obtain ⟨hrest, rfl⟩ := runs_pure.1 h
          exact hstop hrest (by simp)
        | some totalPages =>
          rw [htotal] at h
          dsimp only at h
          split at h
          · obtain ⟨hrest, rfl⟩ := runs_pure.1 h
            exact hstop hrest (by simp)
          · obtain ⟨steps, hsteps, hpages, hfound⟩ := ih (by omega) h
            refine ⟨_, .cons hexchange hsteps, ?_, fun id hid => ?_⟩
            · exact List.forall_mem_cons.mpr ⟨hlookup, hpages⟩
            · obtain ⟨step, hstep, hlists⟩ := hfound id hid
              exact ⟨step, List.mem_cons_of_mem _ hstep, hlists⟩
      · obtain ⟨hrest, rfl⟩ := runs_pure.1 h
        obtain ⟨machine, hmachine, hfingerprint⟩ :=
          machinePageExactMatch_lists (can_false.1 hmatched)
        exact hstop hrest fun _ _ => ⟨response, machine, hw, hmachine, hfingerprint⟩

theorem findMachineByFingerprint_steps {licenseId fingerprint : Option Bytes}
    {found : Except Failure (Option Bytes)}
    (h : (findMachineByFingerprint P client licenseId fingerprint true).Runs False answers trace
      found) :
    ∃ steps, Exchanges client steps trace ∧
      (∀ step ∈ steps, LookupPage licenseId fingerprint step.1) ∧
      ∀ id, found = .ok (some id) → ∃ fp, fingerprint = some fp ∧
        ∃ step ∈ steps, Lists P.toLibc fp step.2 := by
  unfold findMachineByFingerprint at h
  split at h
  · rename_i c fp _
    obtain ⟨uuid, huuid, hfind⟩ := runs_bind_ofAlloc.1 h
    match uuid, huuid, hfind with
    | .error failure, _, hfind =>
      obtain ⟨rfl, rfl⟩ := runs_pure.1 hfind
      exact ⟨[], .nil, by simp, by simp⟩
    | .ok id, huuid, hfind =>
      obtain ⟨rfl, -⟩ := requireUuid_ensures.of_can huuid
      obtain ⟨steps, hsteps, hpages, hfound⟩ := findPages_steps (by decide) hfind
      exact ⟨steps, hsteps, hpages, fun id hid => ⟨fp, rfl, hfound id hid⟩⟩
  · obtain ⟨rfl, rfl⟩ := runs_pure.1 h
    exact ⟨[], .nil, by simp, by simp⟩

/-- What justifies an adoption: the refusal named a machine, or a page of the lookup listed one. -/
def Justified (L : Libc) (a : Activation) (w : Answer) (lookups : List (Operation × Answer)) : Prop :=
  (∃ id, jsonString (jsonMember (jsonMember (firstError (w.json L)) "meta") "machineId") = some id) ∨
    ∃ fingerprint, a.fingerprint = some fingerprint ∧ ∃ step ∈ lookups, Lists L fingerprint step.2

theorem adoptedMachine_steps {refusal : Refusal} {w : Answer} {adopted : Except Failure Bytes}
    (hw : refusal.response.bind Response.json = w.json P.toLibc)
    (h : (adoptedMachine P client a refusal).Runs False answers trace adopted) :
    ∃ steps, Exchanges client steps trace ∧
      (∀ step ∈ steps, LookupPage a.licenseId a.fingerprint step.1) ∧
      ∀ id, adopted = .ok id → Justified P.toLibc a w steps := by
  obtain ⟨named, hnamed, h⟩ := runs_bind_ofAlloc.1 h
  match named, hnamed, h with
  | .error code, _, h =>
    obtain ⟨rfl, rfl⟩ := runs_pure.1 h
    exact ⟨[], .nil, by simp, by simp⟩
  | .ok (some machineId), hnamed, h =>
    obtain ⟨rfl, rfl⟩ := runs_pure.1 h
    refine ⟨[], .nil, by simp, fun _ _ => Or.inl ?_⟩
    unfold conflictMachineId at hnamed
    cases hid : namedMachineId refusal.response with
    | none => rw [hid] at hnamed; cases hnamed
    | some id =>
      rw [namedMachineId, hw] at hid
      exact ⟨id, hid⟩
  | .ok none, _, h =>
    obtain ⟨first, rest, found, rfl, hfind, h⟩ := runs_bind.1 h
    obtain ⟨steps, hsteps, hpages, hfound⟩ := findMachineByFingerprint_steps hfind
    have hend : ∀ {result : Except Failure Bytes},
        (pure result : Http (Except Failure Bytes)).Runs False (answers.drop first.length) rest
          adopted → (∀ id, result = .ok id → ∃ id, found = .ok (some id)) →
        ∃ steps, Exchanges client steps (first ++ rest) ∧
          (∀ step ∈ steps, LookupPage a.licenseId a.fingerprint step.1) ∧
          ∀ id, adopted = .ok id → Justified P.toLibc a w steps := by
      intro result hpure hresult
      obtain ⟨rfl, rfl⟩ := runs_pure.1 hpure
      refine ⟨steps, by simpa using hsteps, hpages, fun id hid => Or.inr ?_⟩
      obtain ⟨id', hid'⟩ := hresult id hid
      exact hfound id' hid'
    match found, h with
    | .ok (some machineId), h => exact hend h fun _ _ => ⟨machineId, rfl⟩
    | .ok none, h => exact hend h (by simp)
    | .error failure, h =>
      replace h : Interact.Runs False (if failure.code = .outOfMemory then pure (.error failure)
        else pure (.error _)) _ rest adopted := h
      split at h
      · exact hend h (by simp)
      · exact hend h (by simp)

/-- **The protocol.** The rows of exchanges of a call are those of `Activation.Steps`. -/
theorem activation_steps {idempotent : Bool} {reply : Reply}
    (h : (a.run P client slot idempotent).Runs False answers trace reply) :
    ∃ steps, Exchanges client steps trace ∧ a.Steps P.toLibc idempotent steps := by
  cases idempotent with
  | false =>
    obtain ⟨first, rest, outcome, rfl, hcreate, h⟩ := runs_bind.1 h
    rcases Operation.runs_cases hcreate with ⟨_, -, rfl, rfl⟩ | ⟨-, w, -, hexchange, rfl⟩
    · obtain ⟨rfl, -⟩ := runs_pure.1 h
      exact ⟨[], .nil, .unsent⟩
    cases hw : w.accepted P.toLibc with
    | none =>
      obtain ⟨refusal, hconclude, -, -⟩ := conclude_refused hw
      rw [hconclude] at h
      obtain ⟨rfl, -⟩ := runs_pure.1 h
      exact ⟨_, by simpa using Exchanges.single hexchange, .refused w hw⟩
    | some created =>
      rw [conclude_accepted hw] at h
      obtain ⟨steps, hsteps, hgoes⟩ := activateAfterCreate_steps hw h
      exact ⟨_, .cons hexchange hsteps, hgoes false⟩
  | true =>
    obtain ⟨first, rest, outcome, rfl, hcreate, h⟩ := runs_bind.1 h
    rcases Operation.runs_cases hcreate with ⟨failure, hfailed, rfl, rfl⟩ | ⟨-, w, -, hexchange, rfl⟩
    · replace h : Interact.Runs False (if failure.code ≠ .fingerprintTaken then
          pure (activateCreateFailed ⟨failure, none⟩ slot) else _) _ rest reply := h
      rw [if_pos (create_not_taken (AllocE.can_false.2 hfailed))] at h
      obtain ⟨rfl, -⟩ := runs_pure.1 h
      exact ⟨[], .nil, .unsent⟩
    cases hw : w.accepted P.toLibc with
    | none =>
      obtain ⟨refusal, hconclude, hcode, hjson⟩ := conclude_refused hw
      rw [hconclude] at h
      dsimp only at h
      by_cases htaken : refusal.failure.code = .fingerprintTaken
      · rw [if_neg (not_not.mpr htaken)] at h
        rw [htaken] at hcode
        obtain ⟨second, third, adopted, rfl, hadopt, h⟩ := runs_bind.1 h
        obtain ⟨lookups, hlookups, hpages, -⟩ := adoptedMachine_steps hjson hadopt
        cases adopted with
        | error failure =>
          obtain ⟨rfl, -⟩ := runs_pure.1 h
          exact ⟨_, by simpa using Exchanges.cons hexchange hlookups,
            .lookedUp w lookups rfl hcode hpages⟩
        | ok machineId =>
          obtain ⟨third, fourth, outcome, rfl, hvalidate, h⟩ := runs_bind.1 h
          obtain ⟨rfl, -⟩ := runs_pure.1 h
          rcases Operation.runs_cases hvalidate with ⟨_, -, rfl, -⟩ | ⟨-, v, -, hexchange', -⟩
          · exact ⟨_, by simpa using Exchanges.cons hexchange hlookups,
              .lookedUp w lookups rfl hcode hpages⟩
          · refine ⟨_, ?_, .adopted w v lookups rfl hcode hpages⟩
            simpa using Exchanges.cons hexchange (hlookups.append (Exchanges.single hexchange'))
      · rw [if_pos htaken] at h
        obtain ⟨rfl, -⟩ := runs_pure.1 h
        exact ⟨_, by simpa using Exchanges.single hexchange, .refused w hw⟩
    | some created =>
      rw [conclude_accepted hw] at h
      obtain ⟨steps, hsteps, hgoes⟩ := activateAfterCreate_steps hw h
      exact ⟨_, .cons hexchange hsteps, hgoes true⟩

end Runs

/-! ## No machine is destroyed that the call did not create -/

section Rows

variable {a : Activation} {client : Option Client} {idempotent : Bool} {op : Operation}
  {r : HttpRequest} {steps : List (Operation × Answer)}

/-- A deletion. -/
def Operation.Deletes (op : Operation) : Prop := ∃ id, op = .deleteMachine id

/-- The endpoints an activation calls. -/
def Activation.Calls (a : Activation) (op : Operation) : Prop :=
  op = a.create ∨ op = a.validate ∨ op.Deletes ∨ LookupPage a.licenseId a.fingerprint op

theorem create_iff (hop : a.Calls op) (h : op.Addressed client r) :
    a.create.Addressed client r ↔ op = a.create := by
  constructor
  · intro hcreate
    obtain ⟨c, -, hmethod, -⟩ := create_addressed.1 hcreate
    rcases hop with rfl | rfl | ⟨id, rfl⟩ | hop
    · rfl
    · exact absurd ⟨hcreate, h⟩ not_create_validate
    · rw [deleteMachine_method h] at hmethod; cases hmethod
    · rw [lookup_method hop h] at hmethod; cases hmethod
  · rintro rfl
    exact h

theorem validate_iff (hop : a.Calls op) (h : op.Addressed client r) :
    a.validate.Addressed client r ↔ op = a.validate := by
  constructor
  · intro hvalidate
    obtain ⟨c, _, -, -, hmethod, -⟩ := validate_addressed.1 hvalidate
    rcases hop with rfl | rfl | ⟨id, rfl⟩ | hop
    · exact absurd ⟨h, hvalidate⟩ not_create_validate
    · rfl
    · rw [deleteMachine_method h] at hmethod; cases hmethod
    · rw [lookup_method hop h] at hmethod; cases hmethod
  · rintro rfl
    exact h

theorem deletes_iff (hop : a.Calls op) (h : op.Addressed client r) :
    r.method = .delete ↔ op.Deletes := by
  constructor
  · intro hmethod
    rcases hop with rfl | rfl | hdeletes | hop
    · obtain ⟨c, -, hpost, -⟩ := create_addressed.1 h
      rw [hpost] at hmethod; cases hmethod
    · obtain ⟨c, _, -, -, hpost, -⟩ := validate_addressed.1 h
      rw [hpost] at hmethod; cases hmethod
    · exact hdeletes
    · rw [lookup_method hop h] at hmethod; cases hmethod
  · rintro ⟨id, rfl⟩
    exact deleteMachine_method h

theorem lookup_ne (hop : LookupPage a.licenseId a.fingerprint op) :
    op ≠ a.create ∧ op ≠ a.validate ∧ ¬ op.Deletes := by
  obtain ⟨page, -, rfl⟩ := hop
  simp [Activation.create, Activation.validate, Operation.Deletes]

theorem validate_ne_create : a.validate ≠ a.create := by
  simp [Activation.create, Activation.validate]

theorem create_not_deletes : ¬ a.create.Deletes := by
  simp [Activation.create, Operation.Deletes]

theorem validate_not_deletes : ¬ a.validate.Deletes := by
  simp [Activation.validate, Operation.Deletes]

theorem Activation.Steps.calls (h : a.Steps L idempotent steps) : ∀ step ∈ steps, a.Calls step.1 := by
  have hcreate : a.Calls a.create := Or.inl rfl
  have hvalidate : a.Calls a.validate := Or.inr (Or.inl rfl)
  have hlookup : ∀ {op}, LookupPage a.licenseId a.fingerprint op → a.Calls op :=
    fun hop => Or.inr (Or.inr (Or.inr hop))
  cases h with
  | unsent => simp
  | refused w h => simpa using hcreate
  | created w h => simpa using hcreate
  | validated w v h hkept => simpa using ⟨hcreate, hvalidate⟩
  | rolledBack w v x id h =>
    have hdelete : a.Calls (.deleteMachine (some id)) := Or.inr (Or.inr (Or.inl ⟨_, rfl⟩))
    simpa using ⟨hcreate, hvalidate, hdelete⟩
  | lookedUp w lookups _ h hlookups =>
    exact List.forall_mem_cons.mpr ⟨hcreate, fun step hstep => hlookup (hlookups step hstep)⟩
  | adopted w v lookups _ h hlookups =>
    refine List.forall_mem_cons.mpr ⟨hcreate, List.forall_mem_append.mpr
      ⟨fun step hstep => hlookup (hlookups step hstep), ?_⟩⟩
    simpa using hvalidate

/-- The creation comes first, and once. -/
theorem Activation.Steps.head (h : a.Steps L idempotent steps) : steps = [] ∨
    ∃ w rest, steps = (a.create, w) :: rest ∧ ∀ step ∈ rest, step.1 ≠ a.create := by
  have hvalidate := @validate_ne_create a
  cases h with
  | unsent => exact Or.inl rfl
  | refused w h => exact Or.inr ⟨w, [], rfl, by simp⟩
  | created w h => exact Or.inr ⟨w, [], rfl, by simp⟩
  | validated w v h hkept => exact Or.inr ⟨w, _, rfl, by simpa using hvalidate⟩
  | rolledBack w v x id h =>
    have hdelete : Operation.deleteMachine (some id) ≠ a.create := by simp [Activation.create]
    exact Or.inr ⟨w, _, rfl, by simpa using ⟨hvalidate, hdelete⟩⟩
  | lookedUp w lookups _ h hlookups =>
    exact Or.inr ⟨w, lookups, rfl, fun step hstep => (lookup_ne (hlookups step hstep)).1⟩
  | adopted w v lookups _ h hlookups =>
    refine Or.inr ⟨w, _, rfl, List.forall_mem_append.mpr ⟨?_, by simpa using hvalidate⟩⟩
    exact fun step hstep => (lookup_ne (hlookups step hstep)).1

/-- A deletion ends the one row that rolls back. -/
theorem Activation.Steps.deletes (h : a.Steps L idempotent steps) :
    (∀ step ∈ steps, ¬ step.1.Deletes) ∨ ∃ w v x id, a.RollsBack L w v id ∧
      steps = [(a.create, w), (a.validate, v), (.deleteMachine (some id), x)] := by
  have hcreate := @create_not_deletes a
  have hvalidate := @validate_not_deletes a
  cases h with
  | unsent => exact Or.inl (by simp)
  | refused w h => exact Or.inl (by simpa using hcreate)
  | created w h => exact Or.inl (by simpa using hcreate)
  | validated w v h hkept => exact Or.inl (by simpa using ⟨hcreate, hvalidate⟩)
  | rolledBack w v x id h => exact Or.inr ⟨w, v, x, id, h, rfl⟩
  | lookedUp w lookups _ h hlookups =>
    exact Or.inl (List.forall_mem_cons.mpr
      ⟨hcreate, fun step hstep => (lookup_ne (hlookups step hstep)).2.2⟩)
  | adopted w v lookups _ h hlookups =>
    exact Or.inl (List.forall_mem_cons.mpr ⟨hcreate, List.forall_mem_append.mpr
      ⟨fun step hstep => (lookup_ne (hlookups step hstep)).2.2, by simpa using hvalidate⟩⟩)

theorem Answer.accepted_of_refusedWith {w : Answer} {code : ErrorCode}
    (h : w.refusedWith L = some code) : w.accepted L = none := by
  cases w with
  | failed reason => rfl
  | answered http =>
    simp only [Answer.refusedWith, Answer.accepted] at h ⊢
    split
    · rename_i hstatus; rw [if_pos hstatus] at h; cases h
    · rfl

/-- A row whose creation and validation call for a deletion has one. -/
theorem Activation.Steps.rollsBack (h : a.Steps L idempotent steps) {w v : Answer} {id : Bytes}
    (hw : LastAnswer (· = a.create) steps w) (hv : LastAnswer (· = a.validate) steps v)
    (hback : a.RollsBack L w v id) : ∃ step ∈ steps, step.1.Deletes := by
  have hne := @validate_ne_create a
  have hne' := hne.symm
  cases h with
  | unsent => exact hw.elim
  | refused w h => simp [LastAnswer, hne'] at hv
  | created w h => simp [LastAnswer, hne'] at hv
  | validated w' v' h hkept =>
    obtain rfl : w' = w := by simpa [LastAnswer, hne] using hw
    obtain rfl : v' = v := by simpa [LastAnswer, hne'] using hv
    exact absurd hback (hkept id)
  | rolledBack w' v' x id' h =>
    exact ⟨_, List.mem_cons_of_mem _ (List.mem_cons_of_mem _ List.mem_cons_self), _, rfl⟩
  | lookedUp w' lookups _ h hlookups =>
    have hnone : ∀ step ∈ (a.create, w') :: lookups, step.1 ≠ a.validate :=
      List.forall_mem_cons.mpr ⟨hne', fun step hstep => (lookup_ne (hlookups step hstep)).2.1⟩
    exact absurd hv (lastAnswer_none hnone)
  | adopted w' v' lookups _ h hlookups =>
    have hnone : ∀ step ∈ lookups ++ [(a.validate, v')], step.1 ≠ a.create :=
      List.forall_mem_append.mpr
        ⟨fun step hstep => (lookup_ne (hlookups step hstep)).1, by simpa using hne⟩
    rcases hw with hw | ⟨-, -, rfl⟩
    · exact absurd hw (lastAnswer_none hnone)
    · obtain ⟨-, ⟨created, hcreated, -⟩, -⟩ := hback
      rw [Answer.accepted_of_refusedWith h] at hcreated
      cases hcreated

theorem pairwise_none {p : Operation → Prop} {l : List (Operation × Answer)}
    (h : ∀ step ∈ l, ¬ p step.1) : l.Pairwise fun s s' => ¬ (p s.1 ∧ p s'.1) :=
  List.pairwise_of_forall_mem_list fun s hs _ _ hboth => h s hs hboth.1

theorem Activation.Steps.pairwise_create (h : a.Steps L idempotent steps) :
    steps.Pairwise fun s s' => ¬ (s.1 = a.create ∧ s'.1 = a.create) := by
  rcases h.head with rfl | ⟨w, rest, rfl, hrest⟩
  · exact .nil
  · refine List.pairwise_cons.mpr ⟨fun step hstep hboth => hrest step hstep hboth.2, ?_⟩
    exact pairwise_none (p := (· = a.create)) hrest

theorem Activation.Steps.pairwise_deletes (h : a.Steps L idempotent steps) :
    steps.Pairwise fun s s' => ¬ (s.1.Deletes ∧ s'.1.Deletes) := by
  rcases h.deletes with hnone | ⟨w, v, x, id, -, rfl⟩
  · exact pairwise_none hnone
  · simp [create_not_deletes, validate_not_deletes]

end Rows

/-- **Rollback.** Whatever the server answers, a call creates at most once and deletes at most once; it
    deletes exactly when it is told to, its own creation gave a machine and its own validation found
    the licence over a limit; it deletes that machine; and it never deletes what it adopted. -/
theorem activation_deletes (P : Platform) (client : Option Client) (a : Activation)
    (slot idempotent : Bool) (answers : Stream' Answer) :
    let trace := ((a.run P client slot idempotent).run answers).1
    let creation := LastAnswer (fun attempt => a.create.Addressed client attempt.request) trace
    let validation := LastAnswer (fun attempt => a.validate.Addressed client attempt.request) trace
    (trace.Pairwise fun e e' =>
      ¬ (a.create.Addressed client e.1.request ∧ a.create.Addressed client e'.1.request)) ∧
    (trace.Pairwise fun e e' => ¬ (e.1.request.method = .delete ∧ e'.1.request.method = .delete)) ∧
    ((∃ e ∈ trace, e.1.request.method = .delete) ↔
      ∃ w v id, creation w ∧ validation v ∧ a.RollsBack P.toLibc w v id) ∧
    (∀ e ∈ trace, e.1.request.method = .delete → ∃ w v id, creation w ∧ validation v ∧
      a.RollsBack P.toLibc w v id ∧
      (Operation.deleteMachine (some id)).Addressed client e.1.request) ∧
    ∀ w, creation w → w.refusedWith P.toLibc = some .fingerprintTaken →
      ∀ e ∈ trace, e.1.request.method ≠ .delete := by
  intro trace creation validation
  obtain ⟨steps, hexchanges, hsteps⟩ :=
    activation_steps (Interact.runs_run (a.run P client slot idempotent) answers)
  have hcreate : ∀ step ∈ steps, ∀ r, step.1.Addressed client r →
      (a.create.Addressed client r ↔ step.1 = a.create) :=
    fun step hstep r => create_iff (hsteps.calls step hstep)
  have hvalidate : ∀ step ∈ steps, ∀ r, step.1.Addressed client r →
      (a.validate.Addressed client r ↔ step.1 = a.validate) :=
    fun step hstep r => validate_iff (hsteps.calls step hstep)
  have hdelete : ∀ step ∈ steps, ∀ r : HttpRequest, step.1.Addressed client r →
      (r.method = .delete ↔ step.1.Deletes) :=
    fun step hstep r => deletes_iff (hsteps.calls step hstep)
  have hcreation : ∀ {w}, creation w ↔ LastAnswer (· = a.create) steps w :=
    hexchanges.lastAnswer_iff hcreate
  have hvalidation : ∀ {v}, validation v ↔ LastAnswer (· = a.validate) steps v :=
    hexchanges.lastAnswer_iff hvalidate
  have hdeletes : (∃ e ∈ trace, e.1.request.method = .delete) ↔ ∃ step ∈ steps, step.1.Deletes :=
    hexchanges.exists_iff hdelete
  -- the one row with a deletion, seen from a request of the trace
  have hrow : ∀ e ∈ trace, e.1.request.method = .delete → ∃ w v id, creation w ∧ validation v ∧
      a.RollsBack P.toLibc w v id ∧
      (Operation.deleteMachine (some id)).Addressed client e.1.request := by
    intro e he hmethod
    obtain ⟨step, hstep, haddressed⟩ := hexchanges.mem he
    have hstepDeletes := (hdelete step hstep _ haddressed).mp hmethod
    rcases hsteps.deletes with hnone | ⟨w, v, x, id, hback, rfl⟩
    · exact absurd hstepDeletes (hnone step hstep)
    · refine ⟨w, v, id, hcreation.mpr ?_, hvalidation.mpr ?_, hback, ?_⟩
      · simp [LastAnswer, Activation.create, Activation.validate]
      · simp [LastAnswer, Activation.create, Activation.validate]
      · simp only [List.mem_cons, List.not_mem_nil, or_false] at hstep
        rcases hstep with rfl | rfl | rfl
        · exact absurd hstepDeletes create_not_deletes
        · exact absurd hstepDeletes validate_not_deletes
        · exact haddressed
  refine ⟨?_, ?_, ⟨?_, ?_⟩, hrow, ?_⟩
  · refine hexchanges.once (q := (· = a.create)) hcreate ?_ hsteps.pairwise_create
    rintro _ rfl
    rfl
  · refine hexchanges.once (p := fun r => r.method = .delete) hdelete ?_ hsteps.pairwise_deletes
    rintro _ ⟨id, rfl⟩
    rfl
  · rintro ⟨e, he, hmethod⟩
    obtain ⟨w, v, id, hw, hv, hback, -⟩ := hrow e he hmethod
    exact ⟨w, v, id, hw, hv, hback⟩
  · rintro ⟨w, v, id, hw, hv, hback⟩
    exact hdeletes.mpr (hsteps.rollsBack (hcreation.mp hw) (hvalidation.mp hv) hback)
  · intro w hw htaken e he hmethod
    obtain ⟨w', v, id, hw', -, ⟨-, ⟨created, hcreated, -⟩, -⟩, -⟩ := hrow e he hmethod
    rw [← lastAnswer_unique hw hw', Answer.accepted_of_refusedWith htaken] at hcreated
    cases hcreated

end Tamga
