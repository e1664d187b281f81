import Tamga.Http.Lookup
import Tamga.Http.Refusal

/-!
# `Http.Adoption` — activations compared

Three comparisons of calls of `Http.Activation` with each other.

* The idempotent activation does what the plain one does unless the creation is refused with
  `FINGERPRINT_TAKEN`; then it succeeds only on evidence that the licence already has the machine
  (`activation_conservative`).
* A call without a response slot is the call with one, except where it adopts: the slot is handed on to
  the validation, which insists on it (`activation_slot`).
* The arguments of the creation are checked before anything is sent. The scope belongs to the validation
  and is checked after the machine was created (`activation_arguments`).
-/

namespace Tamga

open Alloc Json Interact

variable {P : Platform} {L : Libc} {client : Option Client} {a : Activation} {slot : Bool}

/-! ## Plain and idempotent -/

/-- A page of the lookup that asks for the machines of one licence only. -/
def AsksForLicense (client : Option Client) (a : Activation) (r : HttpRequest) : Prop :=
  ∃ c canonical tail pairs, client = some c ∧ a.licenseId.bind uuidNormalize = some canonical ∧
    r.method = .get ∧ r.url = c.baseUrl ++ ascii "/machines" ++ tail ∧ ReadsBack tail pairs ∧
    (ascii "filter[license]", canonical) ∈ pairs ∧
    ∀ pair ∈ pairs, pair.1 = ascii "filter[license]" → pair.2 = canonical

theorem mem_given {name : String} {value : Option Bytes} {pair : Bytes × Bytes}
    (h : pair ∈ given name value) : pair.1 = ascii name ∧ value = some pair.2 := by
  obtain ⟨v, hv, rfl⟩ := Option.map_eq_some_iff.mp (Option.mem_toList.mp h)
  exact ⟨rfl, hv⟩

theorem mem_givenNumber {name : String} {number : Nat} {pair : Bytes × Bytes}
    (h : pair ∈ givenNumber name number) : pair.1 = ascii name := by
  unfold givenNumber at h
  split at h
  · cases h
  · rw [List.mem_singleton.mp h]

theorem lookup_asksForLicense {op : Operation} {r : HttpRequest} {id : Bytes}
    (hid : a.licenseId = some id) (hop : LookupPage a.licenseId a.fingerprint op)
    (h : op.Addressed client r) : AsksForLicense client a r := by
  have hmethod := lookup_method hop h
  obtain ⟨page, -, rfl⟩ := hop
  obtain ⟨c, route, rfl, hroute, -, hurl⟩ := h
  obtain ⟨license, hlicense, hroute⟩ := Option.bind_eq_some_iff.mp hroute
  injection hroute with hroute
  rw [hid] at hlicense
  obtain ⟨canonical, hcanonical, rfl⟩ := Option.map_eq_some_iff.mp hlicense
  subst hroute
  refine ⟨c, canonical, _, _, rfl, by rw [hid]; exact hcanonical, hmethod, hurl,
    readsBack_queryText _, ?_, ?_⟩
  · simp [given]
  · intro pair hpair hname
    simp only [List.mem_append] at hpair
    rcases hpair with (((hpair | hpair) | hpair) | hpair) | hpair
    · rw [mem_givenNumber hpair] at hname; exact absurd hname (by decide)
    · rw [mem_givenNumber hpair] at hname; exact absurd hname (by decide)
    · injection (mem_given hpair).2 with hvalue
      exact hvalue.symm
    · rw [(mem_given hpair).1] at hname; exact absurd hname (by decide)
    · rw [(mem_given hpair).1] at hname; exact absurd hname (by decide)

variable {trace : List (Attempt × Answer)}

theorem Exchanges.answer_mem {steps : List (Operation × Answer)}
    (h : Exchanges client steps trace) {step : Operation × Answer} (hstep : step ∈ steps) :
    ∃ attempt, (attempt, step.2) ∈ trace := by
  induction h with
  | nil => cases hstep
  | cons head tail ih =>
    rcases List.mem_cons.mp hstep with rfl | hstep
    · obtain ⟨before, attempt, htrace⟩ := head.final
      exact ⟨attempt, by simp [htrace]⟩
    · obtain ⟨attempt, hmem⟩ := ih hstep
      exact ⟨attempt, List.mem_append_right _ hmem⟩

variable {built : Client × Prepared × HttpRequest}

/-- A creation that was built has the arguments it needs. -/
theorem create_built {F : Prop} (h : (a.create.build L client slot).Can F (.ok built)) :
    (∃ canonical, a.licenseId.bind uuidNormalize = some canonical) ∧
      (∃ fingerprint, a.fingerprint = some fingerprint) ∧
      ∃ options, (parseOptionalObject L a.optionsJson "options_json").Can F (.ok options) := by
  obtain ⟨c, p, r⟩ := built
  obtain ⟨-, -, prepare, hprepare, hp, -⟩ := Operation.build_can_ok.1 h
  obtain ⟨fingerprint, hfingerprint, rfl⟩ := Option.map_eq_some_iff.mp hprepare
  unfold prepareCreateMachine at hp
  obtain ⟨canonical, hcanonical, hp⟩ := AllocE.can_bind_ok.1 hp
  obtain ⟨options, hoptions, -⟩ := AllocE.can_bind_ok.1 hp
  exact ⟨⟨canonical, requireCanonical_ensures.of_can hcanonical⟩, ⟨fingerprint, hfingerprint⟩,
    options, hoptions⟩

variable {answers : Stream' Answer}

/-- The idempotent call after a creation that was not refused with `FINGERPRINT_TAKEN`. -/
theorem activateMachineIdempotent_eq
    (h : ∀ refusal, ((a.create.run P client true).run answers).2 = .error refusal →
      refusal.failure.code ≠ .fingerprintTaken) :
    (activateMachineIdempotent P client a slot).run answers =
      (activateMachine P client a slot).run answers := by
  unfold activateMachineIdempotent activateMachine
  rw [run_bind, run_bind]
  cases hcreation : ((a.create.run P client true).run answers).2 with
  | ok created => rfl
  | error refusal =>
    simp only
    rw [if_pos (h refusal hcreation)]

/-- **Adoption.** A call whose creation was refused with `FINGERPRINT_TAKEN` and that succeeds sent the
    creation, pages of the lookup, and a validation that was answered 2xx. -/
theorem adoption_runs {reply : Reply}
    {refusal : Refusal} (h : (activateMachineIdempotent P client a true).Runs False answers trace reply)
    (hcreation : ((a.create.run P client true).run answers).2 = .error refusal)
    (htaken : refusal.failure.code = .fingerprintTaken) (hreply : reply.failure = none) :
    ∃ w lookup last lookups v, trace = ((a.create.run P client true).run answers).1 ++ lookup ++ last ∧
      Exchange client a.create ((a.create.run P client true).run answers).1 w ∧
      Exchanges client lookups lookup ∧
      (∀ step ∈ lookups, LookupPage a.licenseId a.fingerprint step.1) ∧
      Justified P.toLibc a w lookups ∧ Exchange client a.validate last v ∧
      v.accepted P.toLibc ≠ none := by
  obtain ⟨first, rest, outcome, rfl, hcreate, h⟩ := runs_bind.1 h
  have hrun := runs_false.1 hcreate
  rw [hrun] at hcreation ⊢
  dsimp only at hcreation ⊢
  subst hcreation
  rcases Operation.runs_cases hcreate with ⟨failure, hfailed, -, hout⟩ | ⟨-, w, -, hexchange, hout⟩
  · injection hout with hout
    rw [hout] at htaken
    exact absurd htaken (create_not_taken (AllocE.can_false.2 hfailed))
  have hjson : refusal.response.bind Response.json = w.json P.toLibc := by
    cases hw : w.accepted P.toLibc with
    | some response => rw [conclude_accepted hw] at hout; cases hout
    | none =>
      obtain ⟨refusal', hconclude, -, hjson⟩ := conclude_refused hw
      rw [hconclude] at hout
      injection hout with hout
      exact hout ▸ hjson
  dsimp only at h
  rw [if_neg (not_not.mpr htaken)] at h
  obtain ⟨second, third, adopted, rfl, hadopt, h⟩ := runs_bind.1 h
  obtain ⟨lookups, hlookups, hpages, hjustified⟩ := adoptedMachine_steps hjson hadopt
  cases adopted with
  | error failure =>
    obtain ⟨-, rfl⟩ := runs_pure.1 h
    cases hreply
  | ok machineId =>
    obtain ⟨fourth, fifth, outcome, rfl, hvalidate, h⟩ := runs_bind.1 h
    obtain ⟨rfl, rfl⟩ := runs_pure.1 h
    rcases Operation.runs_cases hvalidate with ⟨failure, -, rfl, rfl⟩ | ⟨-, v, -, hvalidated, rfl⟩
    · cases hreply
    · refine ⟨w, second, fourth, lookups, v, by simp, hexchange, hlookups, hpages,
        hjustified machineId rfl, hvalidated, fun hv => ?_⟩
      obtain ⟨refusal', hconclude, -, -⟩ := conclude_refused hv
      rw [hconclude] at hreply
      cases hreply

/-- **Conservative extension.** Unless the creation ends in `FINGERPRINT_TAKEN`, the idempotent call
    sends, returns and leaves what the plain one does. If it does, the call succeeds only if the refusal
    named a machine or a lookup that asked for this licence listed the fingerprint, and the validation
    that followed was answered 2xx. -/
theorem activation_conservative (P : Platform) (client : Option Client) (a : Activation)
    (answers : Stream' Answer) :
    let creation := (a.create.run P client true).run answers
    let result := (a.run P client true true).run answers
    ((∀ refusal, creation.2 = .error refusal → refusal.failure.code ≠ .fingerprintTaken) →
      result = (a.run P client true false).run answers) ∧
    ∀ refusal, creation.2 = .error refusal → refusal.failure.code = .fingerprintTaken →
      result.2.failure = none → ∃ lookup last, result.1 = creation.1 ++ lookup ++ last ∧
        ((∃ w id, LastAnswer (fun attempt => a.create.Addressed client attempt.request) creation.1 w ∧
            jsonString (jsonMember (jsonMember (firstError (w.json P.toLibc)) "meta") "machineId") =
              some id) ∨
          ∃ fingerprint, a.fingerprint = some fingerprint ∧
            ∃ entry ∈ lookup, Lists P.toLibc fingerprint entry.2) ∧
        (∀ entry ∈ lookup, AsksForLicense client a entry.1.request) ∧
        ∃ v, LastAnswer (fun attempt => a.validate.Addressed client attempt.request) last v ∧
          v.accepted P.toLibc ≠ none := by
  intro creation result
  refine ⟨activateMachineIdempotent_eq, fun refusal hcreation htaken hreply => ?_⟩
  obtain ⟨w, lookup, last, lookups, v, htrace, hcreated, hlookups, hpages, hjustified, hvalidated, hv⟩ :=
    adoption_runs (Interact.runs_run _ answers) hcreation htaken hreply
  have hfinal : ∀ {op : Operation} {trace : List (Attempt × Answer)} {answer : Answer},
      Exchange client op trace answer →
        LastAnswer (fun attempt => op.Addressed client attempt.request) trace answer := by
    intro op trace answer h
    refine ((Exchanges.single h).lastAnswer_iff (q := (· = op)) ?_).mpr ?_
    · intro step hstep r haddressed
      obtain rfl := List.mem_singleton.mp hstep
      exact ⟨fun _ => rfl, fun _ => haddressed⟩
    · exact Or.inr ⟨by simp, rfl, rfl⟩
  refine ⟨lookup, last, htrace, ?_, fun entry hentry => ?_, v, hfinal hvalidated, hv⟩
  · rcases hjustified with ⟨id, hid⟩ | ⟨fingerprint, hfingerprint, step, hstep, hlists⟩
    · exact Or.inl ⟨w, id, hfinal hcreated, hid⟩
    · obtain ⟨attempt, hmem⟩ := hlookups.answer_mem hstep
      exact Or.inr ⟨fingerprint, hfingerprint, _, hmem, hlists⟩
  · obtain ⟨step, hstep, haddressed⟩ := hlookups.mem hentry
    have hlicense : ∃ id, a.licenseId = some id := by
      obtain ⟨before, attempt, hlast⟩ := hvalidated.final
      obtain ⟨c, canonical, -, hcanonical, -⟩ :=
        validate_addressed.1 (hvalidated.addressed (attempt, v) (by simp [hlast]))
      obtain ⟨id, hid, -⟩ := Option.bind_eq_some_iff.mp hcanonical
      exact ⟨id, hid⟩
    obtain ⟨id, hid⟩ := hlicense
    exact lookup_asksForLicense hid (hpages step hstep) haddressed

/-! ## With and without a response slot -/

/-- A reply to a caller whose slot may not be there. -/
def Reply.kept (slot : Bool) (reply : Reply) : Reply :=
  if slot then reply else { reply with response := none }

/-- An activation, for examples. -/
def sampleActivation : Activation :=
  ⟨some sampleId, some (ascii "f"), none, none, false⟩

/-- The failures of the checks of the arguments. -/
def Activation.Rejects (L : Libc) (a : Activation) (failure : Failure) : Prop :=
  (requireUuid a.licenseId "license_id").ok = .error failure ∨
    (a.fingerprint = none ∧ failure = errorSet .nullArgument (ascii a.create.message)) ∨
    (parseOptionalObject L a.optionsJson "options_json").ok = .error failure ∨
    (parseOptionalObject L a.scopeJson "scope_json").ok = .error failure

/-- A text that is absent or a JSON object. -/
def IsOptionalObject (L : Libc) (json : Option Bytes) : Prop :=
  ∀ text ∈ json, ∃ members, (parse L (some text)).ok = .ok (.obj members)

theorem parseOptionalObject_ok_iff {json : Option Bytes} (what : String) :
    (∃ object, (parseOptionalObject L json what).ok = .ok object) ↔ IsOptionalObject L json := by
  cases json with
  | none => exact iff_of_true ⟨none, rfl⟩ nofun
  | some text =>
    simp only [IsOptionalObject, Option.mem_def, Option.some.injEq, forall_eq']
    unfold parseOptionalObject
    constructor
    · rintro ⟨object, h⟩
      obtain ⟨v, hv, h⟩ := AllocE.ok_bind_eq_ok.1 h
      cases v with
      | obj members =>
        rw [parseDocument_ok] at hv
        match hparse : (parse L (some text)).ok, hv with
        | .ok _, rfl => exact ⟨members, rfl⟩
      | _ => cases h
    · rintro ⟨members, h⟩
      refine ⟨some (.obj members), ?_⟩
      have hdocument : (parseDocument L text ("could not parse " ++ what)
          (what ++ " is not valid JSON: ")).ok = .ok (.obj members) := by
        rw [parseDocument_ok, h]
      rw [AllocE.ok_bind_of_ok hdocument]
      rfl

/-- Whoever sent something had the creation built. -/
theorem activation_sent {idempotent : Bool} {reply : Reply}
    (h : (a.run P client slot idempotent).Runs True answers trace reply) (hsent : trace ≠ []) :
    ∃ built, (a.create.build P.toLibc client true).Can True (.ok built) := by
  cases idempotent with
  | false =>
    obtain ⟨first, rest, outcome, rfl, hcreate, h⟩ := runs_bind.1 h
    rcases Operation.runs_iff.1 hcreate with ⟨_, -, rfl, rfl⟩ | ⟨c, p, r, hbuilt, -, -⟩
    · obtain ⟨rfl, -⟩ := runs_pure.1 h
      exact absurd rfl hsent
    · exact ⟨_, hbuilt⟩
  | true =>
    obtain ⟨first, rest, outcome, rfl, hcreate, h⟩ := runs_bind.1 h
    rcases Operation.runs_iff.1 hcreate with ⟨failure, hfailed, rfl, rfl⟩ | ⟨c, p, r, hbuilt, -, -⟩
    · replace h : Interact.Runs True (if failure.code ≠ .fingerprintTaken then
        pure (activateCreateFailed ⟨failure, none⟩ slot) else _) _ rest reply := h
      rw [if_pos (create_not_taken hfailed)] at h
      obtain ⟨rfl, -⟩ := runs_pure.1 h
      exact absurd rfl hsent
    · exact ⟨_, hbuilt⟩

/-- With a creation that is built and a scope that is an object there is nothing to refuse. -/
theorem not_rejects (hL : ConsumesNumbers L)
    (hbuilt : (a.create.build L client slot).Can True (.ok built))
    (hscope : IsOptionalObject L a.scopeJson) (failure : Failure) : ¬ a.Rejects L failure := by
  obtain ⟨⟨canonical, hcanonical⟩, ⟨fingerprint, hfingerprint⟩, options, hoptions⟩ := create_built hbuilt
  obtain ⟨id, hid, hcanonical⟩ := Option.bind_eq_some_iff.mp hcanonical
  have hoptions' : (parseOptionalObject L a.optionsJson "options_json").ok = .ok options :=
    (parseOptionalObject_strays hL).ok_eq hoptions
  obtain ⟨scope, hscope⟩ := (parseOptionalObject_ok_iff "scope_json").mpr hscope
  rintro (h | ⟨h, -⟩ | h | h)
  · simp [requireUuid, hid, hcanonical] at h
  · rw [hfingerprint] at h; cases h
  · rw [hoptions'] at h; cases h
  · rw [hscope] at h; cases h

/-- The validation of a scope that is no object fails with the failure of that check. -/
theorem validate_rejects {failure : Failure}
    (hbuilt : (a.create.build L client true).ok = .ok built)
    (hscope : (parseOptionalObject L a.scopeJson "scope_json").ok = .error failure) :
    (a.validate.build L client true).ok = .error failure := by
  have hcan := AllocE.can_false.2 hbuilt
  obtain ⟨⟨canonical, hcanonical⟩, -, -⟩ := create_built hcan
  obtain ⟨id, hid, hcanonical⟩ := Option.bind_eq_some_iff.mp hcanonical
  obtain ⟨c, p, r⟩ := built
  obtain ⟨rfl, -⟩ := Operation.build_can_ok.1 hcan
  have hlicense : (requireUuid a.licenseId "license_id").ok = .ok id := by
    simp [requireUuid, hid, hcanonical]
  have hprepare : (prepareValidateById L a.licenseId a.scopeJson false none).ok = .error failure := by
    unfold prepareValidateById
    rw [AllocE.ok_bind_of_ok hlicense, AllocE.ok_bind_of_error hscope]
  show AllocE.ok (prepareValidateById L a.licenseId a.scopeJson false none >>= fun p =>
    clientRequest c p >>= fun r => pure (c, p, r)) = _
  rw [AllocE.ok_bind_of_error hprepare]

/-- A creation that is answered 201, and then a validation that is not built. -/
theorem activation_scope_late {failure : Failure}
    (slot idempotent : Bool) (hbuilt : (a.create.build P.toLibc client true).ok = .ok built)
    (hscope : (parseOptionalObject P.toLibc a.scopeJson "scope_json").ok = .error failure) :
    ((a.run P client slot idempotent).run (Stream'.const (.answered ⟨201, none, []⟩))).1 ≠ [] ∧
      ((a.run P client slot idempotent).run (Stream'.const (.answered ⟨201, none, []⟩))).2.failure =
        some failure := by
  obtain ⟨c, p, r⟩ := built
  have hcreate := Operation.run_of_build hbuilt (Stream'.const (.answered ⟨201, none, []⟩))
  obtain ⟨k, hk⟩ := settled_get (requestIsRetryable p.method p.path) c.maxRetries
    (Stream'.const (.answered ⟨201, none, []⟩))
  obtain ⟨rest, hrest⟩ := attempts_eq_cons P r (requestIsRetryable p.method p.path) c.maxRetries 0 none
    (Stream'.const (.answered ⟨201, none, []⟩))
  have hcreated : (conclude P.toLibc (.answered ⟨201, none, []⟩)).ok =
      .ok ⟨201, none, none, [], none⟩ := conclude_accepted rfl
  rw [hk, show (Stream'.const (Answer.answered ⟨201, none, []⟩)).get k = .answered ⟨201, none, []⟩ from
    rfl, hcreated, hrest] at hcreate
  have hvalidate : ∀ answers, (a.validate.run P client true).run answers = ([], refused failure) :=
    Operation.run_of_failure (validate_rejects hbuilt hscope)
  have hafter : ∀ created answers, (activateAfterCreate P client a created slot).run answers =
      ([], replyOf slot (refused failure)) := by
    intro created answers
    unfold activateAfterCreate
    rw [run_bind, hvalidate]
    rfl
  cases idempotent with
  | false =>
    show ((activateMachine P client a slot).run _).1 ≠ [] ∧
      ((activateMachine P client a slot).run _).2.failure = _
    unfold activateMachine
    rw [run_bind, hcreate]
    simp only [hafter]
    exact ⟨nofun, rfl⟩
  | true =>
    show ((activateMachineIdempotent P client a slot).run _).1 ≠ [] ∧
      ((activateMachineIdempotent P client a slot).run _).2.failure = _
    unfold activateMachineIdempotent
    rw [run_bind, hcreate]
    simp only [hafter]
    exact ⟨nofun, rfl⟩

/-- **Arguments.** A call that fails for an argument it can refuse itself has sent nothing: exactly when
    the scope is absent or an object, or the creation cannot be built in the first place. -/
theorem activation_arguments (hL : ConsumesNumbers P.toLibc) (client : Option Client) (a : Activation)
    (slot idempotent : Bool) :
    (∀ σ answers failure,
      ((a.run P client slot idempotent).under σ answers).2.failure = some failure →
        a.Rejects P.toLibc failure → ((a.run P client slot idempotent).under σ answers).1 = []) ↔
    (IsOptionalObject P.toLibc a.scopeJson ∨
      ∃ failure, (a.create.build P.toLibc client true).ok = .error failure) := by
  constructor
  · intro h
    cases hbuild : (a.create.build P.toLibc client true).ok with
    | error failure => exact Or.inr ⟨failure, rfl⟩
    | ok built =>
        left
        cases hscope : (parseOptionalObject P.toLibc a.scopeJson "scope_json").ok with
        | ok scope => exact (parseOptionalObject_ok_iff _).mp ⟨scope, hscope⟩
        | error failure =>
            obtain ⟨hsent, hreply⟩ := activation_scope_late slot idempotent hbuild hscope
            rw [← Interact.under_all_true] at hsent hreply
            exact absurd (h _ _ failure hreply (Or.inr (Or.inr (Or.inr hscope)))) hsent
  · intro h σ answers failure hreply hrejects
    by_contra hsent
    obtain ⟨built, hbuilt⟩ := activation_sent (Interact.runs_under _ σ answers) hsent
    rcases h with hscope | ⟨failure', hfailed⟩
    · exact not_rejects hL hbuilt hscope failure hrejects
    · rw [Operation.build_firm hL hbuilt] at hfailed
      cases hfailed

/-- An activation for a licence id that is no UUID: it fails for that, and nothing was sent. -/
theorem activation_arguments_badId :
    let a := { sampleActivation with licenseId := some (ascii "x") }
    let answers : Stream' Answer := Stream'.const (.answered ⟨201, none, []⟩)
    let result := (a.run ⟨exactLibc, 0⟩ (some sampleClient) true true).under (fun _ => true) answers
    ∃ failure, result.2.failure = some failure ∧ a.Rejects exactLibc failure ∧ result.1 = [] := by
  intro a answers result
  have hid : (requireUuid a.licenseId "license_id").ok =
      .error (errorSet .nullArgument (ascii "license_id must be a UUID")) := by
    decide +kernel
  have hreply : result.2.failure =
      some (errorSet .nullArgument (ascii "license_id must be a UUID")) := by
    decide +kernel
  have hrejects : a.Rejects exactLibc _ := Or.inl hid
  exact ⟨_, hreply, hrejects, (activation_arguments (P := ⟨exactLibc, 0⟩)
    (consumesNumbers exactLibc_correct) (some sampleClient) a true true).mpr (Or.inl nofun) _ _ _
    hreply hrejects⟩

/-- The scope `[]`: the machine is created, and then the call fails for the scope. -/
theorem activation_arguments_late :
    let a := { sampleActivation with scopeJson := some (ascii "[]") }
    let answers : Stream' Answer := Stream'.const (.answered ⟨201, none, []⟩)
    ((a.run ⟨exactLibc, 0⟩ (some sampleClient) true false).under (fun _ => true) answers).1.map
        (fun entry => (entry.1.request.method, entry.1.request.url)) =
      [(.post, ascii "https://h/v1/accounts/acme/machines")] ∧
    ((a.run ⟨exactLibc, 0⟩ (some sampleClient) true false).under (fun _ => true) answers).2.code =
      some .invalidJson := by
  decide +kernel

end Tamga
