import Tamga.Http.MachineBody
import Tamga.Json.Serde

/-!
# `Http.Refusal` — preparing a request when memory is refused

Two steps of the preparations report a refusal as something else. The usage actions blame the ids for a
path they could not allocate, and the JSON parser blames the caller's document for the terminator of an
object key (`CriticalText`). All others report it, and what follows a document fails for want of memory
only (`Call.Firm`).

## Contents
- `Operation.document`, `Operation.isUsage` — the document an endpoint comes to read, and whether it
  comes to build the path of a usage action.
- `Operation.build_strays` — what a refusal can make of the preparation.
- `Operation.misblamed_iff` — when that differs from what the preparation comes to without refusals.
-/

namespace Tamga

open Alloc Json

variable {P : Platform} {L : Libc}

theorem askObjects_sound (n : Nat) : (askObjects n).Sound (· = false) := by
  induction n with
  | zero => exact Sound.pure true
  | succ n ih =>
    refine Sound.bind (new_sound _) ?_ (Sound.bind ih ?_ (Sound.pure _))
    · rintro _ rfl b hb
      obtain ⟨others, -, hb⟩ := can_bind.1 hb
      exact (can_pure.1 hb).symm
    · rintro _ rfl b hb
      rw [← can_pure.1 hb, Bool.and_false]

/-- The codes of a call that is not sent. -/
def unsentCodes : List ErrorCode :=
  [.noTransport, .nullArgument, .outOfMemory, .invalidJson, .ttlInvalid]

/-- A call that reports what it is refused, and fails as one that is not sent does. -/
abbrev Call.Unsent {α : Type} (x : Call α) : Prop := Call.Reports (· ∈ unsentCodes) x

/-- A call that fails for want of memory only. -/
abbrev Call.Firm {α : Type} (x : Call α) : Prop := Call.Reports (· = .outOfMemory) x

theorem Call.Reports.unsent {α : Type} {x : Call α} (h : Call.Firm x) : Call.Unsent x :=
  h.mono fun c hc => hc ▸ by decide

theorem Call.Reports.codes {α : Type} {x : Call α} (h : Call.Unsent x) : Call.FailsWith unsentCodes x :=
  h.failsWith (fun _ hc => hc) (by decide)

section Parts

theorem require_firm {α : Type} {x : Alloc (Option α)} (hx : x.Sound (· = none)) :
    Call.Firm (require x) :=
  .orFail rfl hx

theorem requireBoth_firm {body path : Alloc (Option Bytes)} (hbody : body.Sound (· = none))
    (hpath : path.Sound (· = none)) : Call.Firm (requireBoth body path) := by
  refine .bind_both hbody hpath (fun _ => rfl) (fun body => ?_) fun body path => ?_
  · cases body <;> rfl
  · cases body with
    | none => exact .fail rfl
    | some body =>
      cases path with
      | none => exact .fail rfl
      | some path => exact .pure _

theorem freshObjects_firm (n : Nat) : Call.Firm (freshObjects n) := by
  refine .bind_lift (askObjects_sound n) ?_ ?_
  · rintro _ rfl
    exact ⟨errorSet .outOfMemory (ascii noRequest), rfl, rfl⟩
  · rw [askObjects_ok]
    exact .pure ()

theorem attach_firm (object : Json) (key : String) (child : Json) :
    Call.Firm (attach object key child) :=
  require_firm (objectSet_sound _ _ _)

theorem attachString_firm (object : Json) (key : String) (text : Bytes) :
    Call.Firm (attachString object key text) :=
  require_firm (setString_sound _ _ _)

theorem attachNew_firm (object : Json) (key : String) (value : Json) :
    Call.Firm (attachNew object key value) := by
  refine require_firm (Sound.bind_none (new_sound value) ?_ fun _ _ => objectSet_sound _ _ _)
  cases object <;> rfl

theorem writeBody_firm (root : Json) : Call.Firm (writeBody L root) :=
  require_firm (writeImpl_sound L false root)

theorem copyFields_firm (options attributes : Json) : Call.Firm (copyFields options attributes) := by
  refine .foldlM (fun attributes field _ => ?_) attributes
  split
  · exact .pure _
  · exact .bind (require_firm (clone_sound _)) fun copy _ => attach_firm _ _ _

theorem requireUuid_reports (value : Option Bytes) (what : String) :
    Call.Reports (· = .nullArgument) (requireUuid value what) := by
  unfold requireUuid
  split
  · exact .fail rfl
  · split
    · exact .fail rfl
    · exact .pure _

theorem requireCanonical_reports (value : Option Bytes) (what : String) :
    Call.Reports (· = .nullArgument) (requireCanonical value what) := by
  refine .bind (requireUuid_reports value what) fun id _ => ?_
  split
  · exact .throw rfl
  · exact .pure _

theorem requireUuid_unsent (value : Option Bytes) (what : String) :
    Call.Unsent (requireUuid value what) :=
  (requireUuid_reports value what).mono fun c hc => hc ▸ by decide

theorem requireCanonical_unsent (value : Option Bytes) (what : String) :
    Call.Unsent (requireCanonical value what) :=
  (requireCanonical_reports value what).mono fun c hc => hc ▸ by decide

theorem optionalCanonical_unsent (value : Option Bytes) (what : String) :
    Call.Unsent (optionalCanonical value what) := by
  cases value with
  | none => exact .pure none
  | some value => exact .bind (requireCanonical_unsent _ what) fun _ _ => .pure _

theorem require_unsent {α : Type} {x : Alloc (Option α)} (hx : x.Sound (· = none)) :
    Call.Unsent (require x) :=
  (require_firm hx).unsent

theorem written_sound {x : Alloc (Option Bytes)} {t : Bytes}
    (hx : ∃ w, Buf.Writes w t ∧ x = w Buf.init >>= Buf.detachString) : x.Sound (· = none) := by
  obtain ⟨w, hw, rfl⟩ := hx
  exact hw.detachString_sound Buf.init

end Parts

/-! ## The caller's documents -/

section Documents

variable {json : Option Bytes} {what : String} {α β : Type}

theorem not_critical_none : ¬ CriticalText none := fun ⟨_, _, h, _⟩ => nomatch h

theorem parseOptionalObject_strays (hL : ConsumesNumbers L) :
    Call.Strays True (parseOptionalObject L json what) (parseOptionalObject L json what)
      fun c => c = .invalidJson ∧ CriticalText json := by
  cases json with
  | none =>
    refine (AllocE.Strays.of_sound (.pure none)).congr fun c => ?_
    exact iff_of_false id fun h => not_critical_none h.2
  | some text =>
    refine ((parserStrays_memory hL).strays text _ _).before fun object _ => ?_
    split
    · exact .pure _
    · exact .throw _

theorem parseOptionalObject_failsWith {codes : List ErrorCode}
    (h : [.outOfMemory, .invalidJson] ⊆ codes) :
    Call.FailsWith codes (parseOptionalObject L json what) := by
  cases json with
  | none => exact .pure none
  | some json =>
    refine .bind (parseDocument_failsWith h) fun object => ?_
    split
    · exact .pure _
    · exact Call.FailsWith.fail (h (by decide))

/-- The string is there and is a UUID. -/
def isUuid (value : Option Bytes) : Bool := (value.bind uuidNormalize).isSome

theorem isUuid_eq_true {value : Option Bytes} :
    isUuid value = true ↔ ∃ id canonical, value = some id ∧ uuidNormalize id = some canonical := by
  unfold isUuid
  rw [Option.isSome_iff_exists]
  simp only [Option.bind_eq_some_iff]
  exact exists_comm

theorem requireUuid_ok_iff {value : Option Bytes} :
    (∃ id, (requireUuid value what).ok = .ok id) ↔ isUuid value = true := by
  rw [isUuid_eq_true]
  constructor
  · rintro ⟨id, h⟩
    obtain ⟨rfl, hid⟩ := requireUuid_ensures id (h ▸ AllocE.can_ok _)
    exact ⟨id, _, rfl, (Option.some_get hid).symm⟩
  · rintro ⟨id, canonical, rfl, hid⟩
    exact ⟨id, requireUuid_ok what hid⟩

theorem requireCanonical_ok_iff {value : Option Bytes} :
    (∃ id, (requireCanonical value what).ok = .ok id) ↔ isUuid value = true := by
  constructor
  · rintro ⟨id, h⟩
    obtain ⟨id, h, -⟩ := AllocE.ok_bind_eq_ok.1 h
    exact requireUuid_ok_iff.1 ⟨id, h⟩
  · intro h
    obtain ⟨id, canonical, rfl, hid⟩ := isUuid_eq_true.1 h
    exact ⟨canonical, requireCanonical_ok what hid⟩

/-- A preparation that looks at an id, reads a document and makes something of it. -/
inductive Documented (L : Libc) (id json : Option Bytes) : Call α → Prop where
  | intro {start : Call Bytes} {what : String} {rest : Bytes → Option Json → Call α}
      (hstart : Call.Reports (· = .nullArgument) start)
      (hready : (∃ b, start.ok = .ok b) ↔ isUuid id = true)
      (hrest : ∀ b object, Call.Firm (rest b object)) :
      Documented L id json (start >>= fun b => parseOptionalObject L json what >>= rest b)

/-- The document that is read if the id is in order. -/
def documentAfter (id json : Option Bytes) : Option Bytes := if isUuid id = true then json else none

variable {id : Option Bytes} {x : Call α}

theorem documented_uuid {which : String} {rest : Bytes → Option Json → Call α}
    (hrest : ∀ b object, Call.Firm (rest b object)) : Documented L id json
      (requireUuid id which >>= fun b => parseOptionalObject L json what >>= rest b) :=
  .intro (requireUuid_reports _ _) requireUuid_ok_iff hrest

theorem documented_canonical {which : String} {rest : Bytes → Option Json → Call α}
    (hrest : ∀ b object, Call.Firm (rest b object)) : Documented L id json
      (requireCanonical id which >>= fun b => parseOptionalObject L json what >>= rest b) :=
  .intro (requireCanonical_reports _ _) requireCanonical_ok_iff hrest

namespace Documented

theorem failsWith {codes : List ErrorCode} (h : Documented L id json x)
    (hid : isUuid id = true ∨ .nullArgument ∈ codes) (hcodes : [.outOfMemory, .invalidJson] ⊆ codes) :
    Call.FailsWith codes x := by
  obtain ⟨hstart, hready, hrest⟩ := h
  have hmemory : .outOfMemory ∈ codes := hcodes (by decide)
  refine .bind ?_ fun b => .bind (parseOptionalObject_failsWith hcodes) fun object =>
    (hrest b object).failsWith (fun c hc => hc ▸ hmemory) hmemory
  rcases hid with hid | hid
  · obtain ⟨b, hb⟩ := hready.2 hid
    intro f hf
    rcases hstart.sound _ hf with hagrees | ⟨f', hf', heq⟩
    · rw [hb] at hagrees
      exact hagrees.elim
    · rw [Except.error.inj heq, show f'.code = .outOfMemory from hf']
      exact hmemory
  · exact hstart.failsWith (fun c hc => hc ▸ hid) hmemory

theorem strays (hL : ConsumesNumbers L) (h : Documented L id json x) :
    Call.Strays True x x fun c => c = .invalidJson ∧ CriticalText (documentAfter id json) := by
  obtain ⟨hstart, hready, hrest⟩ := h
  refine (AllocE.Strays.after hstart.sound fun b _ =>
    (parseOptionalObject_strays hL).before fun o _ => (hrest b o).sound).congr fun c => ?_
  unfold documentAfter
  rw [exists_and_right, hready]
  split
  · rename_i hid
    simp only [hid, true_and]
  · rename_i hid
    exact iff_of_false (fun h => hid h.1) fun h => not_critical_none h.2

end Documented

end Documents

/-! ## The preparations -/

section Preparations

theorem preparePath_unsent (start : String) (id : Option Bytes) (what suffix : String)
    (request : Bytes → Prepared) : Call.Unsent (preparePath start id what suffix request) :=
  .bind (requireUuid_unsent id what) fun _ _ =>
    .bind (require_unsent (tamgaPath_sound _ _ _)) fun _ _ => .pure _

theorem prepareValidateByKey_unsent (otp : Option Bytes) (licenseKey : Bytes) :
    Call.Unsent (prepareValidateByKey L otp licenseKey) :=
  .bind (freshObjects_firm 1).unsent fun _ _ =>
    .bind (attachString_firm _ _ _).unsent fun _ _ =>
      .bind (writeBody_firm _).unsent fun _ _ => .pure _

theorem prepareValidateById_documented (licenseId scopeJson otp : Option Bytes)
    (skipTouch : Bool) : Documented L licenseId scopeJson
      (prepareValidateById L licenseId scopeJson skipTouch otp) := by
  refine documented_uuid fun id scope => ?_
  refine .bind (freshObjects_firm 2) fun _ _ => ?_
  refine .bind (attach_firm _ _ _) fun root _ => ?_
  refine .bind (attachNew_firm _ _ _) fun details _ => ?_
  have hboth : ∀ details, Call.Firm (requireBoth (write L (withMember root "meta" details))
      (tamgaPath "/licenses/" id "/actions/validate")) :=
    fun _ => requireBoth_firm (writeImpl_sound L false _) (tamgaPath_sound _ _ _)
  cases scope with
  | none => exact .bind (.pure _) fun _ _ => .bind (hboth _) fun _ _ => .pure _
  | some scope => exact .bind (attach_firm _ _ _) fun _ _ => .bind (hboth _) fun _ _ => .pure _

theorem checkoutBody_firm (encrypt : Bool) (ttlSeconds : Int64) :
    Call.Firm (checkoutBody L encrypt ttlSeconds) := by
  unfold checkoutBody
  refine .bind (freshObjects_firm 2) fun _ _ => ?_
  refine .bind (attach_firm _ _ _) fun root _ => ?_
  refine .bind (attachNew_firm _ _ _) fun details _ => ?_
  exact .bind (attachNew_firm _ _ _) fun details _ => writeBody_firm _

theorem prepareCheckout_unsent (start : String) (id : Option Bytes) (what : String) (encrypt : Bool)
    (ttlSeconds : Int64) (raw : Bool) :
    Call.Unsent (prepareCheckout L start id what encrypt ttlSeconds raw) := by
  unfold prepareCheckout
  refine .bind (requireUuid_unsent _ _) fun id _ => ?_
  split
  · exact .fail (by decide)
  refine .bind (require_unsent (tamgaPath_sound _ _ _)) fun path _ => ?_
  split
  · exact .bind (require_unsent (written_sound (checkoutQuery_writes _ _))) fun _ _ => .pure _
  · exact .bind (checkoutBody_firm _ _).unsent fun _ _ => .pure _

theorem prepareCreateMachine_documented (licenseId optionsJson : Option Bytes)
    (fingerprint : Bytes) : Documented L licenseId optionsJson
      (prepareCreateMachine L licenseId optionsJson fingerprint) := by
  refine documented_canonical fun canonical options => ?_
  refine .bind (freshObjects_firm 6) fun _ _ => ?_
  refine .bind (attach_firm _ _ _) fun root _ => ?_
  refine .bind (attachString_firm _ _ _) fun data _ => ?_
  refine .bind (attach_firm _ _ _) fun data _ => ?_
  refine .bind (attach_firm _ _ _) fun data _ => ?_
  refine .bind (attach_firm _ _ _) fun relationships _ => ?_
  refine .bind (attach_firm _ _ _) fun license _ => ?_
  refine .bind (attachString_firm _ _ _) fun attributes _ => ?_
  have hrest : ∀ data : Json → Json, Call.Firm (do
      let licenseData ← attachString emptyObject "type" (ascii "licenses")
      let licenseData ← attachString licenseData "id" canonical
      let text ← writeBody L (data licenseData)
      return postRequest (ascii "/machines") (some text) none) := fun data =>
    .bind (attachString_firm _ _ _) fun _ _ =>
      .bind (attachString_firm _ _ _) fun _ _ => .bind (writeBody_firm _) fun _ _ => .pure _
  cases options with
  | none => exact .bind (.pure _) fun attributes _ => hrest fun licenseData => _
  | some options => exact .bind (copyFields_firm _ _) fun attributes _ => hrest fun licenseData => _

theorem prepareUpdateMachine_documented (machineId : Option Bytes)
    (attributesJson : Bytes) : Documented L machineId (some attributesJson)
      (prepareUpdateMachine L machineId attributesJson) := by
  refine documented_uuid fun id given => ?_
  refine .bind (freshObjects_firm 3) fun _ _ => ?_
  refine .bind (attach_firm _ _ _) fun root _ => ?_
  refine .bind (attachString_firm _ _ _) fun data _ => ?_
  refine .bind (attach_firm _ _ _) fun data _ => ?_
  have hboth : ∀ attributes, Call.Firm (requireBoth
      (write L (withMember root "data" (withMember data "attributes" attributes)))
      (tamgaPath "/machines/" id "")) :=
    fun _ => requireBoth_firm (writeImpl_sound L false _) (tamgaPath_sound _ _ _)
  cases given with
  | none => exact .bind (.pure _) fun _ _ => .bind (hboth _) fun _ _ => .pure _
  | some given => exact .bind (copyFields_firm _ _) fun _ _ => .bind (hboth _) fun _ _ => .pure _

theorem prepareListMachines_unsent (licenseId search : Option Bytes) (pageNumber pageSize : UInt32) :
    Call.Unsent (prepareListMachines licenseId search pageNumber pageSize) := by
  refine .bind (optionalCanonical_unsent _ _) fun canonical _ => ?_
  refine .bind (require_unsent ?_) fun _ _ => .pure _
  exact ((((Query.ends_finish.addOptional _ _).addOptional _ _).addNumber _ _).addNumber _ _).sound _

theorem prepareGenerateOfflineProof_documented (machineId datasetJson : Option Bytes) :
    Documented L machineId datasetJson
      (prepareGenerateOfflineProof L machineId datasetJson) := by
  refine documented_uuid fun id dataset => ?_
  refine .bind (freshObjects_firm _) fun _ _ => ?_
  refine .bind (attach_firm _ _ _) fun root _ => ?_
  refine .bind (attach_firm _ _ _) fun details _ => ?_
  exact .bind (requireBoth_firm (writeImpl_sound L false _) (tamgaPath_sound _ _ _)) fun _ _ => .pure _

theorem prepareCreate_documented (path : String)
    (machineId metadataJson : Option Bytes) (fields : List (String × Bytes)) :
    Documented L machineId metadataJson
      (prepareCreate L path machineId metadataJson fields) := by
  refine documented_canonical fun canonical metadata => ?_
  refine .bind (freshObjects_firm _) fun _ _ => ?_
  refine .bind (attachString_firm _ _ _) fun root _ => ?_
  refine .bind (.foldlM (fun root field _ => attachString_firm _ _ _) root) fun root _ => ?_
  refine .bind (attach_firm _ _ _) fun root _ => ?_
  exact .bind (writeBody_firm _) fun _ _ => .pure _

theorem prepareList_unsent (start : String) (id : Option Bytes) (what suffix : String) (limit : UInt32)
    (after : Option Bytes) : Call.Unsent (prepareList start id what suffix limit after) := by
  refine .bind (requireUuid_unsent _ _) fun id _ => ?_
  refine .bind (optionalCanonical_unsent _ _) fun after _ => ?_
  refine .bind (require_unsent (written_sound (listQuery_writes _ _))) fun query _ => ?_
  exact .bind (require_unsent (tamgaPath_sound _ _ _)) fun _ _ => .pure _

theorem prepareGetEntitlement_unsent (licenseId entitlementId : Option Bytes) :
    Call.Unsent (prepareGetEntitlement licenseId entitlementId) := by
  refine .bind (requireCanonical_unsent _ _) fun license _ => ?_
  refine .bind (requireCanonical_unsent _ _) fun entitlement _ => ?_
  exact .bind (require_unsent (joined_sound _)) fun _ _ => .pure _

theorem prepareCheckUpgrade_unsent (productId channel constraint : Option Bytes)
    (platform filetype version : Bytes) :
    Call.Unsent (prepareCheckUpgrade productId channel constraint platform filetype version) := by
  refine .bind (requireCanonical_unsent _ _) fun product _ => ?_
  refine .bind (require_unsent ?_) fun _ _ => .pure _
  exact ((((((Query.ends_finish.addOptional _ _).addOptional _ _).add _ _).add _ _).add _ _).add
    _ _).sound _

theorem prepareDownloadUrl_unsent (artifactId : Option Bytes) (ttlSeconds : UInt32) :
    Call.Unsent (prepareDownloadUrl artifactId ttlSeconds) := by
  unfold prepareDownloadUrl
  refine .bind (requireUuid_unsent _ _) fun id _ => ?_
  split
  · exact .fail (by decide)
  refine .bind (require_unsent (tamgaPath_sound _ _ _)) fun path _ => ?_
  exact .bind (require_unsent (written_sound (downloadQuery_writes _))) fun _ _ => .pure _

end Preparations

/-! ## The usage actions -/

section Usage

variable {licenseId entitlementId : Option Bytes} {license entitlement : Bytes} {action : String}
  {amount : UInt32}

theorem joined_refused {first : Bytes} {rest : List Bytes}
    (h : (Buf.init.appendStr first).Can True Buf.init.markFailed) :
    (joined (first :: rest)).Can True none := by
  unfold joined
  rw [List.foldlM_cons, bind_assoc]
  refine can_bind.2 ⟨_, h, ?_⟩
  -- the buffer has failed, and stays so
  have hnone : ∀ r, (rest.foldlM Buf.appendStr Buf.init.markFailed >>= Buf.detachString).Can True r →
      r = none := by
    intro r hr
    obtain ⟨buf, hbuf, hr⟩ := can_bind.1 hr
    exact Buf.detachString_failed ((Buf.Writes.pieces rest).failed rfl hbuf) hr
  have hsome := (rest.foldlM Buf.appendStr Buf.init.markFailed >>= Buf.detachString).can_ok (F := True)
  rwa [hnone _ hsome] at hsome

/-- The pieces of a usage action's path. -/
theorem entitlementActionPath_eq {l e : Bytes} (hlicense : uuidNormalize license = some l)
    (hentitlement : uuidNormalize entitlement = some e) :
    entitlementActionPath license entitlement action =
      joined [ascii "/licenses/", l, ascii "/entitlements/", e, ascii "/actions/", ascii action] := by
  unfold entitlementActionPath
  rw [hlicense, hentitlement]

theorem nulFree_uuidFormat (uuid : Bytes) : NulFree (uuidFormat uuid) :=
  fun hzero => absurd (isCanonical_of_mem_uuidFormat 0 hzero) (by decide)

theorem entitlementActionPath_ok {l e : Bytes} (hlicense : uuidNormalize license = some l)
    (hentitlement : uuidNormalize entitlement = some e) (haction : ShortKey action) :
    (entitlementActionPath license entitlement action).ok ≠ none := by
  obtain ⟨uuid, hlen, -, rfl⟩ := uuidNormalize_eq_some.1 hlicense
  obtain ⟨uuid', hlen', -, rfl⟩ := uuidNormalize_eq_some.1 hentitlement
  rw [entitlementActionPath_eq hlicense hentitlement, joined_ok.2 ⟨rfl, ?_, ?_⟩]
  · exact nofun
  · simp only [List.flatten_cons, List.flatten_nil, nulFree_append]
    exact ⟨by decide, nulFree_uuidFormat _, by decide, nulFree_uuidFormat _, by decide, haction.2,
      by decide⟩
  · have hbig : maxReasonableLen + 200 < Buf.maxGrowth := by decide
    have hshort : (ascii "/licenses/").length + (ascii "/entitlements/").length +
        (ascii "/actions/").length < 100 := by decide
    have hlength := haction.1
    simp only [List.flatten_cons, List.flatten_nil, List.length_append, List.length_nil,
      length_uuidFormat hlen, length_uuidFormat hlen']
    omega

theorem usageBody_firm : Call.Firm (usageBody L action amount) := by
  unfold usageBody
  split
  · exact .pure none
  exact .bind (freshObjects_firm 1) fun _ _ => .bind (attachNew_firm _ _ _) fun _ _ =>
    .bind (writeBody_firm _) fun _ _ => .pure _

/-- A usage action whose ids are in order blames them for a path that is refused. -/
theorem prepareUsage_strays (haction : ShortKey action) :
    Call.Strays True (prepareUsage L licenseId entitlementId action amount)
      (prepareUsage L licenseId entitlementId action amount)
      fun c => c = .nullArgument ∧ isUuid licenseId = true ∧ isUuid entitlementId = true := by
  refine (AllocE.Strays.after (requireUuid_reports _ _).sound fun license hlicense =>
    AllocE.Strays.after (requireUuid_reports _ _).sound fun entitlement hentitlement => ?_).congr
      (P := fun c => ∃ license, (requireUuid licenseId "license_id").ok = .ok license ∧
        ∃ entitlement, (requireUuid entitlementId "entitlement_id").ok = .ok entitlement ∧
          c = .nullArgument) fun c => ?_
  · obtain ⟨rfl, hl⟩ := requireUuid_ensures license (hlicense ▸ AllocE.can_ok _)
    obtain ⟨rfl, he⟩ := requireUuid_ensures entitlement (hentitlement ▸ AllocE.can_ok _)
    obtain ⟨l, hl⟩ := Option.isSome_iff_exists.mp hl
    obtain ⟨e, he⟩ := Option.isSome_iff_exists.mp he
    refine (Call.Strays.orFail ?_ ?_ (entitlementActionPath_ok hl he haction)).before fun path _ =>
      .bind usageBody_firm.sound fun _ _ => .pure _
    · rw [entitlementActionPath_eq hl he]
      exact joined_sound _
    · rw [entitlementActionPath_eq hl he]
      exact joined_refused (can_bind.2 ⟨Buf.init.markFailed, can_bind.2 ⟨false,
        can_request.2 (Or.inr ⟨trivial, rfl⟩), can_pure.2 rfl⟩, can_pure.2 rfl⟩)
  · rw [← requireUuid_ok_iff, ← requireUuid_ok_iff]
    exact ⟨fun ⟨l, hl, e, he, hc⟩ => ⟨hc, ⟨l, hl⟩, e, he⟩, fun ⟨hc, ⟨l, hl⟩, e, he⟩ => ⟨l, hl, e, he, hc⟩⟩

theorem prepareUsage_failsWith : Call.FailsWith unsentCodes
    (prepareUsage L licenseId entitlementId action amount) :=
  .bind (requireUuid_unsent _ _).codes fun _ => .bind (requireUuid_unsent _ _).codes fun _ =>
    .bind (Call.FailsWith.orFail (by decide)) fun _ => .bind usageBody_firm.unsent.codes fun _ => .pure _

end Usage

/-! ## Every endpoint -/

namespace Operation

/-- The document the endpoint comes to read: the other arguments are there, and the id is one. -/
def document : Operation → Option Bytes
  | validateById licenseId scopeJson _ _ => documentAfter licenseId scopeJson
  | createMachine licenseId fingerprint optionsJson =>
      fingerprint.bind fun _ => documentAfter licenseId optionsJson
  | updateMachine machineId attributesJson => documentAfter machineId attributesJson
  | generateOfflineProof machineId datasetJson => documentAfter machineId datasetJson
  | createComponent machineId fingerprint name metadataJson =>
      fingerprint.bind fun _ => name.bind fun _ => documentAfter machineId metadataJson
  | createProcess machineId pid metadataJson => pid.bind fun _ => documentAfter machineId metadataJson
  | _ => none

/-- A usage action that comes to build its path: both ids are in order. -/
def isUsage : Operation → Bool
  | incrementEntitlementUsage licenseId entitlementId _
  | decrementEntitlementUsage licenseId entitlementId _
  | resetEntitlementUsage licenseId entitlementId => isUuid licenseId && isUuid entitlementId
  | _ => false

variable {op : Operation} {prepare : Call Prepared}

/-- How a request is prepared. -/
inductive Shape (L : Libc) (op : Operation) : Call Prepared → Prop where
  | plain {prepare : Call Prepared} : op.document = none → op.isUsage = false → Call.Unsent prepare →
      Shape L op prepare
  | documented {prepare : Call Prepared} {id json : Option Bytes} :
      op.document = documentAfter id json → op.isUsage = false → Documented L id json prepare →
        Shape L op prepare
  | usage {licenseId entitlementId : Option Bytes} {action : String} {amount : UInt32} :
      op.document = none → op.isUsage = (isUuid licenseId && isUuid entitlementId) →
        ShortKey action → (quoted (cstr (ascii action))).length < 100 →
          Shape L op (prepareUsage L licenseId entitlementId action amount)

theorem prepare_shape (h : op.prepare L = some prepare) : op.Shape L prepare := by
  cases op with
  | validateByKey licenseKey otp =>
    obtain ⟨key, rfl, rfl⟩ := Option.map_eq_some_iff.mp h
    exact .plain rfl rfl (prepareValidateByKey_unsent _ _)
  | createMachine licenseId fingerprint optionsJson =>
    obtain ⟨fingerprint, rfl, rfl⟩ := Option.map_eq_some_iff.mp h
    exact .documented rfl rfl (prepareCreateMachine_documented _ _ _)
  | updateMachine machineId attributesJson =>
    obtain ⟨attributes, rfl, rfl⟩ := Option.map_eq_some_iff.mp h
    exact .documented rfl rfl (prepareUpdateMachine_documented _ _)
  | createProcess machineId pid metadataJson =>
    obtain ⟨pid, rfl, rfl⟩ := Option.map_eq_some_iff.mp h
    exact .documented rfl rfl (prepareCreate_documented _ _ _ _)
  | createComponent machineId fingerprint name metadataJson =>
    simp only [Operation.prepare] at h
    split at h
    · cases h; exact .documented rfl rfl (prepareCreate_documented _ _ _ _)
    · cases h
  | checkUpgrade productId platform filetype version channel constraint =>
    simp only [Operation.prepare] at h
    split at h
    · cases h; exact .plain rfl rfl (prepareCheckUpgrade_unsent _ _ _ _ _ _)
    · cases h
  | validateById => cases h; exact .documented rfl rfl (prepareValidateById_documented _ _ _ _)
  | generateOfflineProof => cases h; exact .documented rfl rfl (prepareGenerateOfflineProof_documented _ _)
  | incrementEntitlementUsage | decrementEntitlementUsage | resetEntitlementUsage =>
    cases h; exact .usage rfl rfl (by decide) (by decide)
  | checkOutLicense | checkOutMachine | checkOutLicenseJson | checkOutMachineJson =>
    cases h; exact .plain rfl rfl (prepareCheckout_unsent _ _ _ _ _ _)
  | quickValidate | checkIn | pingHeartbeat | resetHeartbeat | pingProcess | getLicense
  | getLicensePolicy | getPolicy | getMachine | getArtifact | deleteMachine | deleteProcess =>
    cases h; exact .plain rfl rfl (preparePath_unsent _ _ _ _ _)
  | listMachines => cases h; exact .plain rfl rfl (prepareListMachines_unsent _ _ _ _)
  | listComponents | listMachineProcesses | listEntitlements | listReleaseArtifacts =>
    cases h; exact .plain rfl rfl (prepareList_unsent _ _ _ _ _ _)
  | getEntitlement => cases h; exact .plain rfl rfl (prepareGetEntitlement_unsent _ _)
  | getArtifactDownloadUrl => cases h; exact .plain rfl rfl (prepareDownloadUrl_unsent _ _)
  | listSigningKeys => cases h; exact .plain rfl rfl (.pure _)
  | health => cases h; exact .plain rfl rfl (.pure _)

/-- What a refusal can make of the preparation beside reporting it. -/
def Blames (op : Operation) (code : ErrorCode) : Prop :=
  code = .nullArgument ∧ op.isUsage = true ∨ code = .invalidJson ∧ CriticalText op.document

namespace Shape

theorem failsWith (h : op.Shape L prepare) : Call.FailsWith unsentCodes prepare := by
  cases h with
  | plain _ _ hplain => exact hplain.codes
  | documented _ _ hdocumented => exact hdocumented.failsWith (Or.inr (by decide)) (by decide)
  | usage => exact prepareUsage_failsWith

theorem strays (hL : ConsumesNumbers L) (h : op.Shape L prepare) :
    Call.Strays True prepare prepare op.Blames := by
  unfold Blames
  cases h with
  | plain hdocument husage hplain =>
    refine (AllocE.Strays.of_sound hplain.sound).congr fun c => ?_
    simp [hdocument, husage, not_critical_none]
  | documented hdocument husage hdocumented =>
    refine (hdocumented.strays hL).congr fun c => ?_
    simp [hdocument, husage]
  | usage hdocument husage haction _ =>
    refine (prepareUsage_strays haction).congr fun c => ?_
    simp [hdocument, husage, not_critical_none]

end Shape

/-- A call that comes to its document or to its path was given what it needs. -/
theorem prepare_of_blames {code : ErrorCode} (h : op.Blames code) :
    ∃ prepare, op.prepare L = some prepare := by
  cases op with
  | createMachine licenseId fingerprint optionsJson =>
    cases fingerprint with
    | none => exact absurd h (by simp [Blames, document, isUsage, not_critical_none])
    | some fingerprint => exact ⟨_, rfl⟩
  | updateMachine machineId attributesJson =>
    cases attributesJson with
    | none => exact absurd h (by simp [Blames, document, documentAfter, isUsage, not_critical_none])
    | some attributes => exact ⟨_, rfl⟩
  | createProcess machineId pid metadataJson =>
    cases pid with
    | none => exact absurd h (by simp [Blames, document, isUsage, not_critical_none])
    | some pid => exact ⟨_, rfl⟩
  | createComponent machineId fingerprint name metadataJson =>
    cases fingerprint with
    | none => exact absurd h (by simp [Blames, document, isUsage, not_critical_none])
    | some fingerprint =>
      cases name with
      | none => exact absurd h (by simp [Blames, document, isUsage, not_critical_none])
      | some name => exact ⟨_, rfl⟩
  | validateByKey => exact absurd h (by simp [Blames, document, isUsage, not_critical_none])
  | checkUpgrade => exact absurd h (by simp [Blames, document, isUsage, not_critical_none])
  | _ => exact ⟨_, rfl⟩

variable {client : Option Client} {slot : Bool}

/-- **Before it is sent** a call fails with one of a few codes. -/
theorem build_failsWith : Call.FailsWith unsentCodes (op.build L client slot) := by
  unfold build
  split
  · rename_i prepare hprepare
    refine .bind (prepare_shape hprepare).failsWith fun p => .bind ?_ fun r => .pure _
    refine (clientRequest_reports _ p).failsWith (fun c hc => ?_) (by decide)
    rcases hc with rfl | ⟨rfl, -⟩ | ⟨rfl, -⟩ <;> decide
  · exact .fail (by decide)

/-- **What a refusal can make of the preparation.** -/
theorem build_strays (hL : ConsumesNumbers L) :
    Call.Strays True (op.build L client slot) (op.build L client slot)
      fun code => client.isSome = true ∧ slot = true ∧ op.Blames code := by
  unfold build
  split
  · rename_i c prepare hprepare
    refine ((prepare_shape hprepare).strays hL |>.before fun p _ =>
      .bind (clientRequest_reports _ p).sound fun r _ => .pure _).congr fun code => ?_
    simp
  · rename_i hneither
    refine (AllocE.Strays.of_sound (.throw _)).congr fun code => iff_of_false id ?_
    rintro ⟨hclient, rfl, hblames⟩
    obtain ⟨c, rfl⟩ := Option.isSome_iff_exists.mp hclient
    obtain ⟨prepare, hprepare⟩ := prepare_of_blames (L := L) hblames
    exact hneither c prepare rfl rfl hprepare

/-- **The request.** Whatever is refused, what is built is what is built without refusals. -/
theorem build_firm (hL : ConsumesNumbers L) {built : Client × Prepared × HttpRequest} {F : Prop}
    (h : (op.build L client slot).Can F (.ok built)) : (op.build L client slot).ok = .ok built :=
  (build_strays hL).ok_eq (h.mono fun _ => trivial)

end Operation

/-- The canonical form of a UUID, for examples. -/
def sampleId : Bytes := uuidFormat (List.replicate 15 0 ++ [0xAB])

/-- A client with credentials, for examples. -/
def sampleClient : Client := (newClient none (ascii "acme") (ascii "h")).ready

end Tamga
