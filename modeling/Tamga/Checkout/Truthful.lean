import Tamga.Checkout.Stray
import Tamga.Json.Locale
import Tamga.Json.Serde
import Tamga.Proof
import Tamga.Util.Fingerprint

/-!
# `Checkout.Truthful` — what the offline code blames on memory

`Checkout.Memory` asks what becomes of a verdict when requests are refused; this module asks the
opposite: when none is refused, can the code still report "out of memory"? It can, in one reachable
way. The body of an envelope is collected in a buffer and detached as a C string, a NUL byte in it makes
the detach return nothing, and nothing is read as a failed allocation. All other ways are sizes beyond
`size_t`.
-/

namespace Tamga

open Alloc Base64 Json

variable {C : Crypto} {L : Libc}

/-- What follows a part without a fault of its own is truthful when that part is. -/
theorem truthful_bind_iff {α β : Type} {x : Call α} {f : α → Call β}
    (hf : ∀ a, x.ok = .ok a → Call.Truthful (f a)) : Call.Truthful (x >>= f) ↔ Call.Truthful x :=
  ⟨fun h e he => h e (AllocE.ok_bind_of_error he), fun h => h.bind hf⟩

/-! ## Decoding and parsing -/

theorem decodeBase64_truthful (input : Bytes) (noMemory malformed : String) :
    Call.Truthful (decodeBase64 input noMemory malformed) := by
  refine .bind_lift ?_
  have h := base64DecodeAllocWhy_ne_outOfMemory input
  unfold AllocE.ok at h
  generalize (ExceptT.run (base64DecodeAllocWhy input)).ok = decoded at h ⊢
  cases decoded with
  | ok bytes => exact .pure bytes
  | error e =>
    cases e with
    | outOfMemory => exact absurd rfl h
    | malformed => exact .fail (by decide)

theorem parseDocument_truthful (text : Bytes) (noMemory malformed : String) :
    Call.Truthful (parseDocument L text noMemory malformed) := by
  intro f hf
  rw [parseDocument_ok] at hf
  match h : (parse L (some text)).ok with
  | .ok document => rw [h] at hf; cases hf
  | .error .outOfMemory => exact (parse_blames (F := False) (AllocE.can_false.2 h)).elim
  | .error (.malformed message) =>
    rw [h] at hf
    obtain rfl := Except.error.inj hf
    exact fun hcode => nomatch hcode

/-! ## Opening a file -/

section Open

variable {m : Markers} {pem : Bytes}

/-- The envelope is there, and what stands between its markers has a NUL in it. -/
def NulInBody (m : Markers) (pem : Bytes) : Prop :=
  pem.length ≤ maxReasonableLen ∧ ∃ body, Envelope m pem body ∧ ¬ NulFree body

/-- The detach function says nothing but "none", and that is taken for a refused request. -/
theorem pemExtract_truthful_iff : Call.Truthful (pemExtract m pem) ↔ ¬ NulInBody m pem := by
  by_cases h : pem.length ≤ maxReasonableLen ∧ ∃ body, Envelope m pem body
  · obtain ⟨hlen, body, henv⟩ := h
    obtain ⟨inner, hinner, rfl, heq⟩ := pemExtract_of_envelope hlen henv
    have hbody := pemBody_ok hinner
    have hbad : NulInBody m pem ↔ ¬ NulFree (inner.filter fun c => !pemIsSpace c) := by
      refine ⟨?_, fun hnul => ⟨hlen, _, henv, hnul⟩⟩
      rintro ⟨-, body', henv', hnul⟩
      rwa [henv.unique henv']
    rw [heq, hbad, not_not]
    by_cases hnul : NulFree (inner.filter fun c => !pemIsSpace c)
    · rw [if_pos hnul] at hbody
      exact iff_of_true (.orFail hbody) hnul
    · rw [if_neg hnul] at hbody
      refine iff_of_false (fun h => h (errorSet .outOfMemory
        (ascii "could not allocate the certificate body")) ?_ rfl) hnul
      unfold Call.orFail
      rw [AllocE.ok_bind_of_ok (AllocE.ok_lift _), hbody]
      rfl
  · obtain ⟨f, hf, heq⟩ := pemExtract_of_not_envelope h
    rw [heq]
    exact iff_of_true (.throw hf) fun hbad => h ⟨hbad.1, hbad.2.imp fun _ hb => hb.1⟩

theorem certParse_truthful (body : Bytes) : Call.Truthful (certParse L body) := by
  refine (decodeBase64_truthful _ _ _).bind fun document _ => ?_
  refine (parseDocument_truthful _ _ _).bind fun root _ => ?_
  split
  · exact .pure _
  · exact .fail (by decide)

theorem openCert_truthful_iff : Call.Truthful (openCert L m pem) ↔ ¬ NulInBody m pem :=
  (truthful_bind_iff fun body _ => certParse_truthful body).trans pemExtract_truthful_iff

end Open

/-! ## Payloads -/

section Payload

variable {texts : FileTexts} {keys : Option KeySet} {decode : Call Bytes} {nowUnix : Int64}

theorem readPayload_truthful (hdecode : Call.Truthful decode) :
    Call.Truthful (readPayload L texts decode) :=
  hdecode.bind fun _ _ => parseDocument_truthful _ _ _

theorem finish_truthful {payload : Json} (hpayload : payload.Every Storable) :
    Call.Truthful (finish texts (some payload) nowUnix) := by
  unfold finish
  split
  · rename_i f hf
    exact .throw fun hcode => nomatch (claimsRead_code hf).symm.trans hcode
  split
  · exact .fail (by decide)
  split
  · rename_i members hdata
    rw [Option.bind_some] at hdata
    have hstored := hpayload.objectGet hdata
    refine .bind (.orFail (a := .obj members) ?_) fun _ _ =>
      .pure _
    rcases clone_can (F := False) hstored _ (can_ok _) with h | ⟨h, -⟩
    · exact h
    · exact h.elim
  · exact .fail (by decide)

theorem labelCode_ne_outOfMemory (set : KeySet) (kid : Option Bytes) :
    labelCode set kid ≠ .outOfMemory := by
  unfold labelCode
  split
  · decide
  · decide
  · split_ifs <;> decide

theorem verifyPayload_truthful {verified : Bool} (hdecode : Call.Truthful decode) :
    Call.Truthful (verifyPayload L texts keys verified decode nowUnix) := by
  by_cases h : verified = false ∧ keys.isNone = true
  · unfold verifyPayload
    rw [if_pos h]
    exact .fail (by decide)
  rw [verifyPayload_eq h]
  refine (Call.Truthful.of_ok (Call.ok_attempt _)).bind fun probe hprobe => ?_
  rw [Call.ok_attempt] at hprobe
  obtain rfl := Except.ok.inj hprobe
  cases hread : (readPayload L texts decode).ok with
  | error f =>
    rw [afterProbe_error]
    have hf := readPayload_truthful hdecode f hread
    refine .throw ?_
    unfold gateFailure
    split
    · exact hf
    · exact fun hcode => nomatch hcode
  | ok payload =>
    unfold afterProbe payloadGate
    cases verified with
    | true => exact finish_truthful (readPayload_storable hread)
    | false =>
      obtain ⟨set, rfl⟩ : ∃ set, keys = some set := by
        cases keys with
        | none => exact absurd ⟨rfl, rfl⟩ h
        | some set => exact ⟨set, rfl⟩
      obtain ⟨f, hf, hcode⟩ := keySetLabelFailure_payload set payload
      rw [if_neg (by decide), hf]
      exact .throw fun h => labelCode_ne_outOfMemory set _ (hcode.symm.trans h)

end Payload

/-! ## Files -/

section Files

open VerifyCall

variable {call : VerifyCall} {pem : Bytes} {nowUnix : Int64}

theorem openFile_truthful_iff (h : call.Admits) :
    Call.Truthful (call.openFile L pem) ↔ ¬ NulInBody call.markers pem := by
  have hmachine : ∀ scheme, (machineAlgSuffix scheme).isSome = true →
      (Call.Truthful (machineOpen L pem scheme) ↔ ¬ NulInBody machineMarkers pem) := by
    intro scheme hscheme
    obtain ⟨suffix, hsuffix⟩ := Option.isSome_iff_exists.mp hscheme
    unfold machineOpen
    rw [hsuffix]
    exact (truthful_bind_iff fun cert _ => machineSettleAlg_reports.truthful nofun).trans
      openCert_truthful_iff
  cases call with
  | license | licenseKeySet =>
    exact (truthful_bind_iff fun cert _ => licenseSettleAlg_reports.truthful nofun).trans
      openCert_truthful_iff
  | machine scheme => exact hmachine scheme h.2
  | machineKeySet scheme => exact hmachine scheme (by rw [show scheme = schemeEd25519Sign from h]; rfl)

/-- **Files and memory.** Without refused requests memory is blamed only for a NUL in the body of a
    file that is looked at. -/
theorem run_truthful_iff (hL : ConsumesNumbers L) :
    Call.Truthful (call.run C L pem nowUnix) ↔ ¬ (call.Admits ∧ NulInBody call.markers pem) := by
  by_cases hadmits : call.Admits
  swap
  · obtain ⟨f, hcode, hf⟩ := run_refused (C := C) hadmits
    rw [hf]
    refine iff_of_true (.throw fun hmemory => ?_) fun h => hadmits h.1
    rw [show f.code = .outOfMemory from hmemory] at hcode
    exact absurd hcode (by decide)
  rw [run_eq hadmits, truthful_bind_iff, openFile_truthful_iff hadmits]
  · simp only [hadmits, true_and]
  · rintro ⟨cert, encrypted⟩ hopen
    obtain ⟨-, hcert, -⟩ := (openFile_eq_ok hL).mp hopen
    refine ((decodeSignature_reports hcert.length_le.2.1).truthful (by decide)).bind fun signature _ =>
      verifyPayload_truthful ((decodePayload_reports hcert.length_le.1).truthful ?_)
    rintro (h | h)
    · exact absurd h (by decide)
    · exact nomatch h

variable (C)

theorem licenseFileVerifyAt_truthful_iff (hL : ConsumesNumbers L) (pem : Option Bytes)
    (key : Option PublicKey) (licenseKey : Option Bytes) (nowUnix : Int64) :
    Call.Truthful (licenseFileVerifyAt C L pem key licenseKey nowUnix) ↔
      ¬ (key.isSome = true ∧ ∃ p ∈ pem, NulInBody licenseMarkers p) := by
  cases key with
  | none => exact iff_of_true (.fail (by decide)) nofun
  | some key =>
    cases pem with
    | none => exact iff_of_true (.fail (by decide)) nofun
    | some pem =>
      show Call.Truthful (VerifyCall.run C L pem nowUnix (.license key licenseKey)) ↔ _
      rw [run_truthful_iff hL]
      simp [Admits, markers]

theorem licenseFileVerifyAtWithKeySet_truthful_iff (hL : ConsumesNumbers L) (pem : Option Bytes)
    (keys : Option KeySet) (licenseKey : Option Bytes) (nowUnix : Int64) :
    Call.Truthful (licenseFileVerifyAtWithKeySet C L pem keys licenseKey nowUnix) ↔
      ¬ (keys.isSome = true ∧ ∃ p ∈ pem, NulInBody licenseMarkers p) := by
  cases keys with
  | none => exact iff_of_true (.fail (by decide)) nofun
  | some keys =>
    cases pem with
    | none => exact iff_of_true (.fail (by decide)) nofun
    | some pem =>
      show Call.Truthful (VerifyCall.run C L pem nowUnix (.licenseKeySet keys licenseKey)) ↔ _
      rw [run_truthful_iff hL]
      simp [Admits, markers]

/-- The file is looked at once the key is of admissible length and the scheme is known. -/
theorem machineFileVerifyAt_truthful_iff (hL : ConsumesNumbers L) (pem : Option Bytes) (scheme : UInt32)
    (pubkey licenseKey fingerprint : Option Bytes) (nowUnix : Int64) :
    Call.Truthful (machineFileVerifyAt C L pem scheme pubkey licenseKey fingerprint nowUnix) ↔
      ¬ ((∃ k ∈ pubkey, 0 < k.length ∧ k.length ≤ maxReasonableLen) ∧
        (machineAlgSuffix scheme).isSome = true ∧ ∃ p ∈ pem, NulInBody machineMarkers p) := by
  cases pubkey with
  | none => exact iff_of_true (.fail (by decide)) nofun
  | some key =>
    cases pem with
    | none => exact iff_of_true (.fail (by decide)) nofun
    | some pem =>
      show Call.Truthful (VerifyCall.run C L pem nowUnix (.machine scheme key licenseKey fingerprint)) ↔ _
      rw [run_truthful_iff hL]
      simp [Admits, markers, and_assoc]

theorem machineFileVerifyAtWithKeySet_truthful_iff (hL : ConsumesNumbers L) (pem : Option Bytes)
    (scheme : UInt32) (keys : Option KeySet) (licenseKey fingerprint : Option Bytes) (nowUnix : Int64) :
    Call.Truthful
        (machineFileVerifyAtWithKeySet C L pem scheme keys licenseKey fingerprint nowUnix) ↔
      ¬ (keys.isSome = true ∧ scheme = schemeEd25519Sign ∧
        ∃ p ∈ pem, NulInBody machineMarkers p) := by
  cases keys with
  | none => exact iff_of_true (.fail (by decide)) nofun
  | some keys =>
    cases pem with
    | none =>
      refine iff_of_true ?_ nofun
      unfold machineFileVerifyAtWithKeySet
      dsimp only
      split
      · cases machineAlgSuffix scheme <;> exact .fail (by decide)
      · exact .fail (by decide)
    | some pem =>
      show Call.Truthful
        (VerifyCall.run C L pem nowUnix (.machineKeySet scheme keys licenseKey fingerprint)) ↔ _
      rw [run_truthful_iff hL]
      simp [Admits, markers]

end Files

/-! ## Key sets -/

section KeySets

variable {set : KeySet}

/-- The table can take `additional` more entries without its size passing `size_t`. -/
def KeySet.HasRoom (set : KeySet) (additional : Nat) : Prop :=
  set.entries.length + additional ≤ sizeMax ∧
    (set.entries.length + additional ≤ set.capacity ∨
      (keySetCapacity set.capacity (set.entries.length + additional)).isSome = true)

theorem keySetReserve_truthful_iff {additional : Nat} (hadditional : additional ≤ sizeMax) :
    Call.Truthful (keySetReserve set additional) ↔ set.HasRoom additional := by
  unfold keySetReserve KeySet.HasRoom
  cases hadd : checkedAdd set.entries.length additional with
  | none =>
    have := checkedAdd_eq_none hadd
    exact iff_of_false (fun h => h (errorSet .outOfMemory
      (ascii "the key set is too large to grow")) rfl rfl) fun h => by omega
  | some needed =>
    have hle : set.entries.length + additional ≤ sizeMax := by
      unfold checkedAdd at hadd
      split at hadd
      · cases hadd
      · omega
    obtain rfl := checkedAdd_eq_some hadd
    dsimp only
    by_cases hfit : set.entries.length + additional ≤ set.capacity
    · rw [if_pos hfit]
      exact iff_of_true (.pure _) ⟨hle, Or.inl hfit⟩
    rw [if_neg hfit]
    cases hcap : keySetCapacity set.capacity (set.entries.length + additional) with
    | none =>
      refine iff_of_false (fun h => h (errorSet .outOfMemory
        (ascii "the key set is too large to grow")) rfl rfl) ?_
      rintro ⟨-, h | h⟩
      · exact hfit h
      · cases h
    | some capacity =>
      refine iff_of_true (.bind_lift ?_) ⟨hle, Or.inr rfl⟩
      rw [if_pos (show malloc.ok = true from rfl)]
      exact .pure _

/-- The loop is the buffer's. -/
theorem keySetDouble_eq (needed : Nat) : ∀ fuel capacity,
    keySetDouble needed fuel capacity = Buf.doubleUntil needed fuel capacity := by
  intro fuel
  induction fuel with
  | zero => intro capacity; rfl
  | succ fuel ih =>
    intro capacity
    unfold keySetDouble Buf.doubleUntil
    cases checkedMul capacity 2 with
    | none => rfl
    | some doubled =>
      dsimp only
      rw [ih doubled]

theorem doubleUntil_le_double {needed r : Nat} : ∀ {fuel newCap : Nat},
    Buf.doubleUntil needed fuel newCap = some r → r ≤ max newCap (2 * needed) := by
  intro fuel
  induction fuel with
  | zero => intro newCap h; cases h
  | succ fuel ih =>
    intro newCap h
    unfold Buf.doubleUntil at h
    split at h
    · split at h
      · cases h
      · rename_i hlt doubled hd
        have := ih h
        have := checkedMul_eq_some hd
        omega
    · have := Option.some.inj h
      omega

/-- While a document is staged, the table stays small. -/
def KeySet.Small (set : KeySet) : Prop := set.capacity ≤ 2 ^ 26

theorem keySetCapacity_small {capacity needed : Nat} (hcap : capacity ≤ 2 ^ 26)
    (hneeded : needed ≤ 2 ^ 25) :
    ∃ grown, keySetCapacity capacity needed = some grown ∧ grown ≤ 2 ^ 26 := by
  unfold keySetCapacity
  rw [keySetDouble_eq]
  generalize hstart : (if capacity = 0 then keySetInitialCapacity else capacity) = start
  have hpos : 0 < start ∧ start ≤ 2 ^ 26 := by
    rw [← hstart]
    unfold keySetInitialCapacity
    split <;> omega
  obtain ⟨r, hr⟩ := @Buf.doubleUntil_isSome needed
    (by unfold Buf.maxGrowth; omega) 65 start (by decide)
    (by
      have : 1 * 2 ^ 64 ≤ start * 2 ^ 64 := Nat.mul_le_mul_right _ hpos.1
      show needed ≤ start * 2 ^ 64
      omega)
  have hle := doubleUntil_le_double hr
  have hsmall : r ≤ 2 ^ 26 := by omega
  refine ⟨r, ?_, hsmall⟩
  rw [hr]
  dsimp only
  rw [checkedMul_of_le (by unfold keySetEntrySize sizeMax; omega)]
  rfl

theorem keySetReserve_small (hset : set.Small) {additional : Nat}
    (hlen : set.entries.length + additional ≤ 2 ^ 25) :
    ∃ capacity ≤ 2 ^ 26, (keySetReserve set additional).ok = .ok { set with capacity } := by
  unfold keySetReserve
  rw [checkedAdd_of_le (by unfold sizeMax; omega)]
  dsimp only
  by_cases hfit : set.entries.length + additional ≤ set.capacity
  · rw [if_pos hfit]
    exact ⟨set.capacity, hset, rfl⟩
  · obtain ⟨grown, hgrown, hle⟩ := keySetCapacity_small hset hlen
    rw [if_neg hfit, hgrown]
    refine ⟨grown, hle, ?_⟩
    dsimp only
    rw [AllocE.ok_bind_of_ok (AllocE.ok_lift malloc)]
    rfl

theorem keySetAppend_small (hset : set.Small) (hlen : set.entries.length + 1 ≤ 2 ^ 25)
    {keyId : Bytes} (hid : keyId.length ≤ maxReasonableLen) (hnul : NulFree keyId)
    (key : PublicKey) :
    ∃ set', (keySetAppend set keyId key).ok = (set', .ok ()) ∧ set'.Small ∧
      set'.entries.length = set.entries.length + 1 := by
  obtain ⟨capacity, hcap, hok⟩ := keySetReserve_small hset hlen
  refine ⟨⟨set.entries ++ [⟨keyId, key⟩], capacity⟩, ?_, hcap, by simp⟩
  unfold keySetAppend
  rw [Alloc.ok_bind, show (keySetReserve set 1).run.ok = .ok { set with capacity } from hok]
  dsimp only
  rw [Alloc.ok_bind, strdup_ok hid hnul]
  rfl

/-- **One row.** Staging it asks for no more than can be given, and adds one entry at most. -/
theorem keySetStageResource_truthful {staging : Staging} (hset : staging.set.Small)
    (hlen : staging.set.entries.length + 1 ≤ 2 ^ 25) {resource : Json}
    (hres : resource.Every Storable) :
    ∃ staging', (keySetStageResource C staging resource).ok = .ok staging' ∧
      staging'.set.Small ∧ staging'.set.entries.length ≤ staging.set.entries.length + 1 := by
  have hskip : ∀ {x : Call Staging}, x.ok = .ok staging.skip → ∃ staging', x.ok = .ok staging' ∧
      staging'.set.Small ∧ staging'.set.entries.length ≤ staging.set.entries.length + 1 :=
    fun h => ⟨_, h, hset, Nat.le_succ _⟩
  unfold keySetStageResource
  rcases signingKeyFields_cases resource with
    ⟨hfields, -⟩ | ⟨servedId, algorithm, text, hfields, hid, -, htext⟩
  · rw [hfields]
    exact hskip rfl
  rw [hfields]
  dsimp only
  split
  · exact hskip rfl
  obtain ⟨attributes, hattr, htext⟩ := Option.bind_eq_some_iff.mp htext
  have htextlen : text.length ≤ maxReasonableLen :=
    ((hres.objectGet hattr).objectGet (stringField_eq_some.1 htext)).self
  have hidlen : (cstr servedId).length ≤ maxReasonableLen :=
    (length_cstr_le servedId).trans (hres.objectGet (stringField_eq_some.1 hid)).self
  have hdecode : (signingKeyDecode text).ok =
      signingKeyOf ((base64Decode text).elim (.error .malformed) .ok) := by
    unfold signingKeyDecode
    rw [Alloc.ok_map]
    exact congrArg signingKeyOf (base64DecodeAllocWhy_ok htextlen)
  have hmemory : signingKeyOf ((base64Decode text).elim (.error .malformed) .ok) ≠
      .error .outOfMemory := by
    cases base64Decode text with
    | none => exact nofun
    | some bytes =>
      show (if h : bytes.length = 32 then _ else _) ≠ _
      split <;> exact nofun
  rw [AllocE.ok_bind_of_ok (AllocE.ok_lift _), hdecode]
  cases hkey : signingKeyOf ((base64Decode text).elim (.error .malformed) .ok) with
  | error why =>
    cases why with
    | outOfMemory => exact absurd hkey hmemory
    | _ => exact hskip rfl
  | ok key =>
    obtain ⟨set', happend, hsmall, hcount⟩ :=
      keySetAppend_small hset hlen hidlen (nulFree_cstr servedId) key
    dsimp only
    rw [AllocE.ok_bind_of_ok (AllocE.ok_lift _), happend]
    exact ⟨_, rfl, hsmall, le_of_eq hcount⟩

theorem foldlM_stage_ok {resources : List Json}
    (hres : ∀ resource ∈ resources, resource.Every Storable) :
    ∀ {staging : Staging}, staging.set.Small →
      staging.set.entries.length + resources.length ≤ 2 ^ 25 →
        ∃ staging', (resources.foldlM (keySetStageResource C) staging).ok = .ok staging' := by
  induction resources with
  | nil => exact fun _ _ => ⟨_, rfl⟩
  | cons resource resources ih =>
    intro staging hset hlen
    rw [List.length_cons] at hlen
    obtain ⟨next, hnext, hsmall, hcount⟩ := keySetStageResource_truthful (C := C) hset
      (by omega) (hres resource List.mem_cons_self)
    rw [List.foldlM_cons, AllocE.ok_bind_of_ok hnext]
    exact ih (fun r hr => hres r (List.mem_cons_of_mem _ hr)) hsmall (by omega)

theorem keySetMerge_truthful_iff {document : Json} (hdocument : document.Every Storable) :
    Call.Truthful (keySetMerge C set document) ↔
      ∀ resources, document.objectGet (ascii "data") = some (.arr resources) →
        set.HasRoom (resources.filterMap publishedKey).length := by
  unfold keySetMerge
  split
  · rename_i resources hdata
    have hstored := every_arr.1 (hdocument.objectGet hdata)
    have hcount : resources.length ≤ 2 ^ 24 := hstored.1
    have hcreate : keySetCreate.ok = .ok KeySet.empty := rfl
    obtain ⟨staging, hstaging⟩ := @foldlM_stage_ok C resources hstored.2
      ⟨KeySet.empty, 0, 0⟩ (Nat.zero_le _) (by
        show 0 + resources.length ≤ 2 ^ 25
        omega)
    obtain ⟨hentries, -, -⟩ := foldlM_stage_accounts hstored.2 (AllocE.can_false.2 hstaging)
    have hadded : staging.set.entries.length = (resources.filterMap publishedKey).length := by
      rw [hentries]
      simp [KeySet.empty]
    have hrows : (resources.filterMap publishedKey).length ≤ sizeMax := by
      have := List.length_filterMap_le publishedKey resources
      unfold sizeMax
      omega
    have hreserve : Call.Truthful (keySetReserve set _) ↔ _ := keySetReserve_truthful_iff hrows
    rw [← hadded] at hreserve
    simp only [hdata, Option.some.injEq, Json.arr.injEq, forall_eq']
    rw [← hadded, ← hreserve]
    unfold Call.Truthful
    rw [AllocE.ok_bind_of_ok hcreate, AllocE.ok_bind_of_ok hstaging]
    cases hgrown : (keySetReserve set staging.set.entries.length).ok with
    | error f =>
      rw [AllocE.ok_bind_of_error hgrown]
      simp only [Except.error.injEq]
    | ok grown =>
      rw [AllocE.ok_bind_of_ok hgrown]
      exact iff_of_true nofun nofun
  · rename_i hdata
    exact iff_of_true (.fail (by decide)) fun resources h => absurd h (hdata resources)

/-- **Loading a document and memory.** Without refused requests memory is blamed only when the
    caller's table would pass `size_t`. -/
theorem keySetAddJson_truthful_iff (hL : ConsumesNumbers L) (json : Option Bytes) :
    Call.Truthful (keySetAddJson C L set json) ↔
      ∀ resources, KeyDocument L json resources →
        set.HasRoom (resources.filterMap publishedKey).length := by
  unfold keySetAddJson
  cases json with
  | none =>
    refine iff_of_true (.fail (by decide)) ?_
    rintro resources ⟨text, document, ⟨⟩, -⟩
  | some text =>
    dsimp only
    by_cases hlen : text.length = 0 ∨ text.length > maxReasonableLen
    · rw [if_pos hlen]
      refine iff_of_true (.fail (by decide)) ?_
      rintro resources ⟨_, document, ⟨⟩, hreads, -⟩
      rcases hlen with h0 | hlong
      · obtain rfl := List.eq_nil_of_length_eq_zero h0
        have := (parse_eq_ok hL).mpr hreads
        exact nomatch this
      · exact absurd hreads.1 (by omega)
    rw [if_neg hlen]
    cases hparse : (parseDocument L text "could not parse the key set"
        "the key set is malformed: ").ok with
    | error f =>
      refine iff_of_true ((parseDocument_truthful _ _ _).bind fun document hdoc => ?_) ?_
      · rw [hparse] at hdoc
        cases hdoc
      · rintro resources ⟨_, document, ⟨⟩, hreads, -⟩
        rw [(parseDocument_eq_ok hL).mpr hreads] at hparse
        cases hparse
    | ok document =>
      have hreads := (parseDocument_eq_ok hL).mp hparse
      have hunique : ∀ resources, KeyDocument L (some text) resources ↔
          document.objectGet (ascii "data") = some (.arr resources) := by
        refine fun resources => ⟨?_, fun hdata => ⟨text, document, rfl, hreads, hdata⟩⟩
        rintro ⟨_, document', ⟨⟩, hreads', hdata⟩
        rwa [hreads.unique hL hreads']
      simp only [hunique]
      rw [show Call.Truthful (parseDocument L text _ _ >>= keySetMerge C set) ↔
        Call.Truthful (keySetMerge C set document) from by
          unfold Call.Truthful; rw [AllocE.ok_bind_of_ok hparse]]
      exact keySetMerge_truthful_iff hreads.storable

end KeySets

/-! ## Proofs -/

section Proofs

theorem nulFree_doubleText (hL : L.Correct) (d : Double) : NulFree (doubleText L d) := by
  by_cases hfin : d.isFinite = true
  · intro hmem
    rcases (recoverable_double hL hfin).1.mem hmem with h | h
    · exact absurd h (by decide)
    · exact absurd h (by decide)
  · unfold doubleText
    rw [if_pos hfin]
    decide

/-- **Proofs and memory.** Without refused requests memory is blamed only for a text longer than any
    block. -/
theorem proofVerify_truthful_iff (hL : L.Correct)
    (proof rsaPubkey accountId machineId fingerprint datasetJson : Option Bytes) :
    Call.Truthful (proofVerify C L proof rsaPubkey accountId machineId fingerprint datasetJson) ↔
      ∀ text, ProofText L proof rsaPubkey accountId machineId fingerprint datasetJson text →
        text.length < Buf.maxGrowth := by
  have hnum := consumesNumbers hL
  simp only [proofText_iff]
  by_cases hreach : ∃ input : ProofInput,
      input.Of proof rsaPubkey accountId machineId fingerprint datasetJson
  swap
  · obtain ⟨f, hcode, hf⟩ := ProofInput.verify_refused (not_exists.mp hreach)
    rw [hf]
    exact iff_of_true (.throw hcode) fun _ ⟨input, h, _⟩ => absurd ⟨input, h⟩ hreach
  obtain ⟨input, hinput⟩ := hreach
  rw [hinput.verify]
  by_cases hread : ∃ dataset, Reads L input.datasetJson dataset
  swap
  · refine iff_of_true ((parseDocument_truthful _ _ _).bind fun dataset h =>
      absurd ⟨dataset, (parseDocument_eq_ok hnum).mp h⟩ hread) ?_
    rintro _ ⟨input', hinput', dataset, hreads, -⟩
    exact absurd ⟨dataset, hinput.unique hinput' ▸ hreads⟩ hread
  obtain ⟨dataset, hreads⟩ := hread
  have hnul : NulFree (input.text L dataset) :=
    nulFree_text_of_doubles fun _ _ d _ => nulFree_doubleText hL d
  unfold Call.Truthful
  rw [AllocE.ok_bind_of_ok ((parseDocument_eq_ok hnum).mpr hreads)]
  constructor
  · rintro h _ ⟨input', hinput', dataset', hreads', hobj, rfl⟩
    obtain rfl := hinput.unique hinput'
    obtain rfl := hreads.unique hnum hreads'
    by_contra hlong
    obtain ⟨f, hf, hcode⟩ := input.check_of_not_detachable (C := C) hobj fun h => hlong h.2
    exact h f hf hcode
  · intro h f hf hmemory
    rcases (input.check_reports dataset).code f hf with ⟨hcode, -⟩ | ⟨-, hobj, hnot⟩
    · exact nomatch hcode.symm.trans hmemory
    · exact hnot ⟨hnul, h _ ⟨input, hinput, dataset, hreads, hobj, rfl⟩⟩

end Proofs

/-! ## The offline side -/

/-- **Memory is blamed truthfully.** When no request is refused, an entry point reports out of memory
    exactly for a file that is looked at and has a NUL between its markers, for a key document the set
    has no room for, and for texts and lists that are longer than a block can be. -/
theorem offline_truthful (hL : L.Correct) {qsort : List FpComponent → List FpComponent}
    (hq : Sorts qsort) (C : Crypto) :
    (∀ pem key licenseKey nowUnix,
      Call.Truthful (licenseFileVerifyAt C L pem key licenseKey nowUnix) ↔
        ¬ (key.isSome = true ∧ ∃ p ∈ pem, NulInBody licenseMarkers p)) ∧
    (∀ pem keys licenseKey nowUnix,
      Call.Truthful (licenseFileVerifyAtWithKeySet C L pem keys licenseKey nowUnix) ↔
        ¬ (keys.isSome = true ∧ ∃ p ∈ pem, NulInBody licenseMarkers p)) ∧
    (∀ pem scheme pubkey licenseKey fingerprint nowUnix,
      Call.Truthful (machineFileVerifyAt C L pem scheme pubkey licenseKey fingerprint nowUnix) ↔
        ¬ ((∃ k ∈ pubkey, 0 < k.length ∧ k.length ≤ maxReasonableLen) ∧
          (machineAlgSuffix scheme).isSome = true ∧ ∃ p ∈ pem, NulInBody machineMarkers p)) ∧
    (∀ pem scheme keys licenseKey fingerprint nowUnix,
      Call.Truthful
          (machineFileVerifyAtWithKeySet C L pem scheme keys licenseKey fingerprint nowUnix) ↔
        ¬ (keys.isSome = true ∧ scheme = schemeEd25519Sign ∧
          ∃ p ∈ pem, NulInBody machineMarkers p)) ∧
    (∀ proof rsaPubkey accountId machineId fingerprint datasetJson,
      Call.Truthful (proofVerify C L proof rsaPubkey accountId machineId fingerprint datasetJson) ↔
        ∀ text, ProofText L proof rsaPubkey accountId machineId fingerprint datasetJson text →
          text.length < Buf.maxGrowth) ∧
    (∀ set json, Call.Truthful (keySetAddJson C L set json) ↔
      ∀ resources, KeyDocument L json resources →
        set.HasRoom (resources.filterMap publishedKey).length) ∧
    (∀ pairs, Call.Truthful (fingerprintBuildCanonical qsort pairs) ↔
      ∀ list, pairs = some list → ¬ FpTooLarge list) :=
  have hnum := consumesNumbers hL
  ⟨licenseFileVerifyAt_truthful_iff C hnum, licenseFileVerifyAtWithKeySet_truthful_iff C hnum,
    machineFileVerifyAt_truthful_iff C hnum, machineFileVerifyAtWithKeySet_truthful_iff C hnum,
    proofVerify_truthful_iff hL, fun _ json => keySetAddJson_truthful_iff hnum json,
    fingerprintBuildCanonical_truthful_iff hq⟩

/-- A sort of components, in the order `qsort` is given. -/
def fpMergeSort : List FpComponent → List FpComponent :=
  MergeSort.sort fun x y => fpCompare x y ≠ .gt

theorem sorts_fpMergeSort : Sorts fpMergeSort where
  perm := MergeSort.sort_perm
  ordered components := by
    have h := @MergeSort.sort_pairwise _ (fun x y => decide (fpCompare x y ≠ .gt))
      (fun a b c hab hbc => by
        rw [decide_eq_true_iff, fpCompare_iff] at *
        exact List.le_trans hab hbc)
      (fun a b => by
        rw [Bool.or_eq_true, decide_eq_true_iff, decide_eq_true_iff, fpCompare_iff, fpCompare_iff]
        exact List.le_total a.text b.text) components
    exact h.imp fun h => of_decide_eq_true h

theorem licenseSample_body :
    (pemExtract licenseMarkers licenseSample).ok = .ok (sampleBody.flatMap ascii) := by
  decide +kernel

/-- The sample has no NUL between its markers. -/
theorem offline_truthful_sample :
    Call.Truthful (licenseFileVerifyAt sampleCrypto exactLibc (some licenseSample) (some sampleKey)
      none 160) := by
  refine ((offline_truthful exactLibc_correct sorts_fpMergeSort sampleCrypto).1 _ _ _ _).mpr ?_
  rintro ⟨-, _, ⟨⟩, hnul⟩
  refine pemExtract_truthful_iff.1 (fun f hf => ?_) hnul
  rw [licenseSample_body] at hf
  cases hf

/-- A NUL alone between the markers of either file. -/
def nulBetween (m : Markers) : Bytes := m.first ++ [0] ++ m.last

/-- No request is refused, and both files are reported as out of memory. -/
theorem offline_truthful_nul :
    Call.status (licenseFileVerifyAt sampleCrypto exactLibc (some (nulBetween licenseMarkers))
        (some sampleKey) none 160).ok = some .outOfMemory ∧
      Call.status (machineFileVerifyAt sampleCrypto exactLibc (some (nulBetween machineMarkers))
        schemeEd25519Sign (some sampleKey.val) none none 160).ok = some .outOfMemory := by
  decide +kernel

end Tamga
