import Tamga.Checkout.Decode
import Tamga.Crypto
import Tamga.Json.RoundTrip
import Tamga.Util.Uuid

/-!
# `Tamga.Proof` — offline proofs (`proof.c`)

The server signs the canonical text of `{"account":{"id"},"dataset","machine":{"fingerprint","id"}}`;
the SDK rebuilds that text from the caller's arguments and checks the signature against it. A proof
string is the version tag and the signature in base64.
-/

namespace Tamga

open Alloc Json

variable (C : Crypto) (L : Libc)

/-- The caller's strings, once known to be there. -/
structure ProofArgs where
  accountId : Bytes
  machineId : Bytes
  fingerprint : Bytes
  datasetJson : Bytes

/-- The tree that is signed. -/
def proofRoot (accountCanonical machineCanonical fingerprint : Bytes) (dataset : Json) : Json :=
  .obj [(ascii "account", .obj [(ascii "id", .str accountCanonical)]),
    (ascii "machine", .obj [(ascii "id", .str machineCanonical), (ascii "fingerprint", .str fingerprint)]),
    (ascii "dataset", dataset)]

/-- The part of `tamga_proof_build_payload` that builds the tree. -/
def proofBuildRoot (accountCanonical machineCanonical fingerprint : Bytes) (dataset : Json) :
    Call Json := do
  let noMemory := "could not build the proof payload"
  -- the three nodes are all asked for before the first answer is looked at
  let root? ← (liftM newObject : Call (Option Json))
  let account? ← (liftM newObject : Call (Option Json))
  let machine? ← (liftM newObject : Call (Option Json))
  match root?, account?, machine? with
  | some root, some account, some machine =>
      let account ← Call.orFail .outOfMemory noMemory (setString account (ascii "id") accountCanonical)
      let machine ← Call.orFail .outOfMemory noMemory (setString machine (ascii "id") machineCanonical)
      let machine ← Call.orFail .outOfMemory noMemory
        (setString machine (ascii "fingerprint") fingerprint)
      let root ← Call.orFail .outOfMemory noMemory (objectSet root (ascii "account") (some account))
      let root ← Call.orFail .outOfMemory noMemory (objectSet root (ascii "machine") (some machine))
      Call.orFail .outOfMemory noMemory (objectSet root (ascii "dataset") (some dataset))
  | _, _, _ => Call.fail .outOfMemory noMemory

/-- The part of `tamga_proof_build_payload` behind the parser. -/
def proofSignedText (accountCanonical machineCanonical fingerprint : Bytes) (dataset : Json) :
    Call Bytes :=
  if ¬ dataset.isObject then Call.fail .invalidJson "the dataset must be a JSON object"
  else do
    let root ← proofBuildRoot accountCanonical machineCanonical fingerprint dataset
    Call.orFail .outOfMemory "could not serialise the proof payload" (writeCanonical L root)

/-- `tamga_proof_build_payload`. -/
def proofBuildPayload (args : ProofArgs) : Call Bytes :=
  match uuidNormalize args.accountId with
  | none => Call.fail .invalidJson "the account id is not a valid UUID"
  | some accountCanonical =>
      match uuidNormalize args.machineId with
      | none => Call.fail .invalidJson "the machine id is not a valid UUID"
      | some machineCanonical => do
          let dataset ← parseDocument L args.datasetJson "could not parse the dataset"
            "the dataset is not valid JSON: "
          proofSignedText L accountCanonical machineCanonical args.fingerprint dataset

/-- `TAMGA_PROOF_PREFIX`. -/
def proofTag : Bytes := ascii "v1x0."

/-- The end of `tamga_proof_verify`: anything wrong with the proof string is an answer, not a failure. -/
def proofCheck (proof rsaPubkey payload : Bytes) : Call Bool :=
  if proof.length ≤ proofTag.length ∨ proof.take proofTag.length ≠ proofTag then pure false
  else do
    match ← (liftM (base64DecodeAllocWhy (proof.drop proofTag.length)).run :
        Call (Except Base64Failure Bytes)) with
    | .ok signature => return C.rsaVerifyPkcs1Sha256 rsaPubkey payload signature
    | .error .outOfMemory => Call.fail .outOfMemory "could not decode the proof signature"
    | .error .malformed => return false

/-- `tamga_proof_verify`; the result is `*out_valid`, which the caller provides room for. -/
def proofVerify (proof rsaPubkey accountId machineId fingerprint datasetJson : Option Bytes) :
    Call Bool :=
  match proof, rsaPubkey, accountId, machineId, fingerprint, datasetJson with
  | some proof, some rsaPubkey, some accountId, some machineId, some fingerprint, some datasetJson =>
      if rsaPubkey.length = 0 ∨ rsaPubkey.length > maxReasonableLen then
        Call.fail .lengthInvalid "public key length is zero or exceeds the accepted maximum"
      else do
        let payload ← proofBuildPayload L ⟨accountId, machineId, fingerprint, datasetJson⟩
        proofCheck C proof rsaPubkey payload
  | _, _, _, _, _, _ => Call.fail .nullArgument "a required argument was null"

variable {C L}

/-! ## The payload -/

theorem proofBuildRoot_completes (accountCanonical machineCanonical fingerprint : Bytes)
    (dataset : Json) :
    Call.Completes (proofBuildRoot accountCanonical machineCanonical fingerprint dataset)
      (proofRoot accountCanonical machineCanonical fingerprint dataset) := by
  unfold proofBuildRoot
  intro F r hr
  obtain ⟨root?, hroot, hr⟩ := AllocE.can_bind_lift.1 hr
  obtain ⟨account?, haccount, hr⟩ := AllocE.can_bind_lift.1 hr
  obtain ⟨machine?, hmachine, hr⟩ := AllocE.can_bind_lift.1 hr
  have hfail : ∀ {r : Except Failure Json}, F →
      (Call.fail .outOfMemory "could not build the proof payload" : Call Json).Can F r →
        r = .ok (proofRoot accountCanonical machineCanonical fingerprint dataset) ∨
          ∃ e, (F ∧ e.IsOutOfMemory) ∧ r = .error e :=
    fun hF h => Or.inr ⟨errorSet .outOfMemory (ascii "could not build the proof payload"), ⟨hF, rfl⟩,
      (Call.can_fail.1 h).symm⟩
  rcases new_can hroot with rfl | ⟨hF, rfl⟩
  · rcases new_can haccount with rfl | ⟨hF, rfl⟩
    · rcases new_can hmachine with rfl | ⟨hF, rfl⟩
      · refine (?_ : Call.Completes _ _) F r hr
        refine (Call.Completes.orFail (setString_delivers (Nat.le_of_ble_eq_true rfl) (by decide)
            (by decide))).bind ?_
        refine (Call.Completes.orFail (setString_delivers (Nat.le_of_ble_eq_true rfl) (by decide)
            (by decide))).bind ?_
        refine (Call.Completes.orFail (setString_delivers (Nat.le_of_ble_eq_true rfl) (by decide)
            (by decide))).bind ?_
        refine (Call.Completes.orFail (objectSet_delivers (Nat.le_of_ble_eq_true rfl) (by decide)
            (by decide))).bind ?_
        refine (Call.Completes.orFail (objectSet_delivers (Nat.le_of_ble_eq_true rfl) (by decide)
            (by decide))).bind ?_
        exact Call.Completes.orFail (objectSet_delivers (Nat.le_of_ble_eq_true rfl) (by decide) (by decide))
      · exact hfail hF hr
    · exact hfail hF hr
  · exact hfail hF hr

theorem proofSignedText_reports (account machine fingerprint : Bytes) (dataset : Json) :
    Call.Reports (fun c => c = .invalidJson ∧ dataset.isObject = false ∨ c = .outOfMemory ∧
        dataset.isObject = true ∧
        (writeCanonical L (proofRoot account machine fingerprint dataset)).ok = none)
      (proofSignedText L account machine fingerprint dataset) := by
  have hroot := proofBuildRoot_completes account machine fingerprint dataset
  unfold proofSignedText
  cases dataset.isObject with
  | false => exact .fail (Or.inl ⟨rfl, rfl⟩)
  | true =>
    refine ⟨.bind hroot.sound fun root _ => Call.Sound.orFail (writeImpl_sound L true root),
      fun f hf => ?_⟩
    rw [if_neg (by simp), AllocE.ok_bind_of_ok hroot.ok] at hf
    have hnone := Call.orFail_eq_error.1 hf
    exact Or.inr ⟨hnone.2 ▸ rfl, rfl, hnone.1⟩

theorem proofSignedText_eq_ok {account machine fingerprint : Bytes} {dataset : Json} {text : Bytes} :
    (proofSignedText L account machine fingerprint dataset).ok = .ok text ↔
      dataset.isObject = true ∧
        (writeCanonical L (proofRoot account machine fingerprint dataset)).ok = some text := by
  unfold proofSignedText
  cases dataset.isObject with
  | false => exact ⟨nofun, nofun⟩
  | true =>
    rw [if_neg (by simp), AllocE.ok_bind_of_ok (proofBuildRoot_completes _ _ _ dataset).ok,
      Call.orFail_eq_ok]
    exact (and_iff_right rfl).symm

/-- **The payload** is the canonical text of the signed tree. -/
theorem proofBuildPayload_eq_ok (hL : ConsumesNumbers L) {args : ProofArgs} {payload : Bytes} :
    (proofBuildPayload L args).ok = .ok payload ↔
      ∃ account machine dataset, uuidNormalize args.accountId = some account ∧
        uuidNormalize args.machineId = some machine ∧ Reads L args.datasetJson dataset ∧
        dataset.isObject = true ∧
        (writeCanonical L (proofRoot account machine args.fingerprint dataset)).ok = some payload := by
  unfold proofBuildPayload
  cases uuidNormalize args.accountId with
  | none => exact ⟨nofun, nofun⟩
  | some account =>
    cases uuidNormalize args.machineId with
    | none => exact ⟨nofun, nofun⟩
    | some machine =>
      simp only [AllocE.ok_bind_eq_ok, parseDocument_eq_ok hL, proofSignedText_eq_ok,
        Option.some.injEq, exists_and_left, exists_eq_left']

/-- `text` is the canonical text a proof with these arguments is checked against. -/
def ProofText (L : Libc) (proof rsaPubkey accountId machineId fingerprint datasetJson : Option Bytes)
    (text : Bytes) : Prop :=
  ∃ p k a m fp ds account machine dataset, proof = some p ∧ rsaPubkey = some k ∧
    accountId = some a ∧ machineId = some m ∧ fingerprint = some fp ∧ datasetJson = some ds ∧
    (0 < k.length ∧ k.length ≤ maxReasonableLen) ∧ uuidNormalize a = some account ∧
    uuidNormalize m = some machine ∧ Reads L ds dataset ∧ dataset.isObject = true ∧
    text = (proofRoot account machine fp dataset).text L true

/-- A proof string and the signature it carries. -/
def ProofSignature (proof signature : Bytes) : Prop :=
  ∃ encoded, encoded ≠ [] ∧ proof = proofTag ++ encoded ∧
    (base64DecodeAllocWhy encoded).ok = .ok signature

theorem ProofSignature.unique {proof signature signature' : Bytes} (h : ProofSignature proof signature)
    (h' : ProofSignature proof signature') : signature = signature' := by
  obtain ⟨encoded, -, rfl, hdecode⟩ := h
  obtain ⟨encoded', -, heq, hdecode'⟩ := h'
  obtain rfl := List.append_cancel_left heq
  exact Except.ok.inj (hdecode.symm.trans hdecode')

/-- The answer is yes for a string that carries a signature of the payload. -/
theorem proofCheck_ok (proof rsaPubkey payload : Bytes) :
    ∃ valid, (proofCheck C proof rsaPubkey payload).ok = .ok valid ∧
      (valid = true ↔ ∃ signature, ProofSignature proof signature ∧
        C.rsaVerifyPkcs1Sha256 rsaPubkey payload signature = true) := by
  unfold proofCheck
  split
  · rename_i hshape
    refine ⟨false, rfl, iff_of_false nofun ?_⟩
    rintro ⟨_, ⟨encoded, hne, rfl, -⟩, -⟩
    have hpos := List.length_pos_of_ne_nil hne
    rcases hshape with h | h
    · rw [List.length_append] at h
      omega
    · exact h (List.take_left' rfl)
  rename_i hshape
  obtain ⟨hlen, htag⟩ := not_or.mp hshape
  have hproof : proof = proofTag ++ proof.drop proofTag.length := by
    conv_lhs => rw [← List.take_append_drop proofTag.length proof, not_not.mp htag]
  have hne : proof.drop proofTag.length ≠ [] := by
    rw [ne_eq, List.drop_eq_nil_iff]
    exact hlen
  rw [AllocE.ok_bind_of_ok (AllocE.ok_lift _)]
  cases hdecode : (base64DecodeAllocWhy (proof.drop proofTag.length)).ok with
  | ok signature =>
    have hsig : ProofSignature proof signature := ⟨_, hne, hproof, hdecode⟩
    unfold AllocE.ok at hdecode
    rw [hdecode]
    refine ⟨_, rfl, fun h => ⟨signature, hsig, h⟩, ?_⟩
    rintro ⟨_, hsig', h⟩
    rwa [hsig.unique hsig']
  | error e =>
    have hnone : ¬ ∃ signature, ProofSignature proof signature ∧
        C.rsaVerifyPkcs1Sha256 rsaPubkey payload signature = true := by
      rintro ⟨_, ⟨encoded, -, rfl, hdecode'⟩, -⟩
      rw [List.drop_left' rfl, hdecode'] at hdecode
      cases hdecode
    cases e with
    | outOfMemory => exact absurd hdecode (base64DecodeAllocWhy_ne_outOfMemory _)
    | malformed =>
      unfold AllocE.ok at hdecode
      rw [hdecode]
      exact ⟨false, rfl, iff_of_false nofun hnone⟩

/-- The proof string is never the reason of a failure, only the room for its signature. -/
theorem proofCheck_reports (proof rsaPubkey payload : Bytes) :
    Call.Reports (fun _ => False) (proofCheck C proof rsaPubkey payload) := by
  refine ⟨?_, fun f hf => ?_⟩
  · unfold proofCheck
    split
    · exact .pure false
    refine .bind_lift (base64DecodeAllocWhy_sound _) ?_ ?_
    · rintro _ rfl
      exact ⟨errorSet .outOfMemory (ascii "could not decode the proof signature"), rfl, rfl⟩
    · split
      · exact .pure _
      · exact Call.Sound.fail _ _
      · exact .pure _
  · obtain ⟨valid, hvalid, -⟩ := proofCheck_ok (C := C) proof rsaPubkey payload
    cases hvalid.symm.trans hf

/-! ## As far as the dataset -/

/-- `text` can be handed out as a string. -/
def Detachable (text : Bytes) : Prop := NulFree text ∧ text.length < Buf.maxGrowth

/-- The arguments of a call that comes to read its dataset. -/
structure ProofInput where
  proof : Bytes
  rsaPubkey : Bytes
  accountCanonical : Bytes
  machineCanonical : Bytes
  fingerprint : Bytes
  datasetJson : Bytes

namespace ProofInput

/-- They are all there, and pass the checks made before. -/
structure Of (input : ProofInput)
    (proof rsaPubkey accountId machineId fingerprint datasetJson : Option Bytes) : Prop where
  proof : proof = some input.proof
  rsaPubkey : rsaPubkey = some input.rsaPubkey
  account : accountId.bind uuidNormalize = some input.accountCanonical
  machine : machineId.bind uuidNormalize = some input.machineCanonical
  fingerprint : fingerprint = some input.fingerprint
  datasetJson : datasetJson = some input.datasetJson
  length : 0 < input.rsaPubkey.length ∧ input.rsaPubkey.length ≤ maxReasonableLen

variable {proof rsaPubkey accountId machineId fingerprint datasetJson : Option Bytes}
  {input input' : ProofInput}

theorem Of.unique (h : input.Of proof rsaPubkey accountId machineId fingerprint datasetJson)
    (h' : input'.Of proof rsaPubkey accountId machineId fingerprint datasetJson) : input = input' := by
  cases input
  cases input'
  simp only [mk.injEq]
  exact ⟨Option.some.inj (h.proof.symm.trans h'.proof),
    Option.some.inj (h.rsaPubkey.symm.trans h'.rsaPubkey),
    Option.some.inj (h.account.symm.trans h'.account),
    Option.some.inj (h.machine.symm.trans h'.machine),
    Option.some.inj (h.fingerprint.symm.trans h'.fingerprint),
    Option.some.inj (h.datasetJson.symm.trans h'.datasetJson)⟩

variable (input) {dataset : Json}

/-- What is left of the call then. -/
def check (C : Crypto) (L : Libc) (dataset : Json) : Call Bool :=
  proofSignedText L input.accountCanonical input.machineCanonical input.fingerprint dataset >>=
    proofCheck C input.proof input.rsaPubkey

/-- The text that is checked. -/
def text (L : Libc) (dataset : Json) : Bytes :=
  (proofRoot input.accountCanonical input.machineCanonical input.fingerprint dataset).text L true

theorem check_reports (dataset : Json) :
    Call.Reports (fun c => c = .invalidJson ∧ dataset.isObject = false ∨ c = .outOfMemory ∧
        dataset.isObject = true ∧ ¬ Detachable (input.text L dataset)) (input.check C L dataset) := by
  refine (proofSignedText_reports _ _ _ dataset |>.mono fun c h => h.imp_right ?_).bind fun text _ =>
    (proofCheck_reports _ _ text).mono fun _ => False.elim
  rintro ⟨hcode, hobj, hnone⟩
  refine ⟨hcode, hobj, fun h => ?_⟩
  exact nomatch ((writeImpl_ok_eq L true _).trans (if_pos h)).symm.trans hnone

theorem check_of_not_detachable (hobj : dataset.isObject = true)
    (h : ¬ Detachable (input.text L dataset)) :
    ∃ f, (input.check C L dataset).ok = .error f ∧ f.code = .outOfMemory := by
  have hnone : (writeCanonical L (proofRoot input.accountCanonical input.machineCanonical
      input.fingerprint dataset)).ok = none := (writeImpl_ok_eq L true _).trans (if_neg h)
  have hfail : (proofSignedText L input.accountCanonical input.machineCanonical input.fingerprint
      dataset).ok =
        .error (errorSet .outOfMemory (ascii "could not serialise the proof payload")) := by
    unfold proofSignedText
    rw [if_neg (not_not.mpr hobj), AllocE.ok_bind_of_ok (proofBuildRoot_completes _ _ _ dataset).ok]
    exact Call.orFail_eq_error.2 ⟨hnone, rfl⟩
  exact ⟨_, AllocE.ok_bind_of_error hfail, rfl⟩

variable {input}

theorem Of.verify (h : input.Of proof rsaPubkey accountId machineId fingerprint datasetJson) :
    proofVerify C L proof rsaPubkey accountId machineId fingerprint datasetJson =
      parseDocument L input.datasetJson "could not parse the dataset"
        "the dataset is not valid JSON: " >>= input.check C L := by
  obtain ⟨rfl, rfl, haccount, hmachine, rfl, rfl, hlen⟩ := h
  obtain ⟨a, rfl, ha⟩ := Option.bind_eq_some_iff.1 haccount
  obtain ⟨m, rfl, hm⟩ := Option.bind_eq_some_iff.1 hmachine
  simp only [proofVerify, proofBuildPayload, ha, hm, bind_assoc]
  rw [if_neg (by omega)]
  rfl

/-- A call that does not come that far says so, whatever the environment. -/
theorem verify_refused
    (h : ∀ input : ProofInput, ¬ input.Of proof rsaPubkey accountId machineId fingerprint datasetJson) :
    ∃ f : Failure, f.code ≠ .outOfMemory ∧ ∀ C L, proofVerify C L proof rsaPubkey accountId machineId
      fingerprint datasetJson = throwThe Failure f := by
  have hfail : ∀ code message, code ≠ ErrorCode.outOfMemory → ∃ f : Failure, f.code ≠ .outOfMemory ∧
      ∀ (_ : Crypto) (_ : Libc), (Call.fail code message : Call Bool) = throwThe Failure f :=
    fun code message hcode => ⟨errorSet code (ascii message), hcode, fun _ _ => rfl⟩
  cases proof with
  | none => exact hfail .nullArgument "a required argument was null" nofun
  | some p =>
  cases rsaPubkey with
  | none => exact hfail .nullArgument "a required argument was null" nofun
  | some k =>
  cases accountId with
  | none => exact hfail .nullArgument "a required argument was null" nofun
  | some a =>
  cases machineId with
  | none => exact hfail .nullArgument "a required argument was null" nofun
  | some m =>
  cases fingerprint with
  | none => exact hfail .nullArgument "a required argument was null" nofun
  | some fp =>
  cases datasetJson with
  | none => exact hfail .nullArgument "a required argument was null" nofun
  | some ds =>
  simp only [proofVerify, proofBuildPayload]
  by_cases hlen : k.length = 0 ∨ k.length > maxReasonableLen
  · simp only [if_pos hlen]
    exact hfail .lengthInvalid _ nofun
  simp only [if_neg hlen]
  cases ha : uuidNormalize a with
  | none => exact hfail .invalidJson "the account id is not a valid UUID" nofun
  | some account =>
  cases hm : uuidNormalize m with
  | none => exact hfail .invalidJson "the machine id is not a valid UUID" nofun
  | some machine =>
    exact absurd ⟨rfl, rfl, ha, hm, rfl, rfl, Nat.pos_of_ne_zero fun h => hlen (Or.inl h),
      Nat.le_of_not_lt fun h => hlen (Or.inr h)⟩ (h ⟨p, k, account, machine, fp, ds⟩)

end ProofInput

theorem proofText_iff {proof rsaPubkey accountId machineId fingerprint datasetJson : Option Bytes}
    {text : Bytes} :
    ProofText L proof rsaPubkey accountId machineId fingerprint datasetJson text ↔
      ∃ input : ProofInput, input.Of proof rsaPubkey accountId machineId fingerprint datasetJson ∧
        ∃ dataset, Reads L input.datasetJson dataset ∧ dataset.isObject = true ∧
          text = (proofRoot input.accountCanonical input.machineCanonical input.fingerprint
            dataset).text L true := by
  constructor
  · rintro ⟨p, k, a, m, fp, ds, account, machine, dataset, rfl, rfl, rfl, rfl, rfl, rfl, hlen, ha, hm, h⟩
    exact ⟨⟨p, k, account, machine, fp, ds⟩, ⟨rfl, rfl, ha, hm, rfl, rfl, hlen⟩, dataset, h⟩
  · rintro ⟨input, ⟨rfl, rfl, haccount, hmachine, rfl, rfl, hlen⟩, dataset, h⟩
    obtain ⟨a, rfl, ha⟩ := Option.bind_eq_some_iff.1 haccount
    obtain ⟨m, rfl, hm⟩ := Option.bind_eq_some_iff.1 hmachine
    exact ⟨_, _, a, m, _, _, _, _, dataset, rfl, rfl, rfl, rfl, rfl, rfl, hlen, ha, hm, h⟩

end Tamga
