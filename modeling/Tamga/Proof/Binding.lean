import Tamga.Json.Collapse
import Tamga.Json.Exact
import Tamga.Json.Respell
import Tamga.Json.Unambiguous
import Tamga.Proof

/-!
# `Proof.Binding` — what a proof is bound to

Two questions about the payload. Which arguments share one: every respelling of the UUIDs and of the
dataset does (`proofVerify_respelling`). Which arguments **may** share one: equal meanings, and besides
them only datasets that an overflowing number, written as `null`, makes look alike
(`proofBuildPayload_binds_iff`).
-/

namespace Tamga

open Alloc Json

variable {C : Crypto} {L : Libc}

/-! ## The signed tree -/

section Root

variable {account machine account' machine' fingerprint fingerprint' : Bytes} {v w : Json}

theorem distinctKeys_proofRoot (hv : v.Every DistinctKeys) :
    (proofRoot account machine fingerprint v).Every DistinctKeys := by
  have hkeys : (ascii "account" ≠ ascii "machine" ∧ ascii "account" ≠ ascii "dataset" ∧
      ascii "machine" ≠ ascii "dataset" ∧ ascii "id" ≠ ascii "fingerprint") ∧
      NulFree (ascii "account") ∧ NulFree (ascii "machine") ∧ NulFree (ascii "dataset") ∧
      NulFree (ascii "id") ∧ NulFree (ascii "fingerprint") := by decide
  simp [proofRoot, DistinctKeys, hkeys, hv]

theorem eqUpToOrder_proofRoot (h : EqUpToOrder v w) :
    EqUpToOrder (proofRoot account machine fingerprint v) (proofRoot account machine fingerprint w) :=
  .obj (.cons (.mk (.refl _)) (.cons (.mk (.refl _)) (.cons (.mk h) .nil))) (List.Perm.refl _)

theorem nullify_proofRoot : (proofRoot account machine fingerprint v).nullify =
    proofRoot account machine fingerprint v.nullify := rfl

/-- The tree keeps its parts apart. -/
theorem proofRoot_parts
    (h : EqUpToOrder (proofRoot account machine fingerprint v)
      (proofRoot account' machine' fingerprint' w)) :
    account = account' ∧ machine = machine' ∧ fingerprint = fingerprint' ∧ EqUpToOrder v w := by
  have hkeys : ascii "account" ≠ ascii "machine" ∧ ascii "account" ≠ ascii "dataset" ∧
      ascii "machine" ≠ ascii "account" ∧ ascii "machine" ≠ ascii "dataset" ∧
      ascii "dataset" ≠ ascii "account" ∧ ascii "dataset" ≠ ascii "machine" ∧
      ascii "id" ≠ ascii "fingerprint" ∧ ascii "fingerprint" ≠ ascii "id" := by decide
  -- each member of one tree meets the member of the same name in the other
  have hmember : ∀ {key : Bytes} {a : Json}, (key, a) ∈ [
      (ascii "account", Json.obj [(ascii "id", .str account)]),
      (ascii "machine", .obj [(ascii "id", .str machine), (ascii "fingerprint", .str fingerprint)]),
      (ascii "dataset", v)] → _ := fun hm => h.member hm
  have hstr : ∀ {s s' : Bytes}, EqUpToOrder (.str s) (.str s') → s = s' := by
    intro s s' h
    cases h
    rfl
  obtain ⟨a, ha, haccount⟩ := hmember List.mem_cons_self
  obtain rfl : a = .obj [(ascii "id", .str account')] := by simpa [hkeys] using ha
  obtain ⟨m, hm, hmachine⟩ := hmember (List.mem_cons_of_mem _ List.mem_cons_self)
  obtain rfl : m = .obj [(ascii "id", .str machine'), (ascii "fingerprint", .str fingerprint')] := by
    simpa [hkeys] using hm
  obtain ⟨d, hd, hdataset⟩ := hmember (List.mem_cons_of_mem _ (List.mem_cons_of_mem _ List.mem_cons_self))
  obtain rfl : d = w := by simpa [hkeys] using hd
  obtain ⟨i, hi, hid⟩ := haccount.member List.mem_cons_self
  obtain rfl : i = .str account' := by simpa using hi
  obtain ⟨j, hj, hid'⟩ := hmachine.member List.mem_cons_self
  obtain rfl : j = .str machine' := by simpa [hkeys] using hj
  obtain ⟨f, hf, hfp⟩ := hmachine.member (List.mem_cons_of_mem _ List.mem_cons_self)
  obtain rfl : f = .str fingerprint' := by simpa [hkeys] using hf
  exact ⟨hstr hid, hstr hid', hstr hfp, hdataset⟩

end Root

/-! ## Respelling -/

theorem Reads.distinctKeys {text : Bytes} {v : Json} (h : Reads L text v) : v.Every DistinctKeys :=
  h.storable.mono fun w hw => by
    cases w with
    | obj members => exact ⟨hw.2.1, fun m hm => (hw.2.2 m hm).1⟩
    | _ => trivial

theorem isObject_eq {v w : Json} (h : EqUpToOrder v w) : v.isObject = w.isObject := by
  cases h <;> rfl

variable {args args' : ProofArgs}

/-- The payload of a respelled dataset: the same bytes, or the same complaint. -/
theorem proofBuildPayload_respelled (hL : ConsumesNumbers L)
    (haccount : uuidParse args.accountId = uuidParse args'.accountId)
    (hmachine : uuidParse args.machineId = uuidParse args'.machineId)
    (hfingerprint : args.fingerprint = args'.fingerprint) {doc doc' : Doc}
    (hdoc : Text doc args.datasetJson) (hdoc' : Text doc' args'.datasetJson)
    (h : doc.Respelled doc') (hlen : args.datasetJson.length ≤ maxReasonableLen)
    (hlen' : args'.datasetJson.length ≤ maxReasonableLen) :
    AllocE.Agrees Failure.code (proofBuildPayload L args).ok (proofBuildPayload L args').ok := by
  unfold proofBuildPayload
  rw [show uuidNormalize args'.accountId = uuidNormalize args.accountId by
      rw [uuidNormalize, uuidNormalize, haccount],
    show uuidNormalize args'.machineId = uuidNormalize args.machineId by
      rw [uuidNormalize, uuidNormalize, hmachine], ← hfingerprint]
  split
  · exact .refl _
  split
  · exact .refl _
  by_cases hacc : doc.Accepted
  · -- both are read, as trees the canonical serializer cannot tell apart
    have hread : Reads L args.datasetJson (doc.value L) := ⟨hlen, doc, hdoc, hacc, rfl⟩
    have hread' : Reads L args'.datasetJson (doc'.value L) := ⟨hlen', doc', hdoc', h.within.mp hacc, rfl⟩
    have hvalue := h.value L
    rw [AllocE.ok_bind_of_ok ((parseDocument_eq_ok hL).mpr hread),
      AllocE.ok_bind_of_ok ((parseDocument_eq_ok hL).mpr hread')]
    unfold proofSignedText
    rw [isObject_eq hvalue]
    split
    · exact .refl _
    rw [AllocE.ok_bind_of_ok (proofBuildRoot_completes _ _ _ _).ok,
      AllocE.ok_bind_of_ok (proofBuildRoot_completes _ _ _ _).ok,
      writeCanonical_eq_of_eqUpToOrder L (distinctKeys_proofRoot hread.distinctKeys)
        (eqUpToOrder_proofRoot hvalue)]
    exact .refl _
  · -- neither is read: a text spells one document only
    have hrefuse : ∀ {t : Bytes} {d : Doc}, Text d t → ¬ d.Accepted →
        ∀ v, (parse L (some t)).ok ≠ .ok v := by
      intro t d ht hd v hv
      obtain ⟨-, d', ht', hd', -⟩ := (parse_eq_ok hL).mp hv
      exact hd (text_unique ht ht' ▸ hd')
    obtain ⟨f, hf, hcode⟩ := parseDocument_refused "could not parse the dataset"
      "the dataset is not valid JSON: " (hrefuse hdoc hacc)
    obtain ⟨f', hf', hcode'⟩ := parseDocument_refused "could not parse the dataset"
      "the dataset is not valid JSON: " (hrefuse hdoc' (mt h.within.mpr hacc))
    rw [AllocE.ok_bind_of_error hf, AllocE.ok_bind_of_error hf']
    exact hcode.trans hcode'.symm

/-- **Respelling.** Spellings of the same UUIDs and dataset texts of at most 16 MiB that differ in
    whitespace, in escapes and in the order of distinct members get the same status and verdict. -/
theorem proofVerify_respelling (hL : ConsumesNumbers L) {account machine : Bytes}
    (haccount16 : account.length = 16) (hmachine16 : machine.length = 16)
    {accountId accountId' machineId machineId' datasetJson datasetJson' : Bytes}
    (haccount : UuidSpelling account accountId) (haccount' : UuidSpelling account accountId')
    (hmachine : UuidSpelling machine machineId) (hmachine' : UuidSpelling machine machineId')
    {doc doc' : Doc} (hdoc : Text doc datasetJson) (hdoc' : Text doc' datasetJson')
    (hrespelled : doc.Respelled doc') (hlen : datasetJson.length ≤ 16 * 1024 * 1024)
    (hlen' : datasetJson'.length ≤ 16 * 1024 * 1024) (proof rsaPubkey fingerprint : Option Bytes) :
    AllocE.Agrees Failure.code
      (proofVerify C L proof rsaPubkey (some accountId) (some machineId) fingerprint
        (some datasetJson)).ok
      (proofVerify C L proof rsaPubkey (some accountId') (some machineId') fingerprint
        (some datasetJson')).ok := by
  have huuid : ∀ {uuid s s' : Bytes}, uuid.length = 16 → UuidSpelling uuid s → UuidSpelling uuid s' →
      uuidParse s = uuidParse s' := fun h16 h h' => by
    rw [uuidParse_eq_some.2 ⟨h16, h⟩, uuidParse_eq_some.2 ⟨h16, h'⟩]
  unfold proofVerify
  match proof, rsaPubkey, fingerprint with
  | none, _, _ | some _, none, _ | some _, some _, none => exact .refl _
  | some proof, some rsaPubkey, some fingerprint =>
      dsimp only
      split
      · exact .refl _
      · exact .bind (proofBuildPayload_respelled hL (huuid haccount16 haccount haccount')
          (huuid hmachine16 hmachine hmachine') rfl hdoc hdoc' hrespelled hlen hlen')
          fun _ _ => .refl _

/-- Unpadded arithmetic: a signature is the block itself, and a text is its own digest. -/
def plainRsa : RsaArithmetic Unit where
  parsePublicKey _ := some ()
  modulusLen _ := 128
  modexp _ signature := some signature

def plainCrypto : Crypto where
  ed25519Verify _ _ _ := false
  rsaVerifyPkcs1Sha256 := rsaVerifyPkcs1Sha256 plainRsa id
  rsaVerifyPssSha256 _ _ _ := false
  ecdsaP256Verify _ _ _ := false
  sha256 := id
  hmacSha256 _ _ := []
  gcmCrypt _ _ _ := []
  gcmTag _ _ _ _ := []

def sampleUuid : Bytes := List.replicate 15 0 ++ [0xAB]

/-- `{"a":1,"b":2}` and `{"b":2, "\u0061":1}`, with the four spellings of one UUID. -/
theorem proofVerify_respelling_reordered :
    AllocE.Agrees Failure.code
      (proofVerify plainCrypto exactLibc (some (ascii "v1x0.AAAA")) (some [1])
        (some (ascii "00000000-0000-0000-0000-0000000000ab"))
        (some (ascii "000000000000000000000000000000AB")) (some (ascii "fp"))
        (some (ascii "\x7b\x22a\x22:1,\x22b\x22:2\x7d"))).ok
      (proofVerify plainCrypto exactLibc (some (ascii "v1x0.AAAA")) (some [1])
        (some (ascii "urn:uuid:00000000-0000-0000-0000-0000000000AB"))
        (some (ascii "\x7b00000000-0000-0000-0000-0000000000ab\x7d")) (some (ascii "fp"))
        (some (ascii "\x7b\x22b\x22:2, \x22\\u0061\x22:1\x7d"))).ok := by
  have h16 : sampleUuid.length = 16 := rfl
  have hspells : ∀ s, uuidParse s = some sampleUuid → UuidSpelling sampleUuid s :=
    fun s h => (uuidParse_eq_some.1 h).2
  have hnum : ∀ c : UInt8, Decimal.isDigit c = true → ValueText (.num [c]) [c] := fun c hc =>
    .num (@NumberToken.mk [] [c] [] [] (Or.inl rfl) (plain_digit hc) (Or.inl rfl) (Or.inl rfl))
  have ha : StringToken (ascii "a") (ascii "\x22a\x22") :=
    .mk (.cons (.raw 'a' (by decide) (by decide) (by decide)) .nil)
  have ha' : StringToken (ascii "a") (ascii "\x22\\u0061\x22") := by
    refine .mk (.cons (.unicode 'a' ⟨0x30, 0x30, 0x36, 0x31, 0, 0, 6, 1, rfl, ?_⟩) .nil)
    unfold HexDigit
    decide
  have hb : StringToken (ascii "b") (ascii "\x22b\x22") :=
    .mk (.cons (.raw 'b' (by decide) (by decide) (by decide)) .nil)
  have hws : Ws [] := nofun
  have hblank : Ws [0x20] := by unfold Ws; decide +kernel
  have hdoc : Text (.obj [(ascii "a", .num [0x31]), (ascii "b", .num [0x32])])
      (ascii "\x7b\x22a\x22:1,\x22b\x22:2\x7d") :=
    ⟨[], _, [], hws, .obj (.cons hws (.mk ha hws hws (hnum 0x31 (by decide))) hws
      (.one hws (.mk hb hws hws (hnum 0x32 (by decide))) hws)), hws, by decide⟩
  have hdoc' : Text (.obj [(ascii "b", .num [0x32]), (ascii "a", .num [0x31])])
      (ascii "\x7b\x22b\x22:2, \x22\\u0061\x22:1\x7d") :=
    ⟨[], _, [], hws, .obj (.cons hws (.mk hb hws hws (hnum 0x32 (by decide))) hws
      (.one hblank (.mk ha' hws hws (hnum 0x31 (by decide))) hws)), hws, by decide⟩
  have hrespelled : Doc.Respelled (.obj [(ascii "a", .num [0x31]), (ascii "b", .num [0x32])])
      (.obj [(ascii "b", .num [0x32]), (ascii "a", .num [0x31])]) :=
    .reorder (by decide) (.cons (.mk (.refl _)) (.cons (.mk (.refl _)) .nil)) (List.Perm.swap _ _ _)
  exact proofVerify_respelling (consumesNumbers exactLibc_correct) h16 h16
    (hspells _ (by decide +kernel)) (hspells _ (by decide +kernel)) (hspells _ (by decide +kernel))
    (hspells _ (by decide +kernel)) hdoc hdoc' hrespelled (by decide) (by decide) _ _ _

/-- The empty object with so many blanks inside that the text passes 16 MiB. -/
def blankObject : Bytes := lbrace :: List.replicate (16 * 1024 * 1024) 0x20 ++ [rbrace]

/-- Blanks alone can change the status: past 16 MiB the dataset is refused, unread. -/
theorem proofVerify_respelling_oversized :
    Text (.obj []) (ascii "\x7b\x7d") ∧ Text (.obj []) blankObject ∧
      (proofVerify plainCrypto exactLibc (some []) (some [1])
        (some (ascii "00000000-0000-0000-0000-0000000000ab"))
        (some (ascii "00000000-0000-0000-0000-0000000000ab")) (some (ascii "fp"))
        (some (ascii "\x7b\x7d"))).ok = .ok false ∧
      Call.status (proofVerify plainCrypto exactLibc (some []) (some [1])
        (some (ascii "00000000-0000-0000-0000-0000000000ab"))
        (some (ascii "00000000-0000-0000-0000-0000000000ab")) (some (ascii "fp"))
        (some blankObject)).ok = some .invalidJson := by
  have hws : Ws [] := nofun
  have hblank : Ws (List.replicate (16 * 1024 * 1024) 0x20) :=
    fun c hc => by rw [List.eq_of_mem_replicate hc]; rfl
  refine ⟨⟨[], _, [], hws, .objNil hws, hws, rfl⟩,
    ⟨[], _, [], hws, .objNil hblank, hws, by rw [List.nil_append, List.append_nil]; rfl⟩,
    by decide +kernel, ?_⟩
  have hlong : ¬ blankObject.length ≤ maxReasonableLen := by
    unfold blankObject
    rw [List.length_append, List.length_cons, List.length_replicate]
    decide
  have hrefuse : ∀ v, (parse exactLibc (some blankObject)).ok ≠ .ok v := by
    rw [parse_too_long hlong]
    exact nofun
  have huuid : uuidNormalize (ascii "00000000-0000-0000-0000-0000000000ab") =
      some (ascii "00000000-0000-0000-0000-0000000000ab") := by decide +kernel
  obtain ⟨f, hf, hcode⟩ := parseDocument_refused "could not parse the dataset"
    "the dataset is not valid JSON: " hrefuse
  unfold proofVerify proofBuildPayload
  simp only [huuid]
  rw [if_neg (by decide), AllocE.ok_bind_of_error (AllocE.ok_bind_of_error hf)]
  exact congrArg some hcode

/-! ## Binding -/

/-- The same account, machine and fingerprint, and datasets equal up to the order of members. -/
structure ProofArgs.SameMeaning (L : Libc) (args args' : ProofArgs) : Prop where
  account : uuidParse args.accountId = uuidParse args'.accountId
  machine : uuidParse args.machineId = uuidParse args'.machineId
  fingerprint : args.fingerprint = args'.fingerprint
  dataset : ∀ v v', Reads L args.datasetJson v → Reads L args'.datasetJson v' → EqUpToOrder v v'

/-- The same account, machine and fingerprint, and datasets that differ, but not once a number that
    overflows to an infinity is read as `null`. -/
structure ProofArgs.Confusable (L : Libc) (args args' : ProofArgs) : Prop where
  account : uuidParse args.accountId = uuidParse args'.accountId
  machine : uuidParse args.machineId = uuidParse args'.machineId
  fingerprint : args.fingerprint = args'.fingerprint
  dataset : ∃ v v', Reads L args.datasetJson v ∧ Reads L args'.datasetJson v' ∧
    EqUpToOrder v.nullify v'.nullify ∧ ¬ EqUpToOrder v v'

theorem uuidParse_eq_of_normalize {s s' canonical : Bytes} (h : uuidNormalize s = some canonical)
    (h' : uuidNormalize s' = some canonical) : uuidParse s = uuidParse s' := by
  obtain ⟨uuid, h16, hspells, rfl⟩ := uuidNormalize_eq_some.1 h
  obtain ⟨uuid', h16', hspells', heq⟩ := uuidNormalize_eq_some.1 h'
  rw [uuidParse_eq_some.2 ⟨h16, hspells⟩, uuidParse_eq_some.2 ⟨h16', hspells'⟩,
    uuidFormat_inj h16 h16' heq]

/-- **One payload** for two tuples, said without the payload. -/
theorem payload_eq_iff (hL : L.Correct) {payload payload' : Bytes}
    (h : (proofBuildPayload L args).ok = .ok payload)
    (h' : (proofBuildPayload L args').ok = .ok payload') {v v' : Json}
    (hv : Reads L args.datasetJson v) (hv' : Reads L args'.datasetJson v') :
    payload = payload' ↔ uuidParse args.accountId = uuidParse args'.accountId ∧
      uuidParse args.machineId = uuidParse args'.machineId ∧ args.fingerprint = args'.fingerprint ∧
      EqUpToOrder v.nullify v'.nullify := by
  have hnum := consumesNumbers hL
  obtain ⟨a, m, w, ha, hm, hw, -, hwrite⟩ := (proofBuildPayload_eq_ok hnum).mp h
  obtain ⟨a', m', w', ha', hm', hw', -, hwrite'⟩ := (proofBuildPayload_eq_ok hnum).mp h'
  obtain rfl := hv.unique hnum hw
  obtain rfl := hv'.unique hnum hw'
  rw [← under_all_true] at hwrite hwrite'
  obtain rfl := write_text hwrite
  obtain rfl := write_text hwrite'
  rw [text_canonical_iff hL (distinctKeys_proofRoot hv.distinctKeys)
    (distinctKeys_proofRoot hv'.distinctKeys), nullify_proofRoot, nullify_proofRoot]
  constructor
  · intro heq
    obtain ⟨rfl, rfl, hfp, hdata⟩ := proofRoot_parts heq
    exact ⟨uuidParse_eq_of_normalize ha ha', uuidParse_eq_of_normalize hm hm', hfp, hdata⟩
  · rintro ⟨haccount, hmachine, hfp, hdata⟩
    rw [uuidNormalize, haccount, ← uuidNormalize, ha'] at ha
    rw [uuidNormalize, hmachine, ← uuidNormalize, hm'] at hm
    obtain rfl : a' = a := by injection ha
    obtain rfl : m' = m := by injection hm
    rw [hfp]
    exact eqUpToOrder_proofRoot hdata

/-- `tamga_proof_verify` with every argument there. -/
def ProofArgs.verify (args : ProofArgs) (C : Crypto) (L : Libc) (proof rsaPubkey : Bytes) : Call Bool :=
  proofVerify C L (some proof) (some rsaPubkey) (some args.accountId) (some args.machineId)
    (some args.fingerprint) (some args.datasetJson)

/-- A proof that holds carries a signature of the payload. -/
theorem verify_eq_true {args : ProofArgs} {proof rsaPubkey payload : Bytes}
    (hpayload : (proofBuildPayload L args).ok = .ok payload)
    (h : (args.verify C L proof rsaPubkey).ok = .ok true) :
    ∃ signature, ProofSignature proof signature ∧
      C.rsaVerifyPkcs1Sha256 rsaPubkey payload signature = true := by
  unfold ProofArgs.verify proofVerify at h
  dsimp only at h
  split at h
  · cases h
  obtain ⟨valid, hvalid, hiff⟩ := proofCheck_ok (C := C) proof rsaPubkey payload
  rw [AllocE.ok_bind_of_ok hpayload, hvalid] at h
  exact hiff.mp (Except.ok.inj h)

/-- **Binding.** Where both payloads are built, equal payloads have equal meanings exactly when the
    tuples are not confusable; and a proof that holds for both of two tuples that are not confusable
    and mean different things exhibits two texts with one SHA-256 digest. -/
theorem proofBuildPayload_binds_iff (hL : L.Correct) {Key : Type} (R : RsaArithmetic Key)
    (hrsa : C.rsaVerifyPkcs1Sha256 = rsaVerifyPkcs1Sha256 R C.sha256) {args args' : ProofArgs}
    {payload payload' : Bytes} (h : (proofBuildPayload L args).ok = .ok payload)
    (h' : (proofBuildPayload L args').ok = .ok payload') :
    ((payload = payload' → args.SameMeaning L args') ↔ ¬ args.Confusable L args') ∧
      (¬ args.Confusable L args' → ∀ proof rsaPubkey,
        (args.verify C L proof rsaPubkey).ok = .ok true →
        (args'.verify C L proof rsaPubkey).ok = .ok true →
        args.SameMeaning L args' ∨ payload ≠ payload' ∧ C.sha256 payload = C.sha256 payload') := by
  have hnum := consumesNumbers hL
  obtain ⟨-, -, v, -, -, hv, -, -⟩ := (proofBuildPayload_eq_ok hnum).mp h
  obtain ⟨-, -, v', -, -, hv', -, -⟩ := (proofBuildPayload_eq_ok hnum).mp h'
  have hpayload := payload_eq_iff hL h h' hv hv'
  have hbinds : (payload = payload' → args.SameMeaning L args') ↔ ¬ args.Confusable L args' := by
    constructor
    · rintro hbinds ⟨haccount, hmachine, hfp, w, w', hw, hw', hnull, hne⟩
      obtain rfl := hv.unique hnum hw
      obtain rfl := hv'.unique hnum hw'
      exact hne ((hbinds (hpayload.mpr ⟨haccount, hmachine, hfp, hnull⟩)).dataset v v' hv hv')
    · intro hconf heq
      obtain ⟨haccount, hmachine, hfp, hnull⟩ := hpayload.mp heq
      refine ⟨haccount, hmachine, hfp, fun w w' hw hw' => ?_⟩
      obtain rfl := hv.unique hnum hw
      obtain rfl := hv'.unique hnum hw'
      exact by_contra fun hne => hconf ⟨haccount, hmachine, hfp, v, v', hv, hv', hnull, hne⟩
  refine ⟨hbinds, fun hconf proof rsaPubkey hok hok' => ?_⟩
  by_cases heq : payload = payload'
  · exact Or.inl (hbinds.mpr hconf heq)
  · -- one signature was accepted for both payloads
    obtain ⟨signature, hsig, htrue⟩ := verify_eq_true h hok
    obtain ⟨signature', hsig', htrue'⟩ := verify_eq_true h' hok'
    obtain rfl := hsig.unique hsig'
    rw [hrsa] at htrue htrue'
    exact Or.inr ⟨heq, rsaVerifyPkcs1Sha256_digest R C.sha256 htrue htrue'⟩

/-- Datasets without a number that overflows are not confusable. -/
theorem not_confusable (hL : ConsumesNumbers L) {v v' : Json}
    (hv : Reads L args.datasetJson v) (hv' : Reads L args'.datasetJson v')
    (hfin : v.Every FiniteNumber) (hfin' : v'.Every FiniteNumber) : ¬ args.Confusable L args' := by
  rintro ⟨-, -, -, w, w', hw, hw', hnull, hne⟩
  obtain rfl := hv.unique hL hw
  obtain rfl := hv'.unique hL hw'
  rw [nullify_of_finite hfin, nullify_of_finite hfin'] at hnull
  exact hne hnull

def sampleArgs (dataset : String) : ProofArgs :=
  ⟨uuidFormat sampleUuid, uuidFormat sampleUuid, ascii "fp", ascii dataset⟩

/-- `{"a":0.1}` and `{"a":1e-1}`: one payload, and one meaning. -/
theorem proofBuildPayload_binds_tenth :
    (sampleArgs "\x7b\x22a\x22:0.1\x7d").SameMeaning exactLibc
      (sampleArgs "\x7b\x22a\x22:1e-1\x7d") := by
  have hnum := consumesNumbers exactLibc_correct
  have hread : Reads exactLibc (ascii "\x7b\x22a\x22:0.1\x7d")
      (.obj [(ascii "a", .double ⟨0x3FB999999999999A⟩)]) := (parse_eq_ok hnum).mp (by decide +kernel)
  have hread' : Reads exactLibc (ascii "\x7b\x22a\x22:1e-1\x7d")
      (.obj [(ascii "a", .double ⟨0x3FB999999999999A⟩)]) := (parse_eq_ok hnum).mp (by decide +kernel)
  have hfin : (Json.obj [(ascii "a", .double ⟨0x3FB999999999999A⟩)]).Every FiniteNumber := by
    simp [FiniteNumber]
    decide
  obtain ⟨payload, h⟩ : ∃ payload, (proofBuildPayload exactLibc
      (sampleArgs "\x7b\x22a\x22:0.1\x7d")).ok = .ok payload :=
    ⟨((proofBuildPayload exactLibc (sampleArgs "\x7b\x22a\x22:0.1\x7d")).ok.toOption.getD []),
      by decide +kernel⟩
  have heq : (proofBuildPayload exactLibc (sampleArgs "\x7b\x22a\x22:1e-1\x7d")).ok =
      (proofBuildPayload exactLibc (sampleArgs "\x7b\x22a\x22:0.1\x7d")).ok := by decide +kernel
  exact (proofBuildPayload_binds_iff (C := plainCrypto) exactLibc_correct plainRsa rfl h
    (heq.trans h)).1.mpr (not_confusable hnum hread hread' hfin hfin) rfl

/-- `{"a":1e999}` and `{"a":null}` have one payload, though one holds a number and the other none. -/
theorem proofBuildPayload_binds_overflow :
    (∃ payload, (proofBuildPayload exactLibc (sampleArgs "\x7b\x22a\x22:1e999\x7d")).ok = .ok payload ∧
        (proofBuildPayload exactLibc (sampleArgs "\x7b\x22a\x22:null\x7d")).ok = .ok payload) ∧
      ¬ (sampleArgs "\x7b\x22a\x22:1e999\x7d").SameMeaning exactLibc
        (sampleArgs "\x7b\x22a\x22:null\x7d") := by
  constructor
  · refine ⟨(proofBuildPayload exactLibc (sampleArgs "\x7b\x22a\x22:null\x7d")).ok.toOption.getD [], ?_, ?_⟩
    · decide +kernel
    · decide +kernel
  · intro h
    have hnum := consumesNumbers exactLibc_correct
    have hread : Reads exactLibc (ascii "\x7b\x22a\x22:1e999\x7d")
        (.obj [(ascii "a", .double (Double.make false Binary64.infinity))]) :=
      (parse_eq_ok hnum).mp (by decide +kernel)
    have hread' : Reads exactLibc (ascii "\x7b\x22a\x22:null\x7d") (.obj [(ascii "a", .null)]) :=
      (parse_eq_ok hnum).mp (by decide +kernel)
    obtain ⟨w, hw, hvw⟩ := (h.dataset _ _ hread hread').member List.mem_cons_self
    obtain rfl : w = .null := by simpa using hw
    cases hvw

end Tamga
