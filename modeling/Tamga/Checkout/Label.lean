import Tamga.Checkout.Trust
import Tamga.Checkout.Truthful

/-!
# `Checkout.Label` — why a key set refuses a file no held key signed

A file that verifies under no key of a set is refused, and the payload is opened only to say why: a
secret is missing, the file is forged, the server has no published key, or the set is stale.
`FailureLabel` is that classification, said of the file, and `keySet_failureLabel` that the code
computes it: at every such file exactly one code applies, and it is the one returned.
-/

namespace Tamga

open Alloc Base64 Json

namespace FileKind

variable {kind : FileKind} {C : Crypto} {L : Libc} {pem : Bytes} {cert : Cert} {encrypted : Bool}
  {signature : Bytes} {set : KeySet} {licenseKey fingerprint : Option Bytes} {nowUnix : Int64}

/-! ## The file -/

/-- The legal algorithms of the format, a machine file under its Ed25519 scheme. -/
def Alg (kind : FileKind) (cert : Cert) (encrypted : Bool) : Prop :=
  match kind with
  | license => LicenseAlg cert encrypted
  | machine => MachineAlg (ascii "ed25519") cert encrypted

/-- The payload bytes of a certificate. -/
def Plaintext (kind : FileKind) (C : Crypto) (licenseKey fingerprint : Option Bytes) (cert : Cert)
    (encrypted : Bool) (plaintext : Bytes) : Prop :=
  match kind with
  | license => LicensePlaintext C licenseKey cert encrypted plaintext
  | machine => MachinePlaintext C licenseKey fingerprint cert encrypted plaintext

/-- `pem` is a file of admissible size whose certificate opens, with a signature of 64 bytes. -/
structure Opens (kind : FileKind) (L : Libc) (pem : Bytes) (cert : Cert) (encrypted : Bool)
    (signature : Bytes) : Prop where
  size : pem.length ≤ maxReasonableLen
  certificate : Certificate L kind.markers pem cert
  alg : kind.Alg cert encrypted
  sig : Spells cert.sig signature
  sigLength : signature.length = 64

theorem alg_setCall (h : kind.Alg cert encrypted) :
    (kind.setCall set licenseKey fingerprint).Alg cert encrypted := by
  cases kind with
  | license => exact h
  | machine => exact ⟨ascii "ed25519", rfl, h⟩

/-- With such a file the code gets as far as the signature check. -/
theorem Opens.run (hL : ConsumesNumbers L) (h : kind.Opens L pem cert encrypted signature) :
    (kind.verifyAtWithKeySet C L pem set licenseKey fingerprint nowUnix).ok =
      (verifyPayload L kind.texts (some set) (keySetFindVerifier C set cert.enc signature)
        (kind.decodePayload C cert encrypted licenseKey fingerprint) nowUnix).ok := by
  have hsig : (kind.setCall set licenseKey fingerprint).SignatureText cert signature := by
    cases kind with
    | license => exact ⟨h.sig, h.sigLength⟩
    | machine => exact h.sig
  rw [verifyAtWithKeySet_eq, VerifyCall.run_of_signature hL admits_setCall h.size
    (by rw [markers_setCall]; exact h.certificate) (alg_setCall h.alg) hsig]
  simp only [texts_setCall, keys_setCall, decodePayload_setCall, verified_setCall]

theorem decodePayload_eq_ok {plaintext : Bytes} (hlen : cert.enc.length ≤ maxReasonableLen) :
    (kind.decodePayload C cert encrypted licenseKey fingerprint).ok = .ok plaintext ↔
      kind.Plaintext C licenseKey fingerprint cert encrypted plaintext := by
  cases kind with
  | license => exact licenseDecodePayload_eq_ok hlen
  | machine => exact machineDecodePayload_eq_ok hlen

/-- The document the payload bytes spell. -/
def Payload (kind : FileKind) (C : Crypto) (L : Libc) (licenseKey fingerprint : Option Bytes)
    (cert : Cert) (encrypted : Bool) (payload : Json) : Prop :=
  ∃ plaintext, kind.Plaintext C licenseKey fingerprint cert encrypted plaintext ∧
    Reads L plaintext payload

theorem readPayload_eq_ok (hL : ConsumesNumbers L) {texts : FileTexts} {payload : Json}
    (hlen : cert.enc.length ≤ maxReasonableLen) :
    (readPayload L texts (kind.decodePayload C cert encrypted licenseKey fingerprint)).ok =
        .ok payload ↔
      kind.Payload C L licenseKey fingerprint cert encrypted payload := by
  unfold readPayload Payload
  simp only [AllocE.ok_bind_eq_ok, decodePayload_eq_ok hlen, parseDocument_eq_ok hL]

/-! ## A missing secret -/

/-- The caller has to bring a secret and did not. A licence file asks for it only once its `enc` is
    decoded, a machine file at once. -/
def NeedsSecret (kind : FileKind) (cert : Cert) (encrypted : Bool)
    (licenseKey fingerprint : Option Bytes) : Prop :=
  encrypted = true ∧
    match kind with
    | license => (∃ blob, Spells cert.enc blob) ∧ licenseKey = none
    | machine => licenseKey = none ∨ fingerprint = none

theorem decodePayload_of_needsSecret (hlen : cert.enc.length ≤ maxReasonableLen)
    (h : kind.NeedsSecret cert encrypted licenseKey fingerprint) :
    ∃ f, (kind.decodePayload C cert encrypted licenseKey fingerprint).ok = .error f ∧
      f.code = .nullArgument := by
  obtain ⟨rfl, h⟩ := h
  cases kind with
  | license =>
    obtain ⟨⟨blob, hblob⟩, rfl⟩ := h
    exact ⟨_, AllocE.ok_bind_of_ok ((decodeBase64_eq_ok hlen).mpr hblob), rfl⟩
  | machine =>
    cases licenseKey with
    | none => exact ⟨_, rfl, rfl⟩
    | some licenseKey =>
      cases fingerprint with
      | none => exact ⟨_, rfl, rfl⟩
      | some fingerprint => rcases h with ⟨⟨⟩⟩ | ⟨⟨⟩⟩

/-- Only a missing secret is reported as a missing argument. -/
theorem decodePayload_reports (hlen : cert.enc.length ≤ maxReasonableLen) :
    Call.Reports (fun c => c ∈ decodeCodes ∨
        kind.NeedsSecret cert encrypted licenseKey fingerprint ∧ c = .nullArgument)
      (kind.decodePayload C cert encrypted licenseKey fingerprint) := by
  cases kind with
  | license =>
    exact (licenseDecodePayload_reports hlen).mono fun _ h => h.imp_right fun h =>
      ⟨⟨h.1, h.2.1, h.2.2.1⟩, h.2.2.2⟩
  | machine =>
    exact (machineDecodePayload_reports hlen).mono fun _ h => h.imp_right fun h =>
      ⟨⟨h.1, h.2.1⟩, h.2.2⟩

theorem decodePayload_truthful (hlen : cert.enc.length ≤ maxReasonableLen) :
    Call.Truthful (kind.decodePayload C cert encrypted licenseKey fingerprint) := by
  refine (decodePayload_reports hlen).truthful ?_
  rintro (h | ⟨-, h⟩)
  · exact absurd h (by decide)
  · exact nomatch h

/-- An unreadable payload is blamed on a missing secret, or on nothing that is kept. -/
theorem readPayload_nullArgument_iff {texts : FileTexts} {f : Failure}
    (hlen : cert.enc.length ≤ maxReasonableLen)
    (hf : (readPayload L texts (kind.decodePayload C cert encrypted licenseKey fingerprint)).ok =
      .error f) :
    f.code = .nullArgument ↔ kind.NeedsSecret cert encrypted licenseKey fingerprint := by
  constructor
  · intro hcode
    by_contra h
    unfold readPayload at hf
    cases hdecode : (kind.decodePayload C cert encrypted licenseKey fingerprint).ok with
    | error g =>
      rw [AllocE.ok_bind_of_error hdecode] at hf
      obtain rfl := Except.error.inj hf
      rcases (decodePayload_reports hlen).code _ hdecode with hdecoded | ⟨hsecret, -⟩
      · rw [hcode] at hdecoded
        exact absurd hdecoded (by decide)
      · exact h hsecret
    | ok plaintext =>
      rw [AllocE.ok_bind_of_ok hdecode] at hf
      have hparse : f.code ∈ [ErrorCode.outOfMemory, .invalidJson] :=
        (parseDocument_failsWith fun _ h => h).of_ok hf
      rw [hcode] at hparse
      exact absurd hparse (by decide)
  · intro h
    obtain ⟨g, hg, hcode⟩ := decodePayload_of_needsSecret (C := C) hlen h
    unfold readPayload at hf
    rw [AllocE.ok_bind_of_error hg] at hf
    obtain rfl := Except.error.inj hf
    exact hcode

/-! ## The classification -/

/-- `code` is why a set refuses a file none of its keys signed. The `kid` counts up to its first
    U+0000, as everywhere in a set. -/
inductive FailureLabel (kind : FileKind) (C : Crypto) (L : Libc) (set : KeySet)
    (licenseKey fingerprint : Option Bytes) (cert : Cert) (encrypted : Bool) : ErrorCode → Prop
  | secret (h : kind.NeedsSecret cert encrypted licenseKey fingerprint) :
      FailureLabel kind C L set licenseKey fingerprint cert encrypted .nullArgument
  | unreadable (h : ¬ kind.NeedsSecret cert encrypted licenseKey fingerprint)
      (hpayload : ∀ payload, ¬ kind.Payload C L licenseKey fingerprint cert encrypted payload) :
      FailureLabel kind C L set licenseKey fingerprint cert encrypted .signatureInvalid
  | unnamed {payload : Json} (h : ¬ kind.NeedsSecret cert encrypted licenseKey fingerprint)
      (hpayload : kind.Payload C L licenseKey fingerprint cert encrypted payload)
      (hkid : ∀ kid, payloadKid payload = some kid → cstr kid = []) :
      FailureLabel kind C L set licenseKey fingerprint cert encrypted .signatureInvalid
  | held {payload : Json} {kid : Bytes} {entry : KeySetEntry}
      (h : ¬ kind.NeedsSecret cert encrypted licenseKey fingerprint)
      (hpayload : kind.Payload C L licenseKey fingerprint cert encrypted payload)
      (hkid : payloadKid payload = some kid) (hne : cstr kid ≠ [])
      (hentry : entry ∈ set.entries) (hid : entry.keyId = cstr kid) :
      FailureLabel kind C L set licenseKey fingerprint cert encrypted .signatureInvalid
  | unpublished {payload : Json} {kid : Bytes}
      (h : ¬ kind.NeedsSecret cert encrypted licenseKey fingerprint)
      (hpayload : kind.Payload C L licenseKey fingerprint cert encrypted payload)
      (hkid : payloadKid payload = some kid) (hne : cstr kid ≠ [])
      (habsent : ∀ entry ∈ set.entries, entry.keyId ≠ cstr kid)
      (hunpublished : cstr kid = unpublishedKeyId) :
      FailureLabel kind C L set licenseKey fingerprint cert encrypted .signingKeyNotPublished
  | unknown {payload : Json} {kid : Bytes}
      (h : ¬ kind.NeedsSecret cert encrypted licenseKey fingerprint)
      (hpayload : kind.Payload C L licenseKey fingerprint cert encrypted payload)
      (hkid : payloadKid payload = some kid) (hne : cstr kid ≠ [])
      (habsent : ∀ entry ∈ set.entries, entry.keyId ≠ cstr kid)
      (hunpublished : cstr kid ≠ unpublishedKeyId) :
      FailureLabel kind C L set licenseKey fingerprint cert encrypted .unknownSigningKey

theorem Payload.unique (hL : ConsumesNumbers L) (hlen : cert.enc.length ≤ maxReasonableLen)
    {payload payload' : Json} (h : kind.Payload C L licenseKey fingerprint cert encrypted payload)
    (h' : kind.Payload C L licenseKey fingerprint cert encrypted payload') : payload = payload' := by
  have hread := (@readPayload_eq_ok kind C L cert encrypted licenseKey fingerprint hL kind.texts
    payload hlen).mpr h
  exact Except.ok.inj (hread.symm.trans ((readPayload_eq_ok hL hlen).mpr h'))

/-- **A readable payload.** The label follows from the `kid` alone. -/
theorem failureLabel_payload (hL : ConsumesNumbers L) (hlen : cert.enc.length ≤ maxReasonableLen)
    {payload : Json} (hsecret : ¬ kind.NeedsSecret cert encrypted licenseKey fingerprint)
    (hpayload : kind.Payload C L licenseKey fingerprint cert encrypted payload) (code : ErrorCode) :
    kind.FailureLabel C L set licenseKey fingerprint cert encrypted code ↔
      code = labelCode set ((payloadKid payload).map cstr) := by
  constructor
  · intro h
    cases h with
    | secret h => exact absurd h hsecret
    | unreadable _ h => exact absurd hpayload (h payload)
    | unnamed _ h hkid =>
      obtain rfl := hpayload.unique hL hlen h
      cases hk : payloadKid payload with
      | none => rfl
      | some kid => rw [Option.map_some, hkid kid hk]; rfl
    | held _ h hkid hne hentry hid =>
      obtain rfl := hpayload.unique hL hlen h
      rw [hkid, Option.map_some,
        (labelCode_signatureInvalid hne).mpr (keySetLookup_isSome.2 ⟨_, hentry, hid⟩)]
    | unpublished _ h hkid hne habsent hunpublished =>
      obtain rfl := hpayload.unique hL hlen h
      rw [hkid, Option.map_some, labelCode_absent hne habsent, if_pos hunpublished]
    | unknown _ h hkid hne habsent hunpublished =>
      obtain rfl := hpayload.unique hL hlen h
      rw [hkid, Option.map_some, labelCode_absent hne habsent, if_neg hunpublished]
  · rintro rfl
    cases hk : payloadKid payload with
    | none => exact .unnamed hsecret hpayload (by simp [hk])
    | some kid =>
      rw [Option.map_some]
      by_cases hne : cstr kid = []
      · rw [hne]
        exact .unnamed hsecret hpayload (by simp [hk, hne])
      by_cases hheld : ∃ entry ∈ set.entries, entry.keyId = cstr kid
      · obtain ⟨entry, hentry, hid⟩ := hheld
        rw [(labelCode_signatureInvalid hne).mpr (keySetLookup_isSome.2 ⟨entry, hentry, hid⟩)]
        exact .held hsecret hpayload hk hne hentry hid
      have habsent : ∀ entry ∈ set.entries, entry.keyId ≠ cstr kid := by
        intro entry hentry hid
        exact hheld ⟨entry, hentry, hid⟩
      rw [labelCode_absent hne habsent]
      by_cases hunpublished : cstr kid = unpublishedKeyId
      · rw [if_pos hunpublished]
        exact .unpublished hsecret hpayload hk hne habsent hunpublished
      · rw [if_neg hunpublished]
        exact .unknown hsecret hpayload hk hne habsent hunpublished

/-- **An unreadable payload.** A secret is missing, or the file counts as forged. -/
theorem failureLabel_unreadable
    (hpayload : ∀ payload, ¬ kind.Payload C L licenseKey fingerprint cert encrypted payload)
    (code : ErrorCode) :
    kind.FailureLabel C L set licenseKey fingerprint cert encrypted code ↔
      kind.NeedsSecret cert encrypted licenseKey fingerprint ∧ code = .nullArgument ∨
        ¬ kind.NeedsSecret cert encrypted licenseKey fingerprint ∧ code = .signatureInvalid := by
  constructor
  · intro h
    cases h with
    | secret h => exact Or.inl ⟨h, rfl⟩
    | unreadable h _ => exact Or.inr ⟨h, rfl⟩
    | unnamed _ h | held _ h | unpublished _ h | unknown _ h => exact absurd h (hpayload _)
  · rintro (⟨h, rfl⟩ | ⟨h, rfl⟩)
    · exact .secret h
    · exact .unreadable h hpayload

end FileKind

open FileKind

variable {L : Libc} {pem : Bytes} {cert : Cert} {encrypted : Bool} {signature : Bytes}

/-- Once the signature is found to be no held key's, the status is the label's. -/
theorem verifyPayload_failureLabel (hL : ConsumesNumbers L) (kind : FileKind) (C : Crypto)
    (set : KeySet) (licenseKey fingerprint : Option Bytes) (nowUnix : Int64)
    (hlen : cert.enc.length ≤ maxReasonableLen) :
    ∃ f, (verifyPayload L kind.texts (some set) false
        (kind.decodePayload C cert encrypted licenseKey fingerprint) nowUnix).ok = .error f ∧
      ∀ code, kind.FailureLabel C L set licenseKey fingerprint cert encrypted code ↔
        code = f.code := by
  cases hread : (readPayload L kind.texts
      (kind.decodePayload C cert encrypted licenseKey fingerprint)).ok with
  | ok payload =>
    have hpayload := (readPayload_eq_ok hL hlen).mp hread
    have hsecret : ¬ kind.NeedsSecret cert encrypted licenseKey fingerprint := by
      intro h
      obtain ⟨g, hg, -⟩ := decodePayload_of_needsSecret (C := C) hlen h
      obtain ⟨plaintext, hplain, -⟩ := hpayload
      rw [(decodePayload_eq_ok hlen).mpr hplain] at hg
      cases hg
    obtain ⟨f, hf, hcode⟩ := keySetLabelFailure_payload set payload
    refine ⟨f, verifyPayload_label (hread ▸ hf), fun code => ?_⟩
    rw [failureLabel_payload hL hlen hsecret hpayload, hcode, claimsKeyId_payload]
  | error g =>
    have hpayload : ∀ payload,
        ¬ kind.Payload C L licenseKey fingerprint cert encrypted payload := by
      intro payload h
      rw [(readPayload_eq_ok hL hlen).mpr h] at hread
      cases hread
    have hmemory : g.code ≠ .outOfMemory := readPayload_truthful (decodePayload_truthful hlen) g hread
    have hsecret := readPayload_nullArgument_iff hlen hread
    have hgate : keySetLabelFailure (some set) (.error g) = .error (gateFailure false g) :=
      @payloadGate_error (some set) false g
    refine ⟨gateFailure false g, verifyPayload_label (hread ▸ hgate), fun code => ?_⟩
    rw [failureLabel_unreadable hpayload, ← hsecret]
    unfold gateFailure
    by_cases hnull : g.code = .nullArgument
    · simp [hnull]
    · simp [hnull, hmemory, errorSet]

/-- **The label of a refused file.** Of a file that opens, with a signature no held key verifies, exactly
    one label holds, and its code is the status. -/
theorem keySet_failureLabel (hL : ConsumesNumbers L) (kind : FileKind) (C : Crypto) (set : KeySet)
    (licenseKey fingerprint : Option Bytes) (nowUnix : Int64)
    (hopens : kind.Opens L pem cert encrypted signature)
    (hunsigned : ∀ key, set.Holds key → C.ed25519Verify key.val cert.enc signature = false) :
    ∃ f, (kind.verifyAtWithKeySet C L pem set licenseKey fingerprint nowUnix).ok = .error f ∧
      ∀ code, kind.FailureLabel C L set licenseKey fingerprint cert encrypted code ↔
        code = f.code := by
  have hverifier : keySetFindVerifier C set cert.enc signature = false := by
    rw [← Bool.not_eq_true, keySetFindVerifier_iff]
    rintro ⟨-, key, hheld, hverify⟩
    rw [hunsigned key hheld] at hverify
    cases hverify
  rw [hopens.run hL, hverifier]
  exact verifyPayload_failureLabel hL kind C set licenseKey fingerprint nowUnix
    hopens.certificate.length_le.1

/-- A set whose one key did not sign the sample. -/
def otherSet : KeySet := ⟨[⟨ascii "k", ⟨List.replicate 32 0, rfl⟩⟩], 4⟩

/-- The sample names no `kid`. -/
theorem keySet_failureLabel_sample :
    ∃ f, (license.verifyAtWithKeySet sampleCrypto halfLibc licenseSample otherSet none none 160).ok =
      .error f ∧ ∃ cert, ∀ code,
        license.FailureLabel sampleCrypto halfLibc otherSet none none cert false code ↔ code = f.code := by
  have hopen : (licenseOpen halfLibc licenseSample).ok =
      .ok (⟨sampleEnc, base64Encode sampleSignature, licenseAlgPlain⟩, false) := by
    decide +kernel
  obtain ⟨hsize, hcert, halg⟩ := (licenseOpen_eq_ok fun _ _ => rfl).mp hopen
  have hsig : base64Decode (base64Encode sampleSignature) = some sampleSignature := by decide +kernel
  have hopens : license.Opens halfLibc licenseSample _ false sampleSignature :=
    ⟨hsize, hcert, halg, base64Decode_eq_some.1 hsig, by decide⟩
  obtain ⟨f, hf, hlabel⟩ := keySet_failureLabel (fun _ _ => rfl) license sampleCrypto otherSet none none
    160 hopens (by
      rintro key ⟨entry, hentry, rfl⟩
      obtain rfl := List.mem_singleton.mp hentry
      decide)
  exact ⟨f, hf, _, hlabel⟩

end Tamga
