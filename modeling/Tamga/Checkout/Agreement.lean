import Tamga.Checkout.Label

/-!
# `Checkout.Agreement` — one plain certificate, read as either file

A plain Ed25519 certificate may stand in a licence file or in a machine file, and two pipelines that
were written apart decide it. Under one key they always agree. Under a key set they agree except on a
signature of the wrong length: the licence file is refused for it at once, the machine file goes on to
ask whose signature it might be, and tells the caller to fetch newer keys.
-/

namespace Tamga

open Alloc Base64 Json FileKind

variable {C : Crypto} {L : Libc} {body : Bytes} {cert : Cert}
  {licenseKey licenseKey' fingerprint fingerprint' : Option Bytes} {nowUnix : Int64}

/-! ## The same body in two envelopes -/

/-- The body between the markers of the format. -/
def FileKind.wrap (kind : FileKind) (body : Bytes) : Bytes :=
  kind.markers.first ++ body ++ kind.markers.last

theorem length_wrap (kind kind' : FileKind) (body : Bytes) :
    (kind.wrap body).length = (kind'.wrap body).length := by
  have hfirst : ∀ kind : FileKind, kind.markers.first.length = 28 := by
    intro kind
    cases kind <;> decide
  have hlast : ∀ kind : FileKind, kind.markers.last.length = 26 := by
    intro kind
    cases kind <;> decide
  unfold FileKind.wrap
  simp only [List.length_append, hfirst, hlast]

/-- `body` is the base64 text of a certificate whose algorithm is plain Ed25519. -/
structure PlainBody (L : Libc) (body : Bytes) (cert : Cert) : Prop where
  fields : ∃ document root, Spells (body.filter fun c => !pemIsSpace c) document ∧
    Reads L document root ∧ HasFields root cert
  alg : cert.alg = ascii "base64+ed25519+v2"

theorem PlainBody.certificate (h : PlainBody L body cert) (kind : FileKind) :
    Certificate L kind.markers (kind.wrap body) cert := by
  obtain ⟨document, root, hspells, hreads, hfields⟩ := h.fields
  have henvelope : Envelope kind.markers (kind.wrap body) (body.filter fun c => !pemIsSpace c) :=
    ⟨[], body, [], nofun, nofun, (List.append_nil _).symm, rfl⟩
  exact ⟨document, root, ⟨_, henvelope, hspells⟩, hreads, hfields⟩

theorem PlainBody.legal (h : PlainBody L body cert) (kind : FileKind) : kind.Alg cert false := by
  cases kind with
  | license => exact Or.inl ⟨h.alg, rfl⟩
  | machine => exact Or.inl ⟨h.alg.trans (by decide), rfl⟩

/-! ## The same payload -/

/-- No secret is asked for, and the two decoders are one. -/
theorem decodePayload_plain (kind kind' : FileKind) :
    kind.decodePayload C cert false licenseKey fingerprint =
      kind'.decodePayload C cert false licenseKey' fingerprint' := by
  have hplain : ∀ (kind : FileKind) (licenseKey fingerprint : Option Bytes),
      kind.decodePayload C cert false licenseKey fingerprint =
        decodeBase64 cert.enc "could not decode the payload" "the enc field is not valid base64" := by
    intro kind licenseKey fingerprint
    cases kind with
    | license => exact bind_pure _
    | machine => rfl
  rw [hplain, hplain]

theorem parseDocument_agrees (text : Bytes) (noMemory noMemory' malformed malformed' : String) :
    AllocE.Agrees Failure.code (parseDocument L text noMemory malformed).ok
      (parseDocument L text noMemory' malformed').ok := by
  rw [parseDocument_ok, parseDocument_ok]
  cases (parse L (some text)).ok with
  | ok document => exact .refl _
  | error e => cases e <;> rfl

/-- The two formats word their refusals differently and refuse alike. -/
theorem finish_agrees (texts texts' : FileTexts) (payload : Option Json) :
    AllocE.Agrees Failure.code (finish texts payload nowUnix).ok (finish texts' payload nowUnix).ok := by
  unfold finish
  split
  · exact .refl _
  split
  · rfl
  split
  · refine .bind ?_ fun _ _ => .refl _
    unfold Call.orFail
    rename_i members _
    rw [AllocE.ok_bind_of_ok (AllocE.ok_lift _), AllocE.ok_bind_of_ok (AllocE.ok_lift _)]
    cases (clone (.obj members)).ok <;> rfl
  · rfl

theorem verifyPayload_agrees (texts texts' : FileTexts) (keys : Option KeySet) (verified : Bool)
    (decode : Call Bytes) :
    AllocE.Agrees Failure.code (verifyPayload L texts keys verified decode nowUnix).ok
      (verifyPayload L texts' keys verified decode nowUnix).ok := by
  by_cases h : verified = false ∧ keys.isNone = true
  · unfold verifyPayload
    rw [if_pos h, if_pos h]
    rfl
  rw [verifyPayload_eq h, verifyPayload_eq h, AllocE.ok_bind_of_ok (Call.ok_attempt _),
    AllocE.ok_bind_of_ok (Call.ok_attempt _)]
  have hread : AllocE.Agrees Failure.code (readPayload L texts decode).ok
      (readPayload L texts' decode).ok :=
    .bind (.refl _) fun text _ => parseDocument_agrees text _ _ _ _
  match hx : (readPayload L texts decode).ok, hy : (readPayload L texts' decode).ok, hread with
  | .error f, .error g, hcode =>
    rw [afterProbe_error, afterProbe_error]
    exact gateFailure_code hcode
  | .ok payload, .ok _, rfl =>
    unfold afterProbe
    split
    · exact .refl _
    · exact finish_agrees texts texts' _

/-! ## The same signature -/

namespace VerifyCall

variable {call call' : VerifyCall} {pem pem' signature : Bytes} {encrypted encrypted' : Bool}

theorem run_too_long (hadmits : call.Admits) (h : pem.length > maxReasonableLen) :
    ∃ f, (call.run C L pem nowUnix).ok = .error f ∧ f.code = .lengthInvalid := by
  have hopen : (call.openFile L pem).ok = .error (errorSet .lengthInvalid
      (ascii "certificate length is zero or exceeds the accepted maximum")) := by
    have hmachine : ∀ scheme, (machineAlgSuffix scheme).isSome = true →
        (machineOpen L pem scheme).ok = .error (errorSet .lengthInvalid
          (ascii "certificate length is zero or exceeds the accepted maximum")) := by
      intro scheme hscheme
      obtain ⟨suffix, hsuffix⟩ := Option.isSome_iff_exists.mp hscheme
      unfold machineOpen openCert
      rw [hsuffix, pemExtract_too_long h]
      rfl
    cases call with
    | license | licenseKeySet =>
      unfold openFile licenseOpen openCert
      rw [pemExtract_too_long h]
      rfl
    | machine scheme => exact hmachine scheme hadmits.2
    | machineKeySet scheme =>
      exact hmachine scheme (by rw [show scheme = schemeEd25519Sign from hadmits]; rfl)
  rw [run_eq hadmits]
  exact ⟨_, AllocE.ok_bind_of_error hopen, rfl⟩

/-- A signature that is no base64 is called that by both formats. -/
theorem checkOpened_of_unspelled (hlen : cert.sig.length ≤ maxReasonableLen)
    (h : ∀ signature, ¬ Spells cert.sig signature) :
    ∃ f, (call.checkOpened C L nowUnix (cert, encrypted)).ok = .error f ∧
      f.code = .invalidBase64 := by
  have hdecode := @decodeBase64_ok cert.sig "could not decode the signature"
    "the signature field is not valid base64" hlen
  rw [Option.eq_none_iff_forall_ne_some.mpr fun s hs => h s (base64Decode_eq_some.1 hs)] at hdecode
  have hsig : (call.decodeSignature cert).ok = .error (errorSet .invalidBase64
      (ascii "the signature field is not valid base64")) := by
    cases call with
    | license | licenseKeySet => exact AllocE.ok_bind_of_error hdecode
    | machine | machineKeySet => exact hdecode
  exact ⟨_, AllocE.ok_bind_of_error hsig, rfl⟩

theorem too_long_agrees (hadmits : call.Admits) (hadmits' : call'.Admits)
    (h : pem.length > maxReasonableLen) (h' : pem'.length > maxReasonableLen) :
    AllocE.Agrees Failure.code (call.run C L pem nowUnix).ok (call'.run C L pem' nowUnix).ok := by
  obtain ⟨f, hf, hcode⟩ := run_too_long (C := C) (L := L) hadmits h
  obtain ⟨g, hg, hcode'⟩ := run_too_long (C := C) (L := L) hadmits' h'
  rw [hf, hg]
  exact hcode.trans hcode'.symm

theorem unspelled_agrees (hlen : cert.sig.length ≤ maxReasonableLen)
    (h : ∀ signature, ¬ Spells cert.sig signature) :
    AllocE.Agrees Failure.code (call.checkOpened C L nowUnix (cert, encrypted)).ok
      (call'.checkOpened C L nowUnix (cert, encrypted')).ok := by
  obtain ⟨f, hf, hcode⟩ := checkOpened_of_unspelled (C := C) (L := L) hlen h
  obtain ⟨g, hg, hcode'⟩ := checkOpened_of_unspelled (C := C) (L := L) hlen h
  rw [hf, hg]
  exact hcode.trans hcode'.symm

/-- A signature of the wrong length is called forged by the format that counts it. -/
theorem checkOpened_of_wrong_length (hlen : cert.sig.length ≤ maxReasonableLen)
    (h : Spells cert.sig signature) (hnot : ¬ call.SignatureText cert signature) :
    ∃ f, (call.checkOpened C L nowUnix (cert, encrypted)).ok = .error f ∧
      f.code = .signatureInvalid := by
  have hsig : ∃ f, (call.decodeSignature cert).ok = .error f ∧ f.code = .signatureInvalid := by
    cases call with
    | license | licenseKeySet =>
      have h64 : ¬ signature.length = ed25519SigLen := fun h64 => hnot ⟨h, h64⟩
      unfold decodeSignature licenseDecodeSignature
      dsimp only
      rw [AllocE.ok_bind_of_ok ((decodeBase64_eq_ok hlen).mpr h), if_neg h64]
      exact ⟨_, rfl, rfl⟩
    | machine | machineKeySet => exact absurd h hnot
  obtain ⟨f, hf, hcode⟩ := hsig
  exact ⟨f, AllocE.ok_bind_of_error hf, hcode⟩

end VerifyCall

open VerifyCall

theorem alg_keyCall {key : PublicKey} {encrypted : Bool} {kind : FileKind}
    (h : kind.Alg cert encrypted) :
    (kind.keyCall key licenseKey fingerprint).Alg cert encrypted := by
  cases kind with
  | license => exact h
  | machine => exact ⟨ascii "ed25519", rfl, h⟩

/-- A plain file comes as far as its certificate. -/
theorem PlainBody.run_keyCall (hL : ConsumesNumbers L) (h : PlainBody L body cert) (kind : FileKind)
    (key : PublicKey) (hsize : (kind.wrap body).length ≤ maxReasonableLen) :
    ((kind.keyCall key licenseKey fingerprint).run C L (kind.wrap body) nowUnix).ok =
      ((kind.keyCall key licenseKey fingerprint).checkOpened C L nowUnix (cert, false)).ok :=
  run_of_opened hL admits_keyCall hsize (by rw [markers_keyCall]; exact h.certificate kind)
    (alg_keyCall (h.legal kind))

theorem PlainBody.run_setCall (hL : ConsumesNumbers L) (h : PlainBody L body cert) (kind : FileKind)
    (set : KeySet) (hsize : (kind.wrap body).length ≤ maxReasonableLen) :
    ((kind.setCall set licenseKey fingerprint).run C L (kind.wrap body) nowUnix).ok =
      ((kind.setCall set licenseKey fingerprint).checkOpened C L nowUnix (cert, false)).ok :=
  run_of_opened hL admits_setCall hsize (by rw [markers_setCall]; exact h.certificate kind)
    (alg_setCall (h.legal kind))

/-- A signature of the wrong length hides that the payload names a key the set lacks. -/
def WrongLengthStaleKid (L : Libc) (set : KeySet) (body : Bytes) (cert : Cert) : Prop :=
  (license.wrap body).length ≤ maxReasonableLen ∧
    (∃ signature, Spells cert.sig signature ∧ signature.length ≠ 64) ∧
    ∃ plaintext payload kid, Spells cert.enc plaintext ∧ Reads L plaintext payload ∧
      payloadKid payload = some kid ∧ cstr kid ≠ [] ∧ ∀ entry ∈ set.entries, entry.keyId ≠ cstr kid

/-- A plain file is called forged unless it names a key the set lacks. -/
theorem staleKid_iff {set : KeySet} {code : ErrorCode}
    (hlabel : ∀ c, machine.FailureLabel C L set licenseKey fingerprint cert false c ↔ c = code)
    (hsize : (license.wrap body).length ≤ maxReasonableLen)
    (hsig : ∃ signature, Spells cert.sig signature ∧ signature.length ≠ 64) :
    code = .signatureInvalid ↔ ¬ WrongLengthStaleKid L set body cert := by
  have hsecret : ¬ machine.NeedsSecret cert false licenseKey fingerprint := fun h => nomatch h.1
  constructor
  · rintro rfl ⟨-, -, plaintext, payload, kid, hplain, hreads, hkid, hne, habsent⟩
    have hpayload : machine.Payload C L licenseKey fingerprint cert false payload :=
      ⟨plaintext, hplain, hreads⟩
    by_cases hunpublished : cstr kid = unpublishedKeyId
    · exact nomatch (hlabel _).mp (.unpublished hsecret hpayload hkid hne habsent hunpublished)
    · exact nomatch (hlabel _).mp (.unknown hsecret hpayload hkid hne habsent hunpublished)
  · intro hstale
    cases (hlabel code).mpr rfl with
    | secret h => exact absurd h hsecret
    | unreadable | unnamed | held => rfl
    | unpublished _ hpayload hkid hne habsent | unknown _ hpayload hkid hne habsent =>
      obtain ⟨plaintext, hplain, hreads⟩ := hpayload
      exact absurd ⟨hsize, hsig, plaintext, _, _, hplain, hreads, hkid, hne, habsent⟩ hstale

/-- **Under one key.** -/
theorem verifyAt_plain_agrees (hL : ConsumesNumbers L) (h : PlainBody L body cert) (key : PublicKey) :
    AllocE.Agrees Failure.code
      (license.verifyAt C L (license.wrap body) key licenseKey fingerprint nowUnix).ok
      (machine.verifyAt C L (machine.wrap body) key licenseKey' fingerprint' nowUnix).ok := by
  have hlen := (h.certificate license).length_le.2.1
  have hwrap := length_wrap license machine body
  rw [verifyAt_eq, verifyAt_eq]
  by_cases hsize : (license.wrap body).length ≤ maxReasonableLen
  swap
  · exact too_long_agrees admits_keyCall admits_keyCall (not_le.mp hsize)
      (hwrap ▸ not_le.mp hsize)
  rw [h.run_keyCall hL license key hsize, h.run_keyCall hL machine key (hwrap ▸ hsize)]
  by_cases hspells : ∃ signature, Spells cert.sig signature
  swap
  · exact unspelled_agrees hlen (not_exists.mp hspells)
  obtain ⟨signature, hspells⟩ := hspells
  have hmachine : (machine.keyCall key licenseKey' fingerprint').SignatureText cert signature := hspells
  rw [checkOpened_of_signature hlen hmachine]
  by_cases h64 : signature.length = 64
  · have hlicense : (license.keyCall key licenseKey fingerprint).SignatureText cert signature :=
      ⟨hspells, h64⟩
    have hverified : machineCheckSignature C schemeEd25519Sign key.val cert.enc signature =
        C.ed25519Verify key.val cert.enc signature := by
      unfold machineCheckSignature
      rw [if_pos rfl, if_neg (by rw [key.property]; simp [h64, ed25519SigLen])]
    rw [checkOpened_of_signature hlen hlicense, decodePayload_keyCall, decodePayload_keyCall,
      decodePayload_plain license machine]
    show AllocE.Agrees _ _ (verifyPayload L machineTexts none
      (machineCheckSignature C schemeEd25519Sign key.val cert.enc signature) _ nowUnix).ok
    rw [hverified]
    exact verifyPayload_agrees _ _ _ _ _
  · -- the machine file finds out in the check itself
    obtain ⟨f, hf, hcode⟩ := checkOpened_of_wrong_length (C := C) (L := L)
      hlen hspells (show ¬ (license.keyCall key licenseKey fingerprint).SignatureText cert signature from
        fun h => h64 h.2)
    have hfalse : machineCheckSignature C schemeEd25519Sign key.val cert.enc signature = false := by
      unfold machineCheckSignature
      rw [if_pos rfl, if_pos (Or.inr (show signature.length ≠ ed25519SigLen from h64))]
    rw [hf]
    show AllocE.Agrees _ _ (verifyPayload L machineTexts none
      (machineCheckSignature C schemeEd25519Sign key.val cert.enc signature) _ nowUnix).ok
    rw [hfalse, verifyPayload_unverified]
    exact hcode

/-- **Under a key set.** -/
theorem verifyAtWithKeySet_plain_agrees_iff (hL : ConsumesNumbers L) (h : PlainBody L body cert)
    (set : KeySet) :
    AllocE.Agrees Failure.code
        (license.verifyAtWithKeySet C L (license.wrap body) set licenseKey fingerprint nowUnix).ok
        (machine.verifyAtWithKeySet C L (machine.wrap body) set licenseKey' fingerprint' nowUnix).ok ↔
      ¬ WrongLengthStaleKid L set body cert := by
  have hlen := (h.certificate license).length_le.2.1
  have hwrap := length_wrap license machine body
  rw [verifyAtWithKeySet_eq, verifyAtWithKeySet_eq]
  by_cases hsize : (license.wrap body).length ≤ maxReasonableLen
  swap
  · exact iff_of_true (too_long_agrees admits_setCall admits_setCall (not_le.mp hsize)
      (hwrap ▸ not_le.mp hsize)) fun h => hsize h.1
  rw [h.run_setCall hL license set hsize, h.run_setCall hL machine set (hwrap ▸ hsize)]
  by_cases hspells : ∃ signature, Spells cert.sig signature
  swap
  · exact iff_of_true (unspelled_agrees hlen (not_exists.mp hspells)) fun ⟨_, ⟨s, hs, _⟩, _⟩ =>
      hspells ⟨s, hs⟩
  obtain ⟨signature, hspells⟩ := hspells
  have hmachine : (machine.setCall set licenseKey' fingerprint').SignatureText cert signature := hspells
  rw [checkOpened_of_signature hlen hmachine]
  simp only [texts_setCall, keys_setCall, decodePayload_setCall, verified_setCall]
  by_cases h64 : signature.length = 64
  · have hlicense : (license.setCall set licenseKey fingerprint).SignatureText cert signature :=
      ⟨hspells, h64⟩
    rw [checkOpened_of_signature hlen hlicense]
    simp only [texts_setCall, keys_setCall, decodePayload_setCall, verified_setCall]
    rw [decodePayload_plain license machine]
    refine iff_of_true (verifyPayload_agrees _ _ _ _ _) ?_
    rintro ⟨-, ⟨signature', hspells', hne⟩, -⟩
    have hsame := (base64Decode_eq_some.2 hspells).symm.trans (base64Decode_eq_some.2 hspells')
    rw [← Option.some.inj hsame] at hne
    exact hne h64
  · obtain ⟨f, hf, hcode⟩ := checkOpened_of_wrong_length (C := C) (L := L)
      hlen hspells (show ¬ (license.setCall set licenseKey fingerprint).SignatureText cert signature from
        fun h => h64 h.2)
    have hverifier : keySetFindVerifier C set cert.enc signature = false := by
      rw [← Bool.not_eq_true, keySetFindVerifier_iff]
      exact fun hverify => h64 hverify.1
    obtain ⟨g, hg, hlabel⟩ := verifyPayload_failureLabel hL machine C set licenseKey' fingerprint'
      nowUnix (h.certificate machine).length_le.1
    rw [hf, hverifier, hg, ← staleKid_iff hlabel hsize ⟨signature, hspells, h64⟩]
    show f.code = g.code ↔ _
    rw [hcode, eq_comm]

/-- **The two verifiers agree on a plain certificate.** Under one key they always do; under a key set
    they do unless the signature is base64 of something other than 64 bytes in a payload that names a
    key the set lacks. -/
theorem plain_agreement (hL : ConsumesNumbers L) (C : Crypto) (h : PlainBody L body cert)
    (licenseKey licenseKey' fingerprint : Option Bytes) (nowUnix : Int64) :
    (∀ key : PublicKey, AllocE.Agrees Failure.code
      (licenseFileVerifyAt C L (some (license.wrap body)) (some key) licenseKey nowUnix).ok
      (machineFileVerifyAt C L (some (machine.wrap body)) schemeEd25519Sign (some key.val) licenseKey'
        fingerprint nowUnix).ok) ∧
    ∀ set, AllocE.Agrees Failure.code
      (licenseFileVerifyAtWithKeySet C L (some (license.wrap body)) (some set) licenseKey nowUnix).ok
      (machineFileVerifyAtWithKeySet C L (some (machine.wrap body)) schemeEd25519Sign (some set)
        licenseKey' fingerprint nowUnix).ok ↔ ¬ WrongLengthStaleKid L set body cert :=
  ⟨@verifyAt_plain_agrees C L body cert licenseKey licenseKey' fingerprint fingerprint nowUnix hL h,
    @verifyAtWithKeySet_plain_agrees_iff C L body cert licenseKey licenseKey' fingerprint fingerprint
      nowUnix hL h⟩

/-- The body of the sample files. -/
def sampleText : Bytes := sampleBody.flatMap ascii

def sampleCert : Cert := ⟨sampleEnc, base64Encode sampleSignature, licenseAlgPlain⟩

theorem sampleText_plain : PlainBody halfLibc sampleText sampleCert := by
  have hcert : (certParse halfLibc (sampleText.filter fun c => !pemIsSpace c)).ok = .ok sampleCert := by
    decide +kernel
  have hlen : (sampleText.filter fun c => !pemIsSpace c).length ≤ maxReasonableLen := by
    decide +kernel
  exact ⟨(certParse_eq_ok (fun _ _ => rfl) hlen).mp hcert, rfl⟩

/-- The sample's signature has its 64 bytes. -/
theorem plain_agreement_sample :
    AllocE.Agrees Failure.code
      (licenseFileVerifyAtWithKeySet sampleCrypto halfLibc (some (license.wrap sampleText))
        (some otherSet) none 160).ok
      (machineFileVerifyAtWithKeySet sampleCrypto halfLibc (some (machine.wrap sampleText))
        schemeEd25519Sign (some otherSet) none none 160).ok := by
  have hagree := (plain_agreement (L := halfLibc) (fun _ _ => rfl) sampleCrypto sampleText_plain none
    none none 160).2 otherSet
  rw [hagree]
  rintro ⟨-, ⟨signature, hspells, hne⟩, -⟩
  have hdecode : base64Decode sampleCert.sig = some sampleSignature := by
    decide +kernel
  rw [base64Decode_eq_some.2 hspells] at hdecode
  exact hne (Option.some.inj hdecode ▸ by decide)

/-- A certificate with three bytes for a signature, and a payload that names the key `x`. -/
def shortSigned : Bytes :=
  ascii "eyJlbmMiOiJleUp0WlhSaElqcDdJbXRwWkNJNkluZ2lmWDA9Iiwic2lnIjoiQUFBQSIsImFsZyI6ImJh" ++
    ascii "c2U2NCtlZDI1NTE5K3YyIn0="

/-- The licence file is forged; the machine file is signed with a key the set has not caught up with. -/
theorem plain_agreement_shortSigned :
    (certParse halfLibc shortSigned).ok =
        .ok ⟨ascii "eyJtZXRhIjp7ImtpZCI6IngifX0=", ascii "AAAA", licenseAlgPlain⟩ ∧
      Call.status (licenseFileVerifyAtWithKeySet sampleCrypto halfLibc
        (some (license.wrap shortSigned)) (some otherSet) none 160).ok = some .signatureInvalid ∧
      Call.status (machineFileVerifyAtWithKeySet sampleCrypto halfLibc
        (some (machine.wrap shortSigned)) schemeEd25519Sign (some otherSet) none none 160).ok =
          some .unknownSigningKey := by
  decide +kernel

end Tamga
