import Tamga.Checkout.Machine

/-!
# `Checkout.Accept` — the four verification calls, and which files they accept

A licence file or a machine file is verified under one key or under a key set. `VerifyCall` is a call
of one of the four entry points, without the file and the clock. They are one program
(`VerifyCall.run_eq`): open the certificate, decode its signature, check it, and go on to the payload;
so what they accept is said and proved once (`VerifyCall.run_eq_ok`). For one key that is
`licenseFileVerifyAt_spec` and `machineFileVerifyAt_spec`.
-/

namespace Tamga

open Alloc Base64 Json

variable {C : Crypto} {L : Libc} {pem : Bytes} {cert : Cert} {encrypted : Bool}
  {signature plaintext : Bytes} {payload resource : Json} {nowUnix : Int64}

/-! ## The entry points -/

/-- A verification call: which function, with which keys and secrets. -/
inductive VerifyCall : Type where
  | license (key : PublicKey) (licenseKey : Option Bytes)
  | licenseKeySet (set : KeySet) (licenseKey : Option Bytes)
  | machine (scheme : UInt32) (pubkey : Bytes) (licenseKey fingerprint : Option Bytes)
  | machineKeySet (scheme : UInt32) (set : KeySet) (licenseKey fingerprint : Option Bytes)

namespace VerifyCall

def run (C : Crypto) (L : Libc) (pem : Bytes) (nowUnix : Int64) :
    VerifyCall → Call (Json × FileClaims)
  | license key licenseKey => licenseFileVerifyAt C L (some pem) (some key) licenseKey nowUnix
  | licenseKeySet set licenseKey =>
      licenseFileVerifyAtWithKeySet C L (some pem) (some set) licenseKey nowUnix
  | machine scheme pubkey licenseKey fingerprint =>
      machineFileVerifyAt C L (some pem) scheme (some pubkey) licenseKey fingerprint nowUnix
  | machineKeySet scheme set licenseKey fingerprint =>
      machineFileVerifyAtWithKeySet C L (some pem) scheme (some set) licenseKey fingerprint nowUnix

def texts : VerifyCall → FileTexts
  | license _ _ | licenseKeySet _ _ => licenseTexts
  | machine _ _ _ _ | machineKeySet _ _ _ _ => machineTexts

def markers : VerifyCall → Markers
  | license _ _ | licenseKeySet _ _ => licenseMarkers
  | machine _ _ _ _ | machineKeySet _ _ _ _ => machineMarkers

/-- The key set that is asked, if it is one. -/
def keys : VerifyCall → Option KeySet
  | license _ _ | machine _ _ _ _ => none
  | licenseKeySet set _ | machineKeySet _ set _ _ => some set

/-- The arguments are such that the file is looked at. -/
def Admits : VerifyCall → Prop
  | license _ _ | licenseKeySet _ _ => True
  | machine scheme pubkey _ _ =>
      (0 < pubkey.length ∧ pubkey.length ≤ maxReasonableLen) ∧ (machineAlgSuffix scheme).isSome = true
  | machineKeySet scheme _ _ _ => scheme = schemeEd25519Sign

/-- The legal algorithms of the file. -/
def Alg (cert : Cert) (encrypted : Bool) : VerifyCall → Prop
  | license _ _ | licenseKeySet _ _ => LicenseAlg cert encrypted
  | machine scheme _ _ _ | machineKeySet scheme _ _ _ =>
      ∃ suffix, machineAlgSuffix scheme = some suffix ∧ MachineAlg suffix cert encrypted

/-- The bytes of the signature; a licence file's are counted before they are checked. -/
def SignatureText (cert : Cert) (signature : Bytes) : VerifyCall → Prop
  | license _ _ | licenseKeySet _ _ => Spells cert.sig signature ∧ signature.length = 64
  | machine _ _ _ _ | machineKeySet _ _ _ _ => Spells cert.sig signature

/-- The signature of a certificate verifies under the keys of the call. -/
def Signed (C : Crypto) (cert : Cert) : VerifyCall → Prop
  | license key _ => Ed25519Signed C key cert
  | licenseKeySet set _ | machineKeySet _ set _ _ => ∃ key, set.Holds key ∧ Ed25519Signed C key cert
  | machine scheme pubkey _ _ => MachineSigned C scheme pubkey cert

/-- The payload bytes of a certificate, under the secrets of the call. -/
def Plaintext (C : Crypto) (cert : Cert) (plaintext : Bytes) : VerifyCall → Prop
  | license _ licenseKey | licenseKeySet _ licenseKey =>
      ∃ encrypted, LicenseAlg cert encrypted ∧ LicensePlaintext C licenseKey cert encrypted plaintext
  | machine scheme pubkey licenseKey fingerprint =>
      0 < pubkey.length ∧ pubkey.length ≤ maxReasonableLen ∧
        ∃ suffix encrypted, machineAlgSuffix scheme = some suffix ∧ MachineAlg suffix cert encrypted ∧
          MachinePlaintext C licenseKey fingerprint cert encrypted plaintext
  | machineKeySet scheme _ licenseKey fingerprint =>
      scheme = schemeEd25519Sign ∧
        ∃ encrypted, MachineAlg (ascii "ed25519") cert encrypted ∧
          MachinePlaintext C licenseKey fingerprint cert encrypted plaintext

/-! ## One program -/

/-- `tamga_license_open`, `tamga_machine_open`. -/
def openFile (L : Libc) (pem : Bytes) : VerifyCall → Call (Cert × Bool)
  | license _ _ | licenseKeySet _ _ => licenseOpen L pem
  | machine scheme _ _ _ | machineKeySet scheme _ _ _ => machineOpen L pem scheme

def decodeSignature (cert : Cert) : VerifyCall → Call Bytes
  | license _ _ | licenseKeySet _ _ => licenseDecodeSignature cert
  | machine _ _ _ _ | machineKeySet _ _ _ _ =>
      decodeBase64 cert.sig "could not decode the signature" "the signature field is not valid base64"

def verified (C : Crypto) (enc signature : Bytes) : VerifyCall → Bool
  | license key _ => licenseVerified C none (some key) enc signature
  | licenseKeySet set _ => licenseVerified C (some set) none enc signature
  | machine scheme pubkey _ _ => machineVerified C scheme none (some pubkey) enc signature
  | machineKeySet scheme set _ _ => machineVerified C scheme (some set) none enc signature

def decodePayload (C : Crypto) (cert : Cert) (encrypted : Bool) : VerifyCall → Call Bytes
  | license _ licenseKey | licenseKeySet _ licenseKey =>
      licenseDecodePayload C cert encrypted licenseKey
  | machine _ _ licenseKey fingerprint | machineKeySet _ _ licenseKey fingerprint =>
      machineDecodePayload C cert encrypted licenseKey fingerprint

/-- What follows once the certificate is open. -/
def checkOpened (C : Crypto) (L : Libc) (nowUnix : Int64) (call : VerifyCall) (opened : Cert × Bool) :
    Call (Json × FileClaims) := do
  let signature ← call.decodeSignature opened.1
  verifyPayload L call.texts call.keys (call.verified C opened.1.enc signature)
    (call.decodePayload C opened.1 opened.2) nowUnix

variable {call : VerifyCall}

/-- **The four calls are one program**, once their arguments are accepted. -/
theorem run_eq (h : call.Admits) :
    call.run C L pem nowUnix = call.openFile L pem >>= call.checkOpened C L nowUnix := by
  cases call with
  | license key licenseKey =>
    show licenseFileVerifyCore C L (some pem) (some key) none licenseKey nowUnix = _
    unfold licenseFileVerifyCore
    dsimp only
    rw [if_neg (by simp)]
    rfl
  | licenseKeySet set licenseKey =>
    show licenseFileVerifyCore C L (some pem) none (some set) licenseKey nowUnix = _
    unfold licenseFileVerifyCore
    dsimp only
    rw [if_neg (by simp)]
    rfl
  | machine scheme pubkey licenseKey fingerprint =>
    have hrefused : ¬ machineKeyRefused none (some pubkey) := by
      rintro ⟨-, hlen⟩
      have := h.1
      simp only [Option.getD_some] at hlen
      omega
    show machineFileVerifyCore C L (some pem) scheme (some pubkey) none licenseKey fingerprint
      nowUnix = _
    unfold machineFileVerifyCore
    dsimp only
    rw [if_neg (by simp), if_neg hrefused]
    rfl
  | machineKeySet scheme set licenseKey fingerprint =>
    obtain rfl : scheme = schemeEd25519Sign := h
    show machineFileVerifyCore C L (some pem) schemeEd25519Sign none (some set) licenseKey fingerprint
      nowUnix = _
    unfold machineFileVerifyCore
    dsimp only
    rw [if_neg (by simp), if_neg (fun h => absurd h.1 (by simp))]
    rfl

/-- Other arguments are refused, whatever the file and the library. -/
theorem run_refused (h : ¬ call.Admits) : ∃ f : Failure,
    f.code ∈ [ErrorCode.lengthInvalid, .unsupportedScheme, .keyIdNotApplicable] ∧
      ∀ L pem nowUnix, call.run C L pem nowUnix = throwThe Failure f := by
  cases call with
  | license | licenseKeySet => exact absurd trivial h
  | machine scheme pubkey licenseKey fingerprint =>
    by_cases hlen : 0 < pubkey.length ∧ pubkey.length ≤ maxReasonableLen
    · have hsuffix : machineAlgSuffix scheme = none := by
        cases hs : machineAlgSuffix scheme with
        | none => rfl
        | some suffix => exact absurd ⟨hlen, by rw [hs]; rfl⟩ h
      refine ⟨errorSet .unsupportedScheme
        (ascii "this signing scheme is not valid for a machine file"), by simp [errorSet], ?_⟩
      intro L pem nowUnix
      show machineFileVerifyCore C L (some pem) scheme (some pubkey) none licenseKey fingerprint
        nowUnix = _
      unfold machineFileVerifyCore machineOpen
      dsimp only
      rw [if_neg (by simp), if_neg (by rintro ⟨-, h⟩; simp only [Option.getD_some] at h; omega),
        hsuffix]
      rfl
    · refine ⟨errorSet .lengthInvalid
        (ascii "public key length is zero or exceeds the accepted maximum"), by simp [errorSet], ?_⟩
      intro L pem nowUnix
      show machineFileVerifyCore C L (some pem) scheme (some pubkey) none licenseKey fingerprint
        nowUnix = _
      unfold machineFileVerifyCore
      dsimp only
      rw [if_neg (by simp), if_pos ⟨rfl, by simp only [Option.getD_some]; omega⟩]
      rfl
  | machineKeySet scheme set licenseKey fingerprint =>
    show ∃ f : Failure, _ ∧ ∀ L pem nowUnix,
      machineFileVerifyAtWithKeySet C L (some pem) scheme (some set) licenseKey fingerprint nowUnix = _
    unfold machineFileVerifyAtWithKeySet
    dsimp only
    simp only [if_pos (show scheme ≠ schemeEd25519Sign from h)]
    cases machineAlgSuffix scheme with
    | none => exact ⟨_, by simp [errorSet], fun _ _ _ => rfl⟩
    | some suffix => exact ⟨_, by simp [errorSet], fun _ _ _ => rfl⟩

/-! ## The steps in terms of the file -/

theorem openFile_eq_ok (hL : ConsumesNumbers L) :
    (call.openFile L pem).ok = .ok (cert, encrypted) ↔
      pem.length ≤ maxReasonableLen ∧ Certificate L call.markers pem cert ∧ call.Alg cert encrypted := by
  have hmachine : ∀ scheme, (machineOpen L pem scheme).ok = .ok (cert, encrypted) ↔
      pem.length ≤ maxReasonableLen ∧ Certificate L machineMarkers pem cert ∧
        ∃ suffix, machineAlgSuffix scheme = some suffix ∧ MachineAlg suffix cert encrypted := by
    intro scheme
    rw [machineOpen_eq_ok hL]
    exact ⟨fun ⟨suffix, h, hlen, hcert, halg⟩ => ⟨hlen, hcert, suffix, h, halg⟩,
      fun ⟨hlen, hcert, suffix, h, halg⟩ => ⟨suffix, h, hlen, hcert, halg⟩⟩
  cases call with
  | license | licenseKeySet => exact licenseOpen_eq_ok hL
  | machine scheme | machineKeySet scheme => exact hmachine scheme

/-- The codes of a file that does not open. -/
def openCodes : List ErrorCode :=
  [.outOfMemory, .lengthInvalid, .invalidPem, .invalidBase64, .invalidJson, .unsupportedScheme]

theorem openFile_failsWith : Call.FailsWith openCodes (call.openFile L pem) := by
  have hmachine : ∀ scheme, Call.FailsWith openCodes (machineOpen L pem scheme) := by
    intro scheme
    unfold machineOpen
    split
    · exact .fail (by decide)
    · exact .bind (openCert_failsWith (by decide)) fun cert =>
        machineSettleAlg_reports.failsWith (by rintro _ rfl; decide) (by decide)
  cases call with
  | license | licenseKeySet =>
    exact .bind (openCert_failsWith (by decide)) fun cert =>
      licenseSettleAlg_reports.failsWith (by rintro _ rfl; decide) (by decide)
  | machine scheme | machineKeySet scheme => exact hmachine scheme

theorem decodeSignature_eq_ok (hlen : cert.sig.length ≤ maxReasonableLen) :
    (call.decodeSignature cert).ok = .ok signature ↔ call.SignatureText cert signature := by
  cases call with
  | license | licenseKeySet => exact licenseDecodeSignature_eq_ok hlen
  | machine | machineKeySet => exact decodeBase64_eq_ok hlen

theorem decodeSignature_reports (hlen : cert.sig.length ≤ maxReasonableLen) :
    Call.Reports (· ∈ [.invalidBase64, .signatureInvalid]) (call.decodeSignature cert) := by
  cases call with
  | license | licenseKeySet => exact licenseDecodeSignature_reports hlen
  | machine | machineKeySet => exact (decodeBase64_reports hlen).mono (by simp)

theorem decodePayload_reports (hlen : cert.enc.length ≤ maxReasonableLen) :
    Call.Reports (fun c => c ∈ decodeCodes ∨ c = .nullArgument)
      (call.decodePayload C cert encrypted) := by
  cases call with
  | license | licenseKeySet =>
    exact (licenseDecodePayload_reports hlen).mono fun _ h => h.imp_right fun h => h.2.2.2
  | machine | machineKeySet =>
    exact (machineDecodePayload_reports hlen).mono fun _ h => h.imp_right fun h => h.2.2

/-- Payload bytes, by way of the algorithm. -/
theorem plaintext_iff (hlen : cert.enc.length ≤ maxReasonableLen) :
    call.Plaintext C cert plaintext ↔
      call.Admits ∧ ∃ encrypted, call.Alg cert encrypted ∧
        (call.decodePayload C cert encrypted).ok = .ok plaintext := by
  cases call with
  | license _ licenseKey | licenseKeySet _ licenseKey =>
    have hdecode : ∀ encrypted, (licenseDecodePayload C cert encrypted licenseKey).ok = .ok plaintext ↔
        LicensePlaintext C licenseKey cert encrypted plaintext :=
      fun _ => licenseDecodePayload_eq_ok hlen
    simp only [Plaintext, Admits, Alg, decodePayload, hdecode, true_and]
  | machine scheme pubkey licenseKey fingerprint =>
    have hdecode : ∀ encrypted,
        (machineDecodePayload C cert encrypted licenseKey fingerprint).ok = .ok plaintext ↔
          MachinePlaintext C licenseKey fingerprint cert encrypted plaintext :=
      fun _ => machineDecodePayload_eq_ok hlen
    simp only [Plaintext, Admits, Alg, decodePayload, hdecode]
    constructor
    · rintro ⟨hpos, hmax, suffix, encrypted, hs, halg, h⟩
      exact ⟨⟨⟨hpos, hmax⟩, by rw [hs]; rfl⟩, encrypted, ⟨suffix, hs, halg⟩, h⟩
    · rintro ⟨⟨⟨hpos, hmax⟩, -⟩, encrypted, ⟨suffix, hs, halg⟩, h⟩
      exact ⟨hpos, hmax, suffix, encrypted, hs, halg, h⟩
  | machineKeySet scheme set licenseKey fingerprint =>
    have hdecode : ∀ encrypted,
        (machineDecodePayload C cert encrypted licenseKey fingerprint).ok = .ok plaintext ↔
          MachinePlaintext C licenseKey fingerprint cert encrypted plaintext :=
      fun _ => machineDecodePayload_eq_ok hlen
    simp only [Plaintext, Admits, Alg, decodePayload, hdecode]
    refine and_congr_right ?_
    rintro rfl
    simp [machineAlgSuffix]

/-- The check, in terms of the file. -/
theorem verified_iff (hsig : call.SignatureText cert signature) :
    call.verified C cert.enc signature = true ↔ call.Signed C cert := by
  have hspells : ∀ {s}, Spells cert.sig signature → Spells cert.sig s → s = signature := by
    intro s h h'
    exact Option.some.inj ((base64Decode_eq_some.2 h').symm.trans (base64Decode_eq_some.2 h))
  have hset : ∀ set : KeySet, Spells cert.sig signature →
      (keySetFindVerifier C set cert.enc signature = true ↔
        ∃ key, set.Holds key ∧ Ed25519Signed C key cert) := by
    intro set h
    rw [keySetFindVerifier_iff]
    constructor
    · rintro ⟨h64, key, hheld, hverify⟩
      exact ⟨key, hheld, signature, h, h64, hverify⟩
    · rintro ⟨key, hheld, s, hs, h64, hverify⟩
      rw [hspells h hs] at h64 hverify
      exact ⟨h64, key, hheld, hverify⟩
  cases call with
  | license key _ =>
    refine ⟨fun hverify => ⟨signature, hsig.1, hsig.2, hverify⟩, ?_⟩
    rintro ⟨s, hs, -, hverify⟩
    rwa [hspells hsig.1 hs] at hverify
  | licenseKeySet set _ => exact hset set hsig.1
  | machineKeySet _ set _ _ => exact hset set hsig
  | machine scheme pubkey _ _ =>
    refine ⟨fun hverify => ⟨signature, hsig, machineCheckSignature_iff.1 hverify⟩, ?_⟩
    rintro ⟨s, hs, hverify⟩
    rw [hspells hsig hs] at hverify
    exact machineCheckSignature_iff.2 hverify

theorem Signed.signatureText (h : call.Signed C cert) : ∃ signature, call.SignatureText cert signature := by
  cases call with
  | license => obtain ⟨s, hs, h64, -⟩ := h; exact ⟨s, hs, h64⟩
  | licenseKeySet => obtain ⟨_, -, s, hs, h64, -⟩ := h; exact ⟨s, hs, h64⟩
  | machine => obtain ⟨s, hs, -⟩ := h; exact ⟨s, hs⟩
  | machineKeySet => obtain ⟨_, -, s, hs, -⟩ := h; exact ⟨s, hs⟩

/-! ## After the certificate -/

/-- **A good signature.** The keys play no further part. -/
theorem checkOpened_of_signed (hlen : cert.sig.length ≤ maxReasonableLen) (h : call.Signed C cert) :
    (call.checkOpened C L nowUnix (cert, encrypted)).ok =
      match (readPayload L call.texts (call.decodePayload C cert encrypted)).ok with
      | .error f => .error f
      | .ok payload => (finish call.texts (some payload) nowUnix).ok := by
  obtain ⟨signature, hsig⟩ := h.signatureText
  rw [checkOpened, AllocE.ok_bind_of_ok ((decodeSignature_eq_ok hlen).mpr hsig),
    (verified_iff hsig).mpr h]
  exact verifyPayload_verified

/-- **A bad signature** is never accepted, and the code says nothing of the payload but its `kid`. -/
theorem checkOpened_of_unsigned (hlen : cert.sig.length ≤ maxReasonableLen)
    (h : ¬ call.Signed C cert) :
    ∃ f, (call.checkOpened C L nowUnix (cert, encrypted)).ok = .error f ∧
      f.code ∈ .invalidBase64 :: labelCodes := by
  cases hsig : (call.decodeSignature cert).ok with
  | error f =>
    refine ⟨f, AllocE.ok_bind_of_error hsig, ?_⟩
    rcases List.mem_cons.mp ((decodeSignature_reports hlen).code f hsig) with hcode | hcode
    · exact List.mem_cons.2 (Or.inl hcode)
    · exact List.mem_cons_of_mem _ (List.mem_singleton.mp hcode ▸ by decide)
  | ok signature =>
    have hfalse : call.verified C cert.enc signature = false := by
      rw [← Bool.not_eq_true, verified_iff ((decodeSignature_eq_ok hlen).mp hsig)]
      exact h
    rw [checkOpened, AllocE.ok_bind_of_ok hsig, hfalse]
    cases call.keys with
    | none =>
      exact ⟨_, congrArg AllocE.ok verifyPayload_unverified,
        show ErrorCode.signatureInvalid ∈ _ by decide⟩
    | some set =>
      obtain ⟨f, hf, hcode⟩ := verifyPayload_unlabelled
      exact ⟨f, hf, List.mem_cons_of_mem _ hcode⟩

/-- The run of a file that opens. -/
theorem run_of_opened (hL : ConsumesNumbers L) (hadmits : call.Admits)
    (hlen : pem.length ≤ maxReasonableLen) (hcert : Certificate L call.markers pem cert)
    (halg : call.Alg cert encrypted) :
    (call.run C L pem nowUnix).ok = (call.checkOpened C L nowUnix (cert, encrypted)).ok := by
  rw [run_eq hadmits, AllocE.ok_bind_of_ok ((openFile_eq_ok hL).mpr ⟨hlen, hcert, halg⟩)]

theorem checkOpened_of_signature (hlen : cert.sig.length ≤ maxReasonableLen)
    (hsig : call.SignatureText cert signature) :
    (call.checkOpened C L nowUnix (cert, encrypted)).ok =
      (verifyPayload L call.texts call.keys (call.verified C cert.enc signature)
        (call.decodePayload C cert encrypted) nowUnix).ok :=
  AllocE.ok_bind_of_ok ((decodeSignature_eq_ok hlen).mpr hsig)

/-- The run of a file that opens and has a signature. -/
theorem run_of_signature (hL : ConsumesNumbers L) (hadmits : call.Admits)
    (hlen : pem.length ≤ maxReasonableLen) (hcert : Certificate L call.markers pem cert)
    (halg : call.Alg cert encrypted) (hsig : call.SignatureText cert signature) :
    (call.run C L pem nowUnix).ok =
      (verifyPayload L call.texts call.keys (call.verified C cert.enc signature)
        (call.decodePayload C cert encrypted) nowUnix).ok :=
  (run_of_opened hL hadmits hlen hcert halg).trans
    (checkOpened_of_signature hcert.length_le.2.1 hsig)

/-- **Acceptance.** A resource comes out of exactly the files of admissible size that the keys of the
    call signed, whose payload is current and carries it. -/
theorem run_eq_ok (hL : ConsumesNumbers L) (hnow : 60 ≤ nowUnix.toInt) :
    (∃ fileClaims, (call.run C L pem nowUnix).ok = .ok (resource, fileClaims)) ↔
      pem.length ≤ maxReasonableLen ∧ ∃ cert plaintext payload, Certificate L call.markers pem cert ∧
        call.Signed C cert ∧ call.Plaintext C cert plaintext ∧ Reads L plaintext payload ∧
        CurrentPayload payload nowUnix resource := by
  constructor
  · rintro ⟨fileClaims, h⟩
    by_cases hadmits : call.Admits
    · rw [run_eq hadmits] at h
      obtain ⟨⟨cert, encrypted⟩, hopen, h⟩ := AllocE.ok_bind_eq_ok.1 h
      obtain ⟨hlen, hcert, halg⟩ := (openFile_eq_ok hL).mp hopen
      obtain ⟨signature, hsig, h⟩ := AllocE.ok_bind_eq_ok.1 h
      obtain ⟨hverified, plaintext, payload, hplain, hreads, hcurrent⟩ :=
        (verifyPayload_eq_ok hL hnow).mp ⟨fileClaims, h⟩
      exact ⟨hlen, cert, plaintext, payload, hcert,
        (verified_iff ((decodeSignature_eq_ok hcert.length_le.2.1).mp hsig)).mp hverified,
        (plaintext_iff hcert.length_le.1).mpr ⟨hadmits, encrypted, halg, hplain⟩, hreads, hcurrent⟩
    · obtain ⟨f, -, hf⟩ := run_refused hadmits
      rw [hf] at h
      cases h
  · rintro ⟨hlen, cert, plaintext, payload, hcert, hsigned, hplain, hreads, hcurrent⟩
    obtain ⟨hadmits, encrypted, halg, hplain⟩ := (plaintext_iff hcert.length_le.1).mp hplain
    obtain ⟨signature, hsig⟩ := hsigned.signatureText
    rw [run_of_signature hL hadmits hlen hcert halg hsig]
    exact (verifyPayload_eq_ok hL hnow).mpr
      ⟨(verified_iff hsig).mpr hsigned, plaintext, payload, hplain, hreads, hcurrent⟩

end VerifyCall

/-! ## One key -/

/-- **Acceptance** of a licence file. -/
theorem licenseFileVerifyAt_eq_ok (hL : ConsumesNumbers L) {key : PublicKey}
    {licenseKey : Option Bytes} (hnow : 60 ≤ nowUnix.toInt) (resource : Json) :
    (∃ fileClaims, (licenseFileVerifyAt C L (some pem) (some key) licenseKey nowUnix).ok =
      .ok (resource, fileClaims)) ↔
      pem.length ≤ maxReasonableLen ∧ LicenseAccepted C L pem key licenseKey nowUnix resource := by
  show (∃ fileClaims, (VerifyCall.run C L pem nowUnix (.license key licenseKey)).ok = _) ↔ _
  rw [VerifyCall.run_eq_ok hL hnow]
  refine and_congr_right fun _ => ?_
  constructor
  · rintro ⟨cert, plaintext, payload, hcert, hsigned, ⟨encrypted, halg, hplain⟩, hrest⟩
    exact ⟨cert, encrypted, plaintext, payload, hcert, halg, hsigned, hplain, hrest⟩
  · rintro ⟨cert, encrypted, plaintext, payload, hcert, halg, hsigned, hplain, hrest⟩
    exact ⟨cert, plaintext, payload, hcert, hsigned, ⟨encrypted, halg, hplain⟩, hrest⟩

/-- **A bad signature** is reported before the payload, the licence key or the clock is looked at. -/
theorem licenseFileVerifyAt_unsigned (hL : ConsumesNumbers L) {key : PublicKey}
    (hlen : pem.length ≤ maxReasonableLen) (hcert : Certificate L licenseMarkers pem cert)
    (halg : LicenseAlg cert encrypted) (h : ¬ Ed25519Signed C key cert) (licenseKey : Option Bytes)
    (nowUnix : Int64) :
    Call.status (licenseFileVerifyAt C L (some pem) (some key) licenseKey nowUnix).ok =
      some (if (base64Decode cert.sig).isSome then .signatureInvalid else .invalidBase64) := by
  have hsig := hcert.length_le.2.1
  have hopen : (licenseFileVerifyAt C L (some pem) (some key) licenseKey nowUnix).ok =
      ((VerifyCall.license key licenseKey).checkOpened C L nowUnix (cert, encrypted)).ok := by
    show (VerifyCall.run C L pem nowUnix (.license key licenseKey)).ok = _
    exact VerifyCall.run_of_opened hL trivial hlen hcert halg
  rw [hopen]
  cases hdecode : (licenseDecodeSignature cert).ok with
  | error f =>
    have hf : ((VerifyCall.license key licenseKey).checkOpened C L nowUnix (cert, encrypted)).ok =
      .error f := AllocE.ok_bind_of_error hdecode
    rw [hf]
    unfold licenseDecodeSignature at hdecode
    cases hbytes : base64Decode cert.sig with
    | none =>
      rw [AllocE.ok_bind_of_error (by rw [decodeBase64_ok hsig, hbytes]; rfl)] at hdecode
      rw [← Except.error.inj hdecode]
      rfl
    | some signature =>
      rw [AllocE.ok_bind_of_ok ((decodeBase64_eq_ok hsig).mpr (base64Decode_eq_some.1 hbytes))]
        at hdecode
      split at hdecode
      · cases hdecode
      · rw [← Except.error.inj hdecode]
        rfl
  | ok signature =>
    have hspells : (VerifyCall.license key licenseKey).SignatureText cert signature :=
      (licenseDecodeSignature_eq_ok hsig).mp hdecode
    have hverified : (VerifyCall.license key licenseKey).verified C cert.enc signature = false := by
      rw [← Bool.not_eq_true, VerifyCall.verified_iff hspells]
      exact h
    have hrest : ((VerifyCall.license key licenseKey).checkOpened C L nowUnix (cert, encrypted)).ok =
        _ := AllocE.ok_bind_of_ok hdecode
    rw [hrest, hverified, base64Decode_eq_some.2 hspells.1]
    exact congrArg (fun x : Call (Json × FileClaims) => Call.status x.ok) verifyPayload_unverified

/-- **Licence-file verification is exactly its specification.** A resource comes back iff the file is
    of admissible size and accepted; and when the signature check fails, the status is the same for
    every licence key and clock and depends on nothing of the file but its `sig`. -/
theorem licenseFileVerifyAt_spec (hL : ConsumesNumbers L) (pem : Bytes) (key : PublicKey)
    (licenseKey : Option Bytes) (nowUnix : Int64) (hnow : 60 ≤ nowUnix.toInt) :
    (∀ resource, (∃ fileClaims,
        (licenseFileVerifyAt C L (some pem) (some key) licenseKey nowUnix).ok =
          .ok (resource, fileClaims)) ↔
      pem.length ≤ 16 * 1024 * 1024 ∧ LicenseAccepted C L pem key licenseKey nowUnix resource) ∧
    (∀ cert encrypted, pem.length ≤ 16 * 1024 * 1024 → Certificate L licenseMarkers pem cert →
      LicenseAlg cert encrypted → ¬ Ed25519Signed C key cert → ∀ licenseKey nowUnix,
        Call.status (licenseFileVerifyAt C L (some pem) (some key) licenseKey nowUnix).ok =
          some (if (base64Decode cert.sig).isSome then .signatureInvalid else .invalidBase64)) :=
  ⟨licenseFileVerifyAt_eq_ok hL hnow,
    fun _ _ hlen hcert halg h => licenseFileVerifyAt_unsigned hL hlen hcert halg h⟩

/-- **Acceptance** of a machine file. -/
theorem machineFileVerifyAt_eq_ok (hL : ConsumesNumbers L) {scheme : UInt32} {pubkey : Bytes}
    {licenseKey fingerprint : Option Bytes} (hpos : 0 < pubkey.length)
    (hmax : pubkey.length ≤ maxReasonableLen) (hnow : 60 ≤ nowUnix.toInt) (resource : Json) :
    (∃ fileClaims, (machineFileVerifyAt C L (some pem) scheme (some pubkey) licenseKey fingerprint
        nowUnix).ok = .ok (resource, fileClaims)) ↔
      pem.length ≤ maxReasonableLen ∧
        MachineAccepted C L pem scheme pubkey licenseKey fingerprint nowUnix resource := by
  show (∃ fileClaims, (VerifyCall.run C L pem nowUnix
    (.machine scheme pubkey licenseKey fingerprint)).ok = _) ↔ _
  rw [VerifyCall.run_eq_ok hL hnow]
  refine and_congr_right fun _ => ?_
  constructor
  · rintro ⟨cert, plaintext, payload, hcert, hsigned, ⟨-, -, suffix, encrypted, hs, halg, hplain⟩, hrest⟩
    exact ⟨suffix, cert, encrypted, plaintext, payload, hs, hcert, halg, hsigned, hplain, hrest⟩
  · rintro ⟨suffix, cert, encrypted, plaintext, payload, hs, hcert, halg, hsigned, hplain, hrest⟩
    exact ⟨cert, plaintext, payload, hcert, hsigned,
      ⟨hpos, hmax, suffix, encrypted, hs, halg, hplain⟩, hrest⟩

/-- **The file does not choose the scheme.** Whatever key, licence key and clock, an `alg` that is not
    one of the two under the caller's scheme is unsupported. -/
theorem machineFileVerifyAt_otherAlg (hL : ConsumesNumbers L) {scheme : UInt32}
    {pubkey suffix : Bytes} (hpos : 0 < pubkey.length) (hmax : pubkey.length ≤ maxReasonableLen)
    (hlen : pem.length ≤ maxReasonableLen) (hscheme : machineAlgSuffix scheme = some suffix)
    (hcert : Certificate L machineMarkers pem cert)
    (halg : ∀ encrypted, ¬ MachineAlg suffix cert encrypted)
    (licenseKey fingerprint : Option Bytes) (nowUnix : Int64) :
    Call.status (machineFileVerifyAt C L (some pem) scheme (some pubkey) licenseKey fingerprint
      nowUnix).ok = some .unsupportedScheme := by
  have hrun := @VerifyCall.run_eq C L pem nowUnix (.machine scheme pubkey licenseKey fingerprint)
    ⟨⟨hpos, hmax⟩, by rw [hscheme]; rfl⟩
  have hsettle : (machineOpen L pem scheme).ok = (machineSettleAlg suffix cert).ok := by
    unfold machineOpen
    rw [hscheme]
    exact AllocE.ok_bind_of_ok ((openCert_eq_ok hL).mpr ⟨hlen, hcert⟩)
  cases hopen : (machineSettleAlg suffix cert).ok with
  | ok opened => exact absurd (machineSettleAlg_eq_ok.1 hopen).2 (halg _)
  | error f =>
    have hf : (VerifyCall.run C L pem nowUnix (.machine scheme pubkey licenseKey fingerprint)).ok =
      .error f := hrun ▸ AllocE.ok_bind_of_error (hsettle.trans hopen)
    exact (congrArg Call.status hf).trans (congrArg some (machineSettleAlg_reports.code f hopen))

/-- **Machine-file verification is exactly its specification**, and the scheme is the caller's: a
    resource comes back iff the file is of admissible size and accepted under that scheme; and a
    certificate whose `alg` is not one of the two names under it is refused as unsupported, whatever
    the signature, the keys, the payload and the clock. -/
theorem machineFileVerifyAt_spec (hL : ConsumesNumbers L) (pem : Bytes) (scheme : UInt32)
    (pubkey : Bytes) (hpos : 0 < pubkey.length) (hmax : pubkey.length ≤ 16 * 1024 * 1024)
    (licenseKey fingerprint : Option Bytes) (nowUnix : Int64) (hnow : 60 ≤ nowUnix.toInt) :
    (∀ resource, (∃ fileClaims, (machineFileVerifyAt C L (some pem) scheme (some pubkey) licenseKey
        fingerprint nowUnix).ok = .ok (resource, fileClaims)) ↔
      pem.length ≤ 16 * 1024 * 1024 ∧
        MachineAccepted C L pem scheme pubkey licenseKey fingerprint nowUnix resource) ∧
    (∀ cert suffix, pem.length ≤ 16 * 1024 * 1024 → machineAlgSuffix scheme = some suffix →
      Certificate L machineMarkers pem cert → (∀ encrypted, ¬ MachineAlg suffix cert encrypted) →
      ∀ licenseKey fingerprint nowUnix,
        Call.status (machineFileVerifyAt C L (some pem) scheme (some pubkey) licenseKey fingerprint
          nowUnix).ok = some .unsupportedScheme) :=
  ⟨machineFileVerifyAt_eq_ok hL hpos hmax hnow, fun _ _ hlen hscheme hcert halg =>
    machineFileVerifyAt_otherAlg hL hpos hmax hlen hscheme hcert halg⟩

/-! ### Two files, and the same files with too much whitespace behind them -/

/-- The public key of a test vector of RFC 8032. -/
def sampleKey : PublicKey :=
  ⟨[215, 90, 152, 1, 130, 177, 10, 183, 213, 75, 254, 211, 201, 100, 7, 58, 14, 225, 114, 243, 218,
    166, 35, 37, 175, 2, 26, 104, 247, 7, 81, 26], rfl⟩

/-- The base64 text of a payload that expires at second 100, with its signature under `sampleKey`. -/
def sampleEnc : Bytes := ascii "eyJtZXRhIjp7ImV4cCI6MTAwfSwiZGF0YSI6eyJpZCI6ImwifX0="

def sampleSignature : Bytes :=
  [71, 57, 52, 122, 245, 247, 82, 17, 209, 237, 136, 29, 179, 219, 183, 53, 22, 110, 247, 206, 92,
    227, 240, 155, 137, 154, 161, 188, 86, 144, 229, 191, 27, 224, 29, 75, 101, 12, 199, 104, 159,
    174, 97, 97, 79, 145, 108, 209, 224, 108, 224, 210, 89, 176, 199, 139, 38, 80, 166, 164, 181, 238,
    16, 7]

/-- Ed25519 on the one triple it is asked about. -/
def sampleCrypto : Crypto where
  ed25519Verify key message signature :=
    key = sampleKey.val && message = sampleEnc && signature = sampleSignature
  rsaVerifyPkcs1Sha256 _ _ _ := false
  rsaVerifyPssSha256 _ _ _ := false
  ecdsaP256Verify _ _ _ := false
  sha256 _ := []
  hmacSha256 _ _ := []
  gcmCrypt _ _ _ := []
  gcmTag _ _ _ _ := []

/-- The lines of a text file. -/
def textLines (lines : List String) : Bytes := lines.flatMap fun line => ascii line ++ [0x0A]

/-- The certificate of the sample files: `enc`, `sig` and `alg`, in base64. -/
def sampleBody : List String :=
  ["eyJlbmMiOiJleUp0WlhSaElqcDdJbVY0Y0NJNk1U",
    "QXdmU3dpWkdGMFlTSTZleUpwWkNJNkltd2lmWDA9",
    "Iiwic2lnIjoiUnprMGV2WDNVaEhSN1lnZHM5dTNO",
    "Ulp1OTg1YzQvQ2JpWnFodkZhUTViOGI0QjFMWlF6",
    "SGFKK3VZV0ZQa1d6UjRHemcwbG13eDRzbVVLYWt0",
    "ZTRRQnc9PSIsImFsZyI6ImJhc2U2NCtlZDI1NTE5",
    "K3YyIn0="]

def licenseSample : Bytes :=
  textLines (["-----BEGIN LICENSE FILE-----"] ++ sampleBody ++ ["-----END LICENSE FILE-----"])

def sampleResource : Json := .obj [(ascii "id", .str (ascii "l"))]

theorem licenseSample_ok :
    (licenseFileVerifyAt sampleCrypto halfLibc (some licenseSample) (some sampleKey) none 160).ok =
      .ok (sampleResource, ⟨0, some 100⟩) := by
  decide +kernel

/-- The sample is accepted until 60 seconds after its expiry. -/
theorem licenseFileVerifyAt_spec_sample :
    LicenseAccepted sampleCrypto halfLibc licenseSample sampleKey none 160 sampleResource := by
  have hspec := (licenseFileVerifyAt_spec (C := sampleCrypto) (L := halfLibc) (fun _ _ => rfl)
    licenseSample sampleKey none 160 (by decide)).1 sampleResource
  exact (hspec.mp ⟨_, licenseSample_ok⟩).2

/-- 16 MiB of blanks. -/
def blanks : Bytes := List.replicate (16 * 1024 * 1024) 0x20

theorem pemIsSpace_of_mem_blanks : ∀ c ∈ blanks, pemIsSpace c = true := by
  intro c hc
  rw [List.eq_of_mem_replicate hc]
  rfl

theorem length_append_blanks {text : Bytes} (h : 0 < text.length) :
    (text ++ blanks).length > maxReasonableLen := by
  unfold blanks maxReasonableLen
  rw [List.length_append, List.length_replicate]
  omega

/-- After trimming, the sample with blanks behind it is a good file; it is refused for its size. -/
theorem licenseFileVerifyAt_blanks :
    LicenseAccepted sampleCrypto halfLibc (licenseSample ++ blanks) sampleKey none 160
        sampleResource ∧
      (licenseFileVerifyAt sampleCrypto halfLibc (some (licenseSample ++ blanks)) (some sampleKey)
          none 160).ok =
        .error (errorSet .lengthInvalid
          (ascii "certificate length is zero or exceeds the accepted maximum")) := by
  constructor
  · obtain ⟨-, cert, encrypted, plaintext, payload, hcert, hrest⟩ :=
      (licenseFileVerifyAt_eq_ok (fun _ _ => rfl) (by decide) sampleResource).mp ⟨_, licenseSample_ok⟩
    exact ⟨cert, encrypted, plaintext, payload, hcert.append_space pemIsSpace_of_mem_blanks, hrest⟩
  · have hlong := length_append_blanks (show 0 < licenseSample.length by decide +kernel)
    generalize licenseSample ++ blanks = pem at hlong
    have hrun := @VerifyCall.run_eq sampleCrypto halfLibc pem 160 (.license sampleKey none) trivial
    refine (congrArg AllocE.ok hrun).trans (AllocE.ok_bind_of_error ?_)
    show (licenseOpen halfLibc pem).ok = _
    rw [licenseOpen, openCert, pemExtract_too_long hlong]
    rfl

def machineSample : Bytes :=
  textLines (["-----BEGIN MACHINE FILE-----"] ++ sampleBody ++ ["-----END MACHINE FILE-----"])

theorem machineSample_ok :
    (machineFileVerifyAt sampleCrypto halfLibc (some machineSample) schemeEd25519Sign
        (some sampleKey.val) none none 160).ok = .ok (sampleResource, ⟨0, some 100⟩) := by
  decide +kernel

/-- The sample is accepted under its scheme, and unsupported under another. -/
theorem machineFileVerifyAt_spec_sample :
    MachineAccepted sampleCrypto halfLibc machineSample schemeEd25519Sign sampleKey.val none none 160
        sampleResource ∧
      ∀ licenseKey fingerprint nowUnix,
        Call.status (machineFileVerifyAt sampleCrypto halfLibc (some machineSample)
          schemeRsa2048Pkcs1Sign (some sampleKey.val) licenseKey fingerprint nowUnix).ok =
            some .unsupportedScheme := by
  have hspec := fun scheme => machineFileVerifyAt_spec (C := sampleCrypto) (L := halfLibc)
    (fun _ _ => rfl) machineSample scheme sampleKey.val (by decide) (by decide) none none 160
    (by decide)
  obtain ⟨hlen, haccepted⟩ := ((hspec schemeEd25519Sign).1 sampleResource).mp ⟨_, machineSample_ok⟩
  refine ⟨haccepted, ?_⟩
  obtain ⟨suffix, cert, encrypted, -, -, hsuffix, hcert, halg, -⟩ := haccepted
  refine (hspec schemeRsa2048Pkcs1Sign).2 cert _ hlen rfl hcert ?_
  -- the file's `alg` names Ed25519, so it is neither of the two names under RSA
  cases hsuffix
  rintro - (⟨hrsa, -⟩ | ⟨hrsa, -⟩) <;> rcases halg with ⟨hed, -⟩ | ⟨hed, -⟩ <;>
    exact absurd (hed.symm.trans hrsa) (by decide +kernel)

/-- After trimming, the sample with blanks behind it is a good file; it is refused for its size. -/
theorem machineFileVerifyAt_blanks :
    MachineAccepted sampleCrypto halfLibc (machineSample ++ blanks) schemeEd25519Sign sampleKey.val
        none none 160 sampleResource ∧
      (machineFileVerifyAt sampleCrypto halfLibc (some (machineSample ++ blanks)) schemeEd25519Sign
          (some sampleKey.val) none none 160).ok =
        .error (errorSet .lengthInvalid
          (ascii "certificate length is zero or exceeds the accepted maximum")) := by
  constructor
  · obtain ⟨-, suffix, cert, encrypted, plaintext, payload, hscheme, hcert, hrest⟩ :=
      (machineFileVerifyAt_eq_ok (fun _ _ => rfl) (by decide) (by decide) (by decide)
        sampleResource).mp ⟨_, machineSample_ok⟩
    exact ⟨suffix, cert, encrypted, plaintext, payload, hscheme,
      hcert.append_space pemIsSpace_of_mem_blanks, hrest⟩
  · have hlong := length_append_blanks (show 0 < machineSample.length by decide +kernel)
    generalize machineSample ++ blanks = pem at hlong
    have hrun := @VerifyCall.run_eq sampleCrypto halfLibc pem 160
      (.machine schemeEd25519Sign sampleKey.val none none) ⟨⟨by decide, by decide⟩, by decide⟩
    refine (congrArg AllocE.ok hrun).trans (AllocE.ok_bind_of_error ?_)
    show (machineOpen halfLibc pem schemeEd25519Sign).ok = _
    rw [machineOpen]
    dsimp only [machineAlgSuffix, schemeEd25519Sign]
    rw [openCert, pemExtract_too_long hlong]
    rfl

end Tamga