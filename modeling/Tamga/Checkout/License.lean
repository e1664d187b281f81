import Tamga.Checkout.Payload

/-!
# `Checkout.License` — the steps of licence-file verification

`LicenseAccepted` says which licence files are good, without mentioning how they are read. Each step
of the code has its meaning in those terms, and the codes it fails with; `Checkout.Accept` puts the
steps together.
-/

namespace Tamga

open Alloc Base64 Json

variable {C : Crypto} {L : Libc} {pem : Bytes} {cert : Cert} {encrypted : Bool}
  {licenseKey : Option Bytes}

/-! ## The specification -/

/-- The two legal algorithms. -/
def LicenseAlg (cert : Cert) (encrypted : Bool) : Prop :=
  cert.alg = ascii "base64+ed25519+v2" ∧ encrypted = false ∨
    cert.alg = ascii "aes-256-gcm+ed25519+v2" ∧ encrypted = true

/-- The 64 bytes of `sig` verify over the bytes of `enc` as they stand. -/
def Ed25519Signed (C : Crypto) (key : PublicKey) (cert : Cert) : Prop :=
  ∃ signature, Spells cert.sig signature ∧ signature.length = 64 ∧
    C.ed25519Verify key.val cert.enc signature = true

/-- `blob` is nonce, ciphertext and tag, and opens under the key derived from the licence key. -/
def LicenseOpens (C : Crypto) (licenseKey : Option Bytes) (blob plaintext : Bytes) : Prop :=
  ∃ lk key, licenseKey = some lk ∧ deriveLicenseFileKey C lk = some key ∧
    gcmOpen C key (blob.take 12) [] (blob.drop 12) = some plaintext

/-- The payload bytes of a certificate. -/
def LicensePlaintext (C : Crypto) (licenseKey : Option Bytes) (cert : Cert) (encrypted : Bool)
    (plaintext : Bytes) : Prop :=
  ∃ blob, Spells cert.enc blob ∧
    if encrypted then LicenseOpens C licenseKey blob plaintext else plaintext = blob

/-- The file is a licence file signed under `key`, current at `nowUnix`, for `resource`. -/
def LicenseAccepted (C : Crypto) (L : Libc) (pem : Bytes) (key : PublicKey)
    (licenseKey : Option Bytes) (nowUnix : Int64) (resource : Json) : Prop :=
  ∃ cert encrypted plaintext payload, Certificate L licenseMarkers pem cert ∧
    LicenseAlg cert encrypted ∧ Ed25519Signed C key cert ∧
    LicensePlaintext C licenseKey cert encrypted plaintext ∧ Reads L plaintext payload ∧
    CurrentPayload payload nowUnix resource

/-! ## The steps -/

theorem licenseSettleAlg_eq_ok {opened : Cert × Bool} :
    (licenseSettleAlg cert).ok = .ok opened ↔ opened.1 = cert ∧ LicenseAlg cert opened.2 := by
  have hne : licenseAlgPlain ≠ licenseAlgEncrypted := by decide
  obtain ⟨opened, encrypted⟩ := opened
  unfold licenseSettleAlg
  constructor
  · intro h
    by_cases hplain : cert.alg = licenseAlgPlain
    · rw [if_pos hplain] at h
      cases h
      exact ⟨rfl, Or.inl ⟨hplain, rfl⟩⟩
    rw [if_neg hplain] at h
    by_cases henc : cert.alg = licenseAlgEncrypted
    · rw [if_pos henc] at h
      cases h
      exact ⟨rfl, Or.inr ⟨henc, rfl⟩⟩
    · rw [if_neg henc] at h
      cases h
  · rintro ⟨rfl, ⟨halg, rfl⟩ | ⟨halg, rfl⟩⟩
    · rw [if_pos (show opened.alg = licenseAlgPlain from halg)]; rfl
    · rw [if_neg (fun h => hne (h.symm.trans halg)),
        if_pos (show opened.alg = licenseAlgEncrypted from halg)]
      rfl

theorem licenseSettleAlg_reports : Call.Reports (· = .unsupportedScheme) (licenseSettleAlg cert) := by
  unfold licenseSettleAlg
  split_ifs
  · exact .pure _
  · exact .pure _
  · exact .fail rfl

theorem licenseOpen_eq_ok (hL : ConsumesNumbers L) :
    (licenseOpen L pem).ok = .ok (cert, encrypted) ↔
      pem.length ≤ maxReasonableLen ∧ Certificate L licenseMarkers pem cert ∧
        LicenseAlg cert encrypted := by
  unfold licenseOpen
  simp only [AllocE.ok_bind_eq_ok, openCert_eq_ok hL, licenseSettleAlg_eq_ok]
  constructor
  · rintro ⟨_, ⟨hlen, hcert⟩, rfl, halg⟩
    exact ⟨hlen, hcert, halg⟩
  · rintro ⟨hlen, hcert, halg⟩
    exact ⟨cert, ⟨hlen, hcert⟩, rfl, halg⟩

theorem licenseDecodeSignature_eq_ok {signature : Bytes}
    (hlen : cert.sig.length ≤ maxReasonableLen) :
    (licenseDecodeSignature cert).ok = .ok signature ↔
      Spells cert.sig signature ∧ signature.length = 64 := by
  unfold licenseDecodeSignature
  simp only [AllocE.ok_bind_eq_ok, decodeBase64_eq_ok hlen]
  constructor
  · rintro ⟨s, hs, h⟩
    by_cases h64 : s.length = ed25519SigLen
    · rw [if_pos h64] at h
      cases h
      exact ⟨hs, h64⟩
    · rw [if_neg h64] at h
      cases h
  · rintro ⟨hs, h64⟩
    exact ⟨signature, hs, by rw [if_pos (show signature.length = ed25519SigLen from h64)]; rfl⟩

theorem licenseDecodeSignature_reports (hlen : cert.sig.length ≤ maxReasonableLen) :
    Call.Reports (· ∈ [.invalidBase64, .signatureInvalid]) (licenseDecodeSignature cert) := by
  refine ((decodeBase64_reports hlen).mono (by simp)).bind fun signature _ => ?_
  split
  · exact .pure _
  · exact .fail (by decide)

theorem licenseDecrypt_eq_ok {blob plaintext : Bytes} :
    (licenseDecrypt C blob licenseKey).ok = .ok plaintext ↔
      LicenseOpens C licenseKey blob plaintext := by
  unfold licenseDecrypt LicenseOpens
  cases licenseKey with
  | none => exact ⟨nofun, nofun⟩
  | some lk =>
    dsimp only
    by_cases hshort : blob.length < gcmNonceLen + gcmTagLen
    · -- too short for a nonce and a tag: `gcmOpen` would refuse it as well
      rw [if_pos hshort]
      refine ⟨nofun, ?_⟩
      rintro ⟨_, key, ⟨⟩, -, hopen⟩
      unfold gcmOpen at hopen
      rw [if_pos (by rw [List.length_drop]; unfold gcmNonceLen gcmTagLen at *; omega)] at hopen
      cases hopen
    rw [if_neg hshort]
    cases hkey : deriveLicenseFileKey C lk with
    | none =>
      refine ⟨nofun, ?_⟩
      rintro ⟨_, key, ⟨⟩, h, -⟩
      rw [hkey] at h
      cases h
    | some key =>
      dsimp only
      rw [AllocE.ok_bind_of_ok (AllocE.ok_lift _), if_pos (show malloc.ok = true from rfl)]
      unfold gcmNonceLen
      constructor
      · intro h
        cases hopen : gcmOpen C key (blob.take 12) [] (blob.drop 12) with
        | none => rw [hopen] at h; cases h
        | some p =>
          rw [hopen] at h
          injection h with h
          exact ⟨lk, key, rfl, hkey, hopen.trans (congrArg some h)⟩
      · rintro ⟨_, key', ⟨⟩, hkey', hopen⟩
        rw [hkey] at hkey'
        injection hkey' with hkey'
        rw [hkey', hopen]
        rfl

theorem licenseDecodePayload_eq_ok {plaintext : Bytes}
    (hlen : cert.enc.length ≤ maxReasonableLen) :
    (licenseDecodePayload C cert encrypted licenseKey).ok = .ok plaintext ↔
      LicensePlaintext C licenseKey cert encrypted plaintext := by
  unfold licenseDecodePayload LicensePlaintext
  simp only [AllocE.ok_bind_eq_ok, decodeBase64_eq_ok hlen]
  refine exists_congr fun blob => and_congr_right fun _ => ?_
  cases encrypted with
  | true => exact licenseDecrypt_eq_ok
  | false => simp [eq_comm]

/-- The codes of a payload that cannot be decoded with the secrets at hand. -/
def decodeCodes : List ErrorCode := [.invalidBase64, .decryptionFailed, .unknown]

theorem licenseDecrypt_reports (blob : Bytes) :
    Call.Reports (fun c => c ∈ decodeCodes ∨ licenseKey = none ∧ c = .nullArgument)
      (licenseDecrypt C blob licenseKey) := by
  unfold licenseDecrypt
  split
  · exact .fail (Or.inr ⟨rfl, rfl⟩)
  split
  · exact .fail (Or.inl (by decide))
  split
  · exact .fail (Or.inl (by decide))
  refine .request rfl ?_
  rw [if_pos rfl]
  split
  · exact .pure _
  · exact .fail (Or.inl (by decide))

/-- A missing argument is reported once `enc` is decoded. -/
theorem licenseDecodePayload_reports (hlen : cert.enc.length ≤ maxReasonableLen) :
    Call.Reports (fun c => c ∈ decodeCodes ∨ encrypted = true ∧ (∃ blob, Spells cert.enc blob) ∧
        licenseKey = none ∧ c = .nullArgument)
      (licenseDecodePayload C cert encrypted licenseKey) := by
  refine ((decodeBase64_reports hlen).mono ?_).bind fun blob hblob => ?_
  · rintro _ rfl
    exact Or.inl (by decide)
  have hblob := (decodeBase64_eq_ok hlen).mp hblob
  cases encrypted with
  | true => exact (licenseDecrypt_reports blob).mono fun _ h => h.imp_right fun h => ⟨rfl, ⟨blob, hblob⟩, h⟩
  | false => exact .pure blob

end Tamga
