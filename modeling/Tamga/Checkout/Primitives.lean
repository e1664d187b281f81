import Tamga.Checkout.Machine
import Tamga.Crypto.Ecdsa
import Tamga.Crypto.Gcm

/-!
# `Checkout.Primitives` — check-out files over the modelled primitives

What is proved of the check-out code holds for any `Crypto`. The one of the library is put together here
from the modelled hash, key derivation, cipher and signature parsers; the arithmetic of the curves and of
RSA remains a parameter. Over it a payload opens to exactly what was sealed into it, under the key that
RFC 5869 derives from the caller's secrets.
-/

namespace Tamga

open Base64 Gcm Hash KeyDerivation

/-- What the signature checks leave to the arithmetic of the curves and of RSA. -/
structure SignatureArithmetic (Key : Type) where
  ed25519Verify : (publicKey message signature : Bytes) → Bool
  rsa : RsaArithmetic Key
  rsaVerifyPssSha256 : (publicKey message signature : Bytes) → Bool
  p256Verify : (x y digest r s : Bytes) → Bool

variable {Key : Type} (A : SignatureArithmetic Key)

/-- The primitives of the library. -/
def SignatureArithmetic.crypto : Crypto where
  ed25519Verify := A.ed25519Verify
  rsaVerifyPkcs1Sha256 := Tamga.rsaVerifyPkcs1Sha256 A.rsa sha256
  rsaVerifyPssSha256 := A.rsaVerifyPssSha256
  ecdsaP256Verify publicKey message signature :=
    (Ecdsa.ecdsaP256Verify A.p256Verify (some publicKey) (.bytes message) (some signature)).run =
      some (some ())
  sha256 := sha256
  hmacSha256 := hmacSha256
  gcmCrypt := crypt
  gcmTag := tag

/-- `text` is what `tamga_gcm_seal` writes for `plaintext`, into whatever buffer has room for it. -/
def Seals (key nonce plaintext text : Bytes) : Prop :=
  ∀ sealed : Buffers, sealed.Room (plaintext.length + 16) →
    (gcmSeal (some key) (some nonce) (.bytes []) (.bytes plaintext) sealed).1 = true ∧
      (gcmSeal (some key) (some nonce) (.bytes []) (.bytes plaintext) sealed).2.Hold text

/-- The expansion of RFC 5869 to the length of a file key. -/
def fileKey (salt licenseKey info : Bytes) : Bytes :=
  hkdf (hmac sha256 64) 32 salt licenseKey info fileKeyLen

variable {A} {plaintext : Bytes}

theorem room_replicate (n : Nat) : (⟨some 0, some (List.replicate n 0)⟩ : Buffers).Room n :=
  ⟨rfl, List.length_replicate.ge⟩

theorem crypto_gcmOpen_iff {key nonce text : Bytes} (hkey : key.length = 32)
    (hnonce : nonce.length = 12) :
    Tamga.gcmOpen A.crypto key nonce [] text = some plaintext ↔ Seals key nonce plaintext text := by
  have hempty : ¬ (Span.bytes []).Dangling := fun h => h
  have hplain : ¬ (Span.bytes plaintext).Dangling := fun h => h
  have hcrypt : A.crypto.gcmCrypt = crypt := by dsimp only [SignatureArithmetic.crypto]
  have htag : A.crypto.gcmTag = tag := by dsimp only [SignatureArithmetic.crypto]
  have hopened := room_replicate (text.length - 16)
  rw [gcmOpen_crypto A.crypto hcrypt htag hkey hnonce hopened]
  constructor
  · intro h sealed hsealed
    exact (gcmOpen_iff_gcmSeal hkey hnonce hempty hplain hopened hsealed).mp h
  · intro h
    have hsealed := room_replicate (plaintext.length + 16)
    exact (gcmOpen_iff_gcmSeal hkey hnonce hempty hplain hopened hsealed).mpr (h _ hsealed)

theorem crypto_hkdfSha256 (salt licenseKey info : Bytes) :
    Tamga.hkdfSha256 A.crypto salt licenseKey info fileKeyLen = some (fileKey salt licenseKey info) := by
  have hmac : A.crypto.hmacSha256 = hmacSha256 := by dsimp only [SignatureArithmetic.crypto]
  rw [hkdfSha256_crypto hmac, hkdfSha256_eq_some id id (by decide) (by decide)]
  rfl

theorem length_fileKey (salt licenseKey info : Bytes) : (fileKey salt licenseKey info).length = 32 :=
  length_hkdf (by decide) length_hmac_sha256 _ _ _ _

/-- **Licence files.** The payload behind the nonce is the plaintext, sealed under the derived key. -/
theorem licenseOpens_iff_seals {licenseKey : Option Bytes} {blob : Bytes} :
    LicenseOpens A.crypto licenseKey blob plaintext ↔ ∃ lk, licenseKey = some lk ∧ 12 ≤ blob.length ∧
      Seals (fileKey (ascii "tamga:license-file-key-v1") lk (ascii "license-file")) (blob.take 12)
        plaintext (blob.drop 12) := by
  unfold LicenseOpens deriveLicenseFileKey
  have hnonce : 12 ≤ blob.length → (blob.take 12).length = 12 := fun h => by
    rw [List.length_take, Nat.min_eq_left h]
  constructor
  · rintro ⟨lk, key, rfl, hkey, hopen⟩
    rw [crypto_hkdfSha256, Option.some.injEq] at hkey
    subst hkey
    have hlen : 12 ≤ blob.length := by
      by_contra hshort
      rw [Tamga.gcmOpen, if_pos (by rw [List.length_drop]; unfold gcmTagLen; omega)] at hopen
      cases hopen
    exact ⟨lk, rfl, hlen, (crypto_gcmOpen_iff (length_fileKey ..) (hnonce hlen)).mp hopen⟩
  · rintro ⟨lk, rfl, hlen, hseals⟩
    exact ⟨lk, _, rfl, crypto_hkdfSha256 ..,
      (crypto_gcmOpen_iff (length_fileKey ..) (hnonce hlen)).mpr hseals⟩

/-- **Machine files.** Nonce and sealed payload are spelled apart, and the fingerprint goes into the key. -/
theorem machineOpens_iff_seals {licenseKey fingerprint : Option Bytes} {enc : Bytes} :
    MachineOpens A.crypto licenseKey fingerprint enc plaintext ↔
      ∃ lk fp nonceB64 cipherB64 nonce cipher, licenseKey = some lk ∧ fingerprint = some fp ∧
        enc = nonceB64 ++ ascii "." ++ cipherB64 ∧ Spells nonceB64 nonce ∧ Spells cipherB64 cipher ∧
        nonce.length = 12 ∧ 16 < cipher.length ∧
        Seals (fileKey (ascii "tamga:machine-file-key-v1") lk fp) nonce plaintext cipher := by
  unfold MachineOpens deriveMachineFileKey
  constructor
  · rintro ⟨lk, fp, nonceB64, cipherB64, nonce, cipher, key, hlk, hfp, henc, hnonceB64, hcipherB64,
      hnonce, hcipher, hkey, hopen⟩
    rw [crypto_hkdfSha256, Option.some.injEq] at hkey
    subst hkey
    exact ⟨lk, fp, nonceB64, cipherB64, nonce, cipher, hlk, hfp, henc, hnonceB64, hcipherB64, hnonce,
      hcipher, (crypto_gcmOpen_iff (length_fileKey ..) hnonce).mp hopen⟩
  · rintro ⟨lk, fp, nonceB64, cipherB64, nonce, cipher, hlk, hfp, henc, hnonceB64, hcipherB64, hnonce,
      hcipher, hseals⟩
    exact ⟨lk, fp, nonceB64, cipherB64, nonce, cipher, _, hlk, hfp, henc, hnonceB64, hcipherB64, hnonce,
      hcipher, crypto_hkdfSha256 .., (crypto_gcmOpen_iff (length_fileKey ..) hnonce).mpr hseals⟩

end Tamga
