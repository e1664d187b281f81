import Tamga.Mem

/-!
# `Tamga.Crypto` — the primitives the offline code calls, and what is built from them

The arithmetic of the primitives is a parameter: every result about the checkout code holds for
whatever these functions compute. On top of them, as the source has them, stand the authenticated
opening of AES-GCM (`crypto/gcm.c`) and the two key derivations (`crypto/hkdf.c`). None of it
allocates.
-/

namespace Tamga

/-- The primitives. A signature check takes the public key, the message and the signature. -/
structure Crypto where
  ed25519Verify : (publicKey message signature : Bytes) → Bool
  rsaVerifyPkcs1Sha256 : (publicKey message signature : Bytes) → Bool
  rsaVerifyPssSha256 : (publicKey message signature : Bytes) → Bool
  ecdsaP256Verify : (publicKey message signature : Bytes) → Bool
  sha256 : Bytes → Bytes
  hmacSha256 : (key message : Bytes) → Bytes
  /-- Counter mode: the same function encrypts and decrypts. -/
  gcmCrypt : (key nonce input : Bytes) → Bytes
  gcmTag : (key nonce aad ciphertext : Bytes) → Bytes

/-- `TAMGA_ED25519_PUBKEY_LEN` bytes. -/
def PublicKey : Type := { bytes : Bytes // bytes.length = 32 }

instance : DecidableEq PublicKey := inferInstanceAs (DecidableEq { bytes : Bytes // bytes.length = 32 })

/-- `TAMGA_ED25519_SIG_LEN`. -/
def ed25519SigLen : Nat := 64

/-- `TAMGA_GCM_NONCE_LEN`. -/
def gcmNonceLen : Nat := 12

/-- `TAMGA_GCM_TAG_LEN`. -/
def gcmTagLen : Nat := 16

/-- `TAMGA_FILE_KEY_LEN`. -/
def fileKeyLen : Nat := 32

variable (C : Crypto)

/-- `tamga_gcm_open`: nothing comes out unless the tag at the end is the right one. -/
def gcmOpen (key nonce aad ciphertextAndTag : Bytes) : Option Bytes :=
  if ciphertextAndTag.length < gcmTagLen then none
  else
    let ciphertext := ciphertextAndTag.take (ciphertextAndTag.length - gcmTagLen)
    let tag := ciphertextAndTag.drop (ciphertextAndTag.length - gcmTagLen)
    if C.gcmTag key nonce aad ciphertext = tag then some (C.gcmCrypt key nonce ciphertext) else none

/-- The expand loop, `T(n) = HMAC(PRK, T(n-1) || info || n)`; `fuel` bounds the rounds. -/
def hkdfExpand (prk info : Bytes) : (fuel remaining counter : Nat) → (block : Bytes) → Bytes
  | 0, _, _, _ => []
  | fuel + 1, remaining, counter, block =>
      if remaining = 0 then []
      else
        let block := C.hmacSha256 prk
          ((if 1 < counter then block else []) ++ info ++ [UInt8.ofNat counter])
        block.take (min remaining 32) ++
          hkdfExpand prk info fuel (remaining - min remaining 32) (counter + 1) block

/-- `tamga_hkdf_sha256`, for pointers that are there. -/
def hkdfSha256 (salt ikm info : Bytes) (outLen : Nat) : Option Bytes :=
  if outLen = 0 then none
  else if outLen > 255 * 32 then none
  else
    let prk := C.hmacSha256 (if salt.length = 0 then List.replicate 32 0 else salt) ikm
    some (hkdfExpand C prk info outLen outLen 1 [])

/-- `tamga_derive_license_file_key`. -/
def deriveLicenseFileKey (licenseKey : Bytes) : Option Bytes :=
  hkdfSha256 C (ascii "tamga:license-file-key-v1") licenseKey (ascii "license-file") fileKeyLen

/-- `tamga_derive_machine_file_key`. -/
def deriveMachineFileKey (licenseKey fingerprint : Bytes) : Option Bytes :=
  hkdfSha256 C (ascii "tamga:machine-file-key-v1") licenseKey fingerprint fileKeyLen

/-! ## RSA, PKCS#1 v1.5 (`crypto/rsa.c`) -/

/-- What the signature check takes from the DER reader and from the big-number code. -/
structure RsaArithmetic (Key : Type) where
  parsePublicKey : (der : Bytes) → Option Key
  modulusLen : Key → Nat
  /-- `s ^ e mod n`, as wide as the modulus. -/
  modexp : Key → (signature : Bytes) → Option Bytes

variable {Key : Type} (R : RsaArithmetic Key) (sha256 : Bytes → Bytes)

/-- `TAMGA_SHA256_DIGEST_INFO_PREFIX`. -/
def sha256DigestInfo : Bytes :=
  [0x30, 0x31, 0x30, 0x0D, 0x06, 0x09, 0x60, 0x86, 0x48, 0x01, 0x65, 0x03, 0x04, 0x02, 0x01, 0x05,
    0x00, 0x04, 0x20]

/-- `tamga_rsa_public_op`. -/
def rsaPublicOp (key : Key) (signature : Bytes) : Option Bytes :=
  if signature.length ≠ R.modulusLen key then none else R.modexp key signature

/-- The block the private key must have signed; the digest has 32 bytes. -/
def rsaExpected (modulusLen : Nat) (digest : Bytes) : Bytes :=
  [0x00, 0x01] ++ List.replicate (modulusLen - (sha256DigestInfo.length + 32) - 3) 0xFF ++ [0x00] ++
    sha256DigestInfo ++ digest

/-- `tamga_rsa_verify_pkcs1_sha256`. -/
def rsaVerifyPkcs1Sha256 (spki message signature : Bytes) : Bool :=
  match R.parsePublicKey spki with
  | none => false
  | some key =>
      match rsaPublicOp R key signature with
      | none => false
      | some recovered =>
          if R.modulusLen key < sha256DigestInfo.length + 32 + 11 then false
          else recovered = rsaExpected (R.modulusLen key) (sha256 message)

/-- **One signature, one digest.** The whole block is compared, so a signature pins the digest. -/
theorem rsaVerifyPkcs1Sha256_digest {spki message message' signature : Bytes}
    (h : rsaVerifyPkcs1Sha256 R sha256 spki message signature = true)
    (h' : rsaVerifyPkcs1Sha256 R sha256 spki message' signature = true) :
    sha256 message = sha256 message' := by
  unfold rsaVerifyPkcs1Sha256 at h h'
  cases hkey : R.parsePublicKey spki with
  | none => rw [hkey] at h; cases h
  | some key =>
    cases hop : rsaPublicOp R key signature with
    | none => simp only [hkey, hop] at h; cases h
    | some recovered =>
      simp only [hkey, hop] at h h'
      split at h
      · cases h
      rename_i hlen
      rw [if_neg hlen] at h'
      exact List.append_cancel_left ((of_decide_eq_true h).symm.trans (of_decide_eq_true h'))

end Tamga
