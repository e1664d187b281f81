import Mathlib.Data.List.DropRight
import Tamga.Checkout.Claims
import Tamga.Checkout.KeySet

/-!
# `Checkout.Verify` — the two offline files (`checkout/license_file.c`, `machine_file.c`)

A licence file and a machine file are verified in the same order: open the envelope, settle the
algorithm, decode the signature, check it over the **undecoded** `enc`, and only then decode, decrypt
and parse the payload. They differ in markers, algorithm names, framing of the encrypted payload and
texts. The half after the signature check is the same code twice and is `verifyPayload` here.

Each file can be verified under one key or under a key set; `keys` is `none` for one key.
-/

namespace Tamga

open Alloc Json

/-! ## After the signature check -/

/-- From `if (!verified && keys == NULL)` on. `decode` is the file's own way to its payload bytes. -/
def verifyPayload (L : Libc) (texts : FileTexts) (keys : Option KeySet) (verified : Bool)
    (decode : Call Bytes) (nowUnix : Int64) : Call (Json × FileClaims) :=
  if verified = false ∧ keys.isNone = true then
    Call.fail .signatureInvalid texts.signatureInvalid
  else do
    let probe ← Call.attempt do
      let plaintext ← decode
      parseDocument L plaintext texts.parseNoMemory texts.malformed
    -- when no held key verified, the payload was opened only to word the failure
    match if verified then probe.map fun _ => () else keySetLabelFailure keys probe with
    | .error f => throwThe Failure f
    | .ok () => finish texts probe.toOption nowUnix

/-! ## Licence files -/

def licenseMarkers : Markers where
  first := ascii "-----BEGIN LICENSE FILE-----"
  last := ascii "-----END LICENSE FILE-----"
  first_solid := by decide
  last_solid := by decide

def licenseTexts : FileTexts where
  signatureInvalid := "licence-file signature did not verify"
  parseNoMemory := "could not parse the licence payload"
  malformed := "licence payload is malformed: "
  expired := "the licence file is authentic but expired; check out a fresh one"
  noData := "the licence payload has no data object"
  copyNoMemory := "could not copy the licence resource"

/-- `TAMGA_ALG_PLAIN`. -/
def licenseAlgPlain : Bytes := ascii "base64+ed25519+v2"

/-- `TAMGA_ALG_ENCRYPTED`. -/
def licenseAlgEncrypted : Bytes := ascii "aes-256-gcm+ed25519+v2"

/-- The certificate's `alg` against the two legal names. -/
def licenseSettleAlg (cert : Cert) : Call (Cert × Bool) :=
  if cert.alg = licenseAlgPlain then return (cert, false)
  else if cert.alg = licenseAlgEncrypted then return (cert, true)
  else
    Call.fail .unsupportedScheme
      "unsupported licence-file algorithm; only offline format v2 is accepted, and there is no v1 fallback"

/-- `tamga_license_open`: the certificate, and whether its payload is encrypted. -/
def licenseOpen (L : Libc) (pem : Bytes) : Call (Cert × Bool) := do
  let cert ← openCert L licenseMarkers pem
  licenseSettleAlg cert

/-- `tamga_license_decode_signature`. -/
def licenseDecodeSignature (cert : Cert) : Call Bytes := do
  let signature ← decodeBase64 cert.sig "could not decode the signature"
    "the signature field is not valid base64"
  if signature.length = ed25519SigLen then return signature
  else Call.fail .signatureInvalid "signature is not the expected length"

/-- The encrypted half of `tamga_license_decode_payload`: one blob, the nonce first. -/
def licenseDecrypt (C : Crypto) (blob : Bytes) (licenseKey : Option Bytes) : Call Bytes :=
  match licenseKey with
  | none =>
      Call.fail .nullArgument "this licence file is encrypted and needs the licence key"
  | some licenseKey =>
      if blob.length < gcmNonceLen + gcmTagLen then
        Call.fail .decryptionFailed "encrypted payload is too short to contain a nonce and tag"
      else
        match deriveLicenseFileKey C licenseKey with
        | none => Call.fail .unknown "key derivation failed"
        | some key => do
            if ← malloc then
              match gcmOpen C key (blob.take gcmNonceLen) [] (blob.drop gcmNonceLen) with
              | some plaintext => return plaintext
              | none =>
                  Call.fail .decryptionFailed
                    "could not decrypt the licence file; the licence key is wrong or the payload was altered"
            else Call.fail .outOfMemory "could not allocate the payload"

/-- `tamga_license_decode_payload`. -/
def licenseDecodePayload (C : Crypto) (cert : Cert) (encrypted : Bool)
    (licenseKey : Option Bytes) : Call Bytes := do
  let encBytes ← decodeBase64 cert.enc "could not decode the payload"
    "the enc field is not valid base64"
  if encrypted then licenseDecrypt C encBytes licenseKey else return encBytes

/-- Whether the file's signature verifies, under the key set or under the one key. -/
def licenseVerified (C : Crypto) (keys : Option KeySet) (ed25519Pubkey : Option PublicKey)
    (enc signature : Bytes) : Bool :=
  match keys, ed25519Pubkey with
  | some keys, _ => keySetFindVerifier C keys enc signature
  | none, some key => C.ed25519Verify key.val enc signature
  | none, none => false

/-- `tamga_license_file_verify_core`. -/
def licenseFileVerifyCore (C : Crypto) (L : Libc) (pem : Option Bytes)
    (ed25519Pubkey : Option PublicKey) (keys : Option KeySet) (licenseKey : Option Bytes)
    (nowUnix : Int64) : Call (Json × FileClaims) :=
  match pem with
  | none => Call.fail .nullArgument "a required argument was null"
  | some pem =>
      if ed25519Pubkey.isNone = true ∧ keys.isNone = true then
        Call.fail .nullArgument "a required argument was null"
      else do
        let (cert, encrypted) ← licenseOpen L pem
        let signature ← licenseDecodeSignature cert
        -- over the base64 text of `enc`, not over what it decodes to
        verifyPayload L licenseTexts keys (licenseVerified C keys ed25519Pubkey cert.enc signature)
          (licenseDecodePayload C cert encrypted licenseKey) nowUnix

/-- `tamga_license_file_verify_at`. -/
def licenseFileVerifyAt (C : Crypto) (L : Libc) (pem : Option Bytes)
    (ed25519Pubkey : Option PublicKey) (licenseKey : Option Bytes) (nowUnix : Int64) :
    Call (Json × FileClaims) :=
  match ed25519Pubkey with
  | none => Call.fail .nullArgument "a required argument was null"
  | some key => licenseFileVerifyCore C L pem (some key) none licenseKey nowUnix

/-- `tamga_license_file_verify_at_with_key_set`. -/
def licenseFileVerifyAtWithKeySet (C : Crypto) (L : Libc) (pem : Option Bytes)
    (keys : Option KeySet) (licenseKey : Option Bytes) (nowUnix : Int64) :
    Call (Json × FileClaims) :=
  match keys with
  | none => Call.fail .nullArgument "a key set is required"
  | some keys => licenseFileVerifyCore C L pem none (some keys) licenseKey nowUnix

/-! ## Machine files -/

def machineMarkers : Markers where
  first := ascii "-----BEGIN MACHINE FILE-----"
  last := ascii "-----END MACHINE FILE-----"
  first_solid := by decide
  last_solid := by decide

def machineTexts : FileTexts where
  signatureInvalid := "machine-file signature did not verify"
  parseNoMemory := "could not parse the machine payload"
  malformed := "machine payload is malformed: "
  expired := "the machine file is authentic but expired; check out a fresh one"
  noData := "the machine payload has no data object"
  copyNoMemory := "could not copy the machine resource"

/-- `TAMGA_SCHEME_ED25519_SIGN`. -/
def schemeEd25519Sign : UInt32 := 1

/-- `TAMGA_SCHEME_RSA_2048_PKCS1_SIGN`. -/
def schemeRsa2048Pkcs1Sign : UInt32 := 2

/-- `TAMGA_SCHEME_RSA_2048_PKCS1_PSS_SIGN`. -/
def schemeRsa2048Pkcs1PssSign : UInt32 := 3

/-- `TAMGA_SCHEME_ECDSA_P256_SIGN`. -/
def schemeEcdsaP256Sign : UInt32 := 4

/-- `tamga_machine_alg_suffix`; a scheme is any 32-bit number. -/
def machineAlgSuffix (scheme : UInt32) : Option Bytes :=
  if scheme = schemeEd25519Sign then some (ascii "ed25519")
  else if scheme = schemeRsa2048Pkcs1Sign then some (ascii "rsa-sha256")
  else if scheme = schemeRsa2048Pkcs1PssSign then some (ascii "rsa-pss-sha256")
  else if scheme = schemeEcdsaP256Sign then some (ascii "ecdsa-p256")
  else none

def plus : UInt8 := 0x2B

/-- `tamga_machine_alg_split`: what stands before the first `+`, and what stands between it and the
    last one; after the last one must stand exactly `v2`. -/
def machineAlgSplit (alg : Bytes) : Option (Bytes × Bytes) :=
  if plus ∉ alg then none
  else
    let first := (alg.takeWhile (· ≠ plus)).length
    let last := alg.length - (alg.rtakeWhile (· ≠ plus)).length - 1
    if last = first then none
    else if alg.drop (last + 1) ≠ ascii "v2" then none
    else some (alg.take first, (alg.drop (first + 1)).take (last - first - 1))

/-- `tamga_machine_check_signature`. -/
def machineCheckSignature (C : Crypto) (scheme : UInt32) (pubkey message signature : Bytes) : Bool :=
  if scheme = schemeEd25519Sign then
    if pubkey.length ≠ 32 ∨ signature.length ≠ ed25519SigLen then false
    else C.ed25519Verify pubkey message signature
  else if scheme = schemeRsa2048Pkcs1Sign then C.rsaVerifyPkcs1Sha256 pubkey message signature
  else if scheme = schemeRsa2048Pkcs1PssSign then C.rsaVerifyPssSha256 pubkey message signature
  else if scheme = schemeEcdsaP256Sign then C.ecdsaP256Verify pubkey message signature
  else false

/-- The certificate's `alg` against the suffix the caller's scheme implies. -/
def machineSettleAlg (expectedSuffix : Bytes) (cert : Cert) : Call (Cert × Bool) :=
  match machineAlgSplit cert.alg with
  | none =>
      Call.fail .unsupportedScheme
        "unsupported machine-file algorithm; only offline format v2 is accepted, and there is no v1 fallback"
  | some (algPrefix, algSuffix) =>
      if algSuffix ≠ expectedSuffix then
        Call.fail .unsupportedScheme
          "the machine file was signed with a different scheme than the licence declares"
      else if algPrefix = ascii "base64" then return (cert, false)
      else if algPrefix = ascii "aes-256-gcm" then return (cert, true)
      else Call.fail .unsupportedScheme "unsupported machine-file encryption mode"

/-- `tamga_machine_open`: the scheme is settled before anything is parsed. -/
def machineOpen (L : Libc) (pem : Bytes) (scheme : UInt32) : Call (Cert × Bool) :=
  match machineAlgSuffix scheme with
  | none => Call.fail .unsupportedScheme "this signing scheme is not valid for a machine file"
  | some expectedSuffix => do
      let cert ← openCert L machineMarkers pem
      machineSettleAlg expectedSuffix cert

def dot : UInt8 := 0x2E

/-- The end of `tamga_machine_open_encrypted`: both halves are decoded. -/
def machineDecrypt (C : Crypto) (licenseKey fingerprint nonce cipher : Bytes) : Call Bytes :=
  if cipher.length ≤ gcmTagLen then
    Call.fail .decryptionFailed "the ciphertext is too short to contain a tag and a payload"
  else
    match deriveMachineFileKey C licenseKey fingerprint with
    | none => Call.fail .unknown "key derivation failed"
    | some key => do
        if ← malloc then
          match gcmOpen C key nonce [] cipher with
          | some plaintext => return plaintext
          | none =>
              Call.fail .decryptionFailed
                "could not decrypt the machine file; the licence key or fingerprint is wrong, or the payload was altered"
        else Call.fail .outOfMemory "could not allocate the payload"

/-- `tamga_machine_open_encrypted` on the two halves around the separator. -/
def machineOpenHalves (C : Crypto) (licenseKey fingerprint nonceB64 cipherB64 : Bytes) :
    Call Bytes := do
  let nonce ← decodeBase64 nonceB64 "could not decode the nonce" "the nonce is not valid base64"
  if nonce.length ≠ gcmNonceLen then Call.fail .decryptionFailed "the nonce is not 12 bytes"
  else
    let cipher ← decodeBase64 cipherB64 "could not decode the ciphertext"
      "the ciphertext is not valid base64"
    machineDecrypt C licenseKey fingerprint nonce cipher

/-- `tamga_machine_open_encrypted`. -/
def machineOpenEncrypted (C : Crypto) (enc : Bytes) (licenseKey fingerprint : Option Bytes) :
    Call Bytes :=
  match licenseKey, fingerprint with
  | some licenseKey, some fingerprint =>
      if dot ∉ enc then
        Call.fail .decryptionFailed
          "an encrypted machine file's payload must be \"<nonce>.<ciphertext>\"; this one has no separator"
      else
        let nonceB64 := enc.takeWhile (· ≠ dot)
        let cipherB64 := enc.drop (nonceB64.length + 1)
        if nonceB64.length = 0 ∨ cipherB64.length = 0 then
          Call.fail .decryptionFailed "an encrypted machine file's payload has an empty half"
        else if dot ∈ cipherB64 then
          Call.fail .decryptionFailed
            "an encrypted machine file's payload has more than one separator"
        else machineOpenHalves C licenseKey fingerprint nonceB64 cipherB64
  | _, _ =>
      Call.fail .nullArgument
        "this machine file is encrypted and needs both the licence key and the machine fingerprint"

/-- `tamga_machine_decode_payload`. -/
def machineDecodePayload (C : Crypto) (cert : Cert) (encrypted : Bool)
    (licenseKey fingerprint : Option Bytes) : Call Bytes :=
  if encrypted then machineOpenEncrypted C cert.enc licenseKey fingerprint
  else decodeBase64 cert.enc "could not decode the payload" "the enc field is not valid base64"

/-- Whether the file's signature verifies, under the key set or under the one key. -/
def machineVerified (C : Crypto) (scheme : UInt32) (keys : Option KeySet) (pubkey : Option Bytes)
    (enc signature : Bytes) : Bool :=
  match keys, pubkey with
  | some keys, _ => keySetFindVerifier C keys enc signature
  | none, some pubkey => machineCheckSignature C scheme pubkey enc signature
  | none, none => false

/-- `keys == NULL && (pubkey_len == 0u || pubkey_len > TAMGA_MAX_REASONABLE_LEN)`. -/
def machineKeyRefused (keys : Option KeySet) (pubkey : Option Bytes) : Prop :=
  keys.isNone = true ∧ ((pubkey.getD []).length = 0 ∨ (pubkey.getD []).length > maxReasonableLen)

instance (keys : Option KeySet) (pubkey : Option Bytes) : Decidable (machineKeyRefused keys pubkey) :=
  inferInstanceAs (Decidable (_ ∧ _))

/-- `tamga_machine_file_verify_core`. -/
def machineFileVerifyCore (C : Crypto) (L : Libc) (pem : Option Bytes) (scheme : UInt32)
    (pubkey : Option Bytes) (keys : Option KeySet) (licenseKey fingerprint : Option Bytes)
    (nowUnix : Int64) : Call (Json × FileClaims) :=
  match pem with
  | none => Call.fail .nullArgument "a required argument was null"
  | some pem =>
      if pubkey.isNone = true ∧ keys.isNone = true then
        Call.fail .nullArgument "a required argument was null"
      else if machineKeyRefused keys pubkey then
        Call.fail .lengthInvalid "public key length is zero or exceeds the accepted maximum"
      else do
        let (cert, encrypted) ← machineOpen L pem scheme
        let signature ← decodeBase64 cert.sig "could not decode the signature"
          "the signature field is not valid base64"
        verifyPayload L machineTexts keys
          (machineVerified C scheme keys pubkey cert.enc signature)
          (machineDecodePayload C cert encrypted licenseKey fingerprint) nowUnix

/-- `tamga_machine_file_verify_at`. -/
def machineFileVerifyAt (C : Crypto) (L : Libc) (pem : Option Bytes) (scheme : UInt32)
    (pubkey licenseKey fingerprint : Option Bytes) (nowUnix : Int64) : Call (Json × FileClaims) :=
  match pubkey with
  | none => Call.fail .nullArgument "a required argument was null"
  | some pubkey =>
      machineFileVerifyCore C L pem scheme (some pubkey) none licenseKey fingerprint nowUnix

/-- `tamga_machine_file_verify_at_with_key_set`. -/
def machineFileVerifyAtWithKeySet (C : Crypto) (L : Libc) (pem : Option Bytes) (scheme : UInt32)
    (keys : Option KeySet) (licenseKey fingerprint : Option Bytes) (nowUnix : Int64) :
    Call (Json × FileClaims) :=
  match keys with
  | none => Call.fail .nullArgument "a key set is required"
  | some keys =>
      if scheme ≠ schemeEd25519Sign then
        match machineAlgSuffix scheme with
        | none => Call.fail .unsupportedScheme "this signing scheme is not valid for a machine file"
        | some _ =>
            Call.fail .keyIdNotApplicable
              "a machine file's kid names the account's Ed25519 key whatever scheme signed the file, so it cannot select an RSA or ECDSA key; verify this one with the account's own key for its algorithm"
      else machineFileVerifyCore C L pem scheme none (some keys) licenseKey fingerprint nowUnix

end Tamga
