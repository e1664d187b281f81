import Tamga.Checkout.Payload
import Tamga.Proof
import Tamga.Slot
import Tamga.Util.Fingerprint

/-!
# `Tamga.Api` — the public offline functions (`tamga_api.c`)

Each clears the thread's error slot, checks its arguments, and calls the function of the library that
does the work. Most of those only raise and hand on failures. The verification of a file under a key
set does more: it opens the payload of a file nobody signed, which may fail and write the slot, and
then looks for the right label, which writes the slot again. That part is stated here with the slot in
view (`verifyPayloadSlotted`), and `…_follows` says that it is otherwise the part it was.
-/

namespace Tamga

open Alloc Interact Json ErrorSlot Slotted

variable {ρ ω : Type}

/-! ## Verification with the slot in view -/

namespace Slotted

/-- A status that a caller looks at; the slot stays as the failure left it. -/
def attempt {α : Type} (x : Slotted ρ ω α) : Slotted ρ ω (Except Failure α) :=
  ExceptT.mk (Except.ok <$> x.run)

/-- `return status`. -/
def handOn {α : Type} (status : Except Failure α) : Slotted ρ ω α := ExceptT.mk (pure status)

end Slotted

/-- `tamga_key_set_label_failure`. -/
def keySetLabelFailureSlotted (set : Option KeySet) (probe : Except Failure Json) :
    Slotted ρ ω Unit :=
  match probe with
  | .error f =>
      -- the slot already carries the message
      if f.code = .outOfMemory ∨ f.code = .nullArgument then throw f
      else
        raise (errorSet .signatureInvalid
          (ascii "signature did not verify under any held key, and the payload could not be read to name the key it claims"))
  | .ok payload => do
      let selected ← attempt
        (ofCall (ExceptT.mk (pure (keySetSelect set (claimsKeyId (payload.objectGet (ascii "meta")))))))
      match selected with
      | .ok _ =>
          raise (errorSet .signatureInvalid
            (ascii "signature did not verify under any held key, and the kid the file names IS held: a forged or altered file, not a stale set"))
      | .error f =>
          if f.code = .invalidJson then
            raise (errorSet .signatureInvalid
              (ascii "signature did not verify under any held key, and the payload names no kid to label the failure by"))
          -- with the message of `tamga_key_set_select`
          else throw f

variable (C : Crypto) (L : Libc)

/-- `verifyPayload`. -/
def verifyPayloadSlotted (texts : FileTexts) (keys : Option KeySet) (verified : Bool)
    (decode : Call Bytes) (nowUnix : Int64) : Slotted ρ ω (Json × FileClaims) :=
  if verified = false ∧ keys.isNone = true then
    raise (errorSet .signatureInvalid (ascii texts.signatureInvalid))
  else do
    let probe ← attempt (ofCall (readPayload L texts decode))
    if verified then Slotted.handOn (probe.map fun _ => ()) else keySetLabelFailureSlotted keys probe
    ofCall (finish texts probe.toOption nowUnix)

/-- `tamga_license_file_verify_core`. -/
def licenseFileVerifyCoreSlotted (pem : Option Bytes) (ed25519Pubkey : Option PublicKey)
    (keys : Option KeySet) (licenseKey : Option Bytes) (nowUnix : Int64) :
    Slotted ρ ω (Json × FileClaims) :=
  match pem with
  | none => ofCall (Call.fail .nullArgument "a required argument was null")
  | some pem =>
      if ed25519Pubkey.isNone = true ∧ keys.isNone = true then
        ofCall (Call.fail .nullArgument "a required argument was null")
      else do
        let (cert, encrypted) ← ofCall (licenseOpen L pem)
        let signature ← ofCall (licenseDecodeSignature cert)
        verifyPayloadSlotted L licenseTexts keys
          (licenseVerified C keys ed25519Pubkey cert.enc signature)
          (licenseDecodePayload C cert encrypted licenseKey) nowUnix

/-- `tamga_license_file_verify_at`. -/
def licenseFileVerifyAtSlotted (pem : Option Bytes) (ed25519Pubkey : Option PublicKey)
    (licenseKey : Option Bytes) (nowUnix : Int64) : Slotted ρ ω (Json × FileClaims) :=
  match ed25519Pubkey with
  | none => ofCall (Call.fail .nullArgument "a required argument was null")
  | some key => licenseFileVerifyCoreSlotted C L pem (some key) none licenseKey nowUnix

/-- `tamga_license_file_verify_at_with_key_set`. -/
def licenseFileVerifyAtWithKeySetSlotted (pem : Option Bytes) (keys : Option KeySet)
    (licenseKey : Option Bytes) (nowUnix : Int64) : Slotted ρ ω (Json × FileClaims) :=
  match keys with
  | none => ofCall (Call.fail .nullArgument "a key set is required")
  | some keys => licenseFileVerifyCoreSlotted C L pem none (some keys) licenseKey nowUnix

/-- `tamga_machine_file_verify_core`. -/
def machineFileVerifyCoreSlotted (pem : Option Bytes) (scheme : UInt32) (pubkey : Option Bytes)
    (keys : Option KeySet) (licenseKey fingerprint : Option Bytes) (nowUnix : Int64) :
    Slotted ρ ω (Json × FileClaims) :=
  match pem with
  | none => ofCall (Call.fail .nullArgument "a required argument was null")
  | some pem =>
      if pubkey.isNone = true ∧ keys.isNone = true then
        ofCall (Call.fail .nullArgument "a required argument was null")
      else if machineKeyRefused keys pubkey then
        ofCall (Call.fail .lengthInvalid
          "public key length is zero or exceeds the accepted maximum")
      else do
        let (cert, encrypted) ← ofCall (machineOpen L pem scheme)
        let signature ← ofCall (decodeBase64 cert.sig "could not decode the signature"
          "the signature field is not valid base64")
        verifyPayloadSlotted L machineTexts keys
          (machineVerified C scheme keys pubkey cert.enc signature)
          (machineDecodePayload C cert encrypted licenseKey fingerprint) nowUnix

/-- `tamga_machine_file_verify_at`. -/
def machineFileVerifyAtSlotted (pem : Option Bytes) (scheme : UInt32)
    (pubkey licenseKey fingerprint : Option Bytes) (nowUnix : Int64) :
    Slotted ρ ω (Json × FileClaims) :=
  match pubkey with
  | none => ofCall (Call.fail .nullArgument "a required argument was null")
  | some pubkey =>
      machineFileVerifyCoreSlotted C L pem scheme (some pubkey) none licenseKey fingerprint nowUnix

/-- `tamga_machine_file_verify_at_with_key_set`. -/
def machineFileVerifyAtWithKeySetSlotted (pem : Option Bytes) (scheme : UInt32)
    (keys : Option KeySet) (licenseKey fingerprint : Option Bytes) (nowUnix : Int64) :
    Slotted ρ ω (Json × FileClaims) :=
  match keys with
  | none => ofCall (Call.fail .nullArgument "a key set is required")
  | some keys =>
      if scheme ≠ schemeEd25519Sign then
        match machineAlgSuffix scheme with
        | none =>
            ofCall (Call.fail .unsupportedScheme
              "this signing scheme is not valid for a machine file")
        | some _ =>
            ofCall (Call.fail .keyIdNotApplicable
              "a machine file's kid names the account's Ed25519 key whatever scheme signed the file, so it cannot select an RSA or ECDSA key; verify this one with the account's own key for its algorithm")
      else
        machineFileVerifyCoreSlotted C L pem scheme none (some keys) licenseKey fingerprint nowUnix

/-! ## The public functions -/

/-- `tamga_check_span`. -/
def checkSpan (span : Option Bytes) (what : String) : Call Unit :=
  match span with
  | none => Call.fail .nullArgument (what ++ " must not be null")
  | some bytes =>
      if bytes.length = 0 ∨ bytes.length > maxReasonableLen then
        Call.fail .lengthInvalid (what ++ " length is zero or exceeds the accepted maximum")
      else return ()

/-- An argument that must not be NULL. -/
def checkGiven (given : Bool) (message : String) : Call Unit :=
  if given then return () else Call.fail .nullArgument message

/-- The end of the four verification functions: the resource in its handle. -/
def wrapHandle (resource : Json) : Call Json :=
  Call.orFail .outOfMemory "could not allocate the handle" do
    if ← malloc then return some resource else return none

/-- The four verification functions: they differ in the check of the key and in the verifier. The
    clock may not be readable. -/
def fileVerify (pem : Option Bytes) (checkKey : Call Unit) (outHandle : Bool)
    (clock : Option Int64) (verifyAt : Int64 → Slotted ρ ω (Json × FileClaims)) : Slotted ρ ω Json :=
  entry do
    ofCall (checkSpan pem "pem")
    ofCall checkKey
    ofCall (checkGiven outHandle "out_handle must not be null")
    match clock with
    | none =>
        raise (errorSet .unknown
          (ascii "the system clock could not be read, so the file's expiry could not be checked"))
    | some nowUnix => do
        let (resource, _) ← verifyAt nowUnix
        ofCall (wrapHandle resource)

/-- `tamga_license_file_verify`. -/
def licenseFileVerify (pem : Option Bytes) (ed25519Pubkey : Option PublicKey)
    (licenseKey : Option Bytes) (outHandle : Bool) (clock : Option Int64) : Slotted ρ ω Json :=
  fileVerify pem (checkGiven ed25519Pubkey.isSome "ed25519_pubkey must not be null") outHandle clock
    (licenseFileVerifyAtSlotted C L pem ed25519Pubkey licenseKey)

/-- `tamga_license_file_verify_with_key_set`. -/
def licenseFileVerifyWithKeySet (pem : Option Bytes) (keys : Option KeySet)
    (licenseKey : Option Bytes) (outHandle : Bool) (clock : Option Int64) : Slotted ρ ω Json :=
  fileVerify pem (checkGiven keys.isSome "keys must not be null") outHandle clock
    (licenseFileVerifyAtWithKeySetSlotted C L pem keys licenseKey)

/-- `tamga_machine_file_verify`. -/
def machineFileVerify (pem : Option Bytes) (scheme : UInt32)
    (pubkey licenseKey fingerprint : Option Bytes) (outHandle : Bool) (clock : Option Int64) :
    Slotted ρ ω Json :=
  fileVerify pem (checkSpan pubkey "pubkey") outHandle clock
    (machineFileVerifyAtSlotted C L pem scheme pubkey licenseKey fingerprint)

/-- `tamga_machine_file_verify_with_key_set`. -/
def machineFileVerifyWithKeySet (pem : Option Bytes) (scheme : UInt32) (keys : Option KeySet)
    (licenseKey fingerprint : Option Bytes) (outHandle : Bool) (clock : Option Int64) :
    Slotted ρ ω Json :=
  fileVerify pem (checkGiven keys.isSome "keys must not be null") outHandle clock
    (machineFileVerifyAtWithKeySetSlotted C L pem scheme keys licenseKey fingerprint)

/-- `tamga_offline_proof_verify`. -/
def offlineProofVerify (proof rsaPubkey accountId machineId fingerprint datasetJson : Option Bytes)
    (outValid : Bool) : Slotted ρ ω Bool :=
  entry do
    ofCall (checkSpan rsaPubkey "rsa_pubkey")
    ofCall (checkGiven outValid "out_valid must not be null")
    ofCall (proofVerify C L proof rsaPubkey accountId machineId fingerprint datasetJson)

/-- `tamga_signing_key_set_new`. -/
def signingKeySetNew (outSet : Bool) : Slotted ρ ω KeySet :=
  entry do
    ofCall (checkGiven outSet "out_set must not be null")
    ofCall keySetCreate

/-- The status of `tamga_signing_key_set_add_public_key`; the set it leaves behind is that of
    `keySetAddPublicKey`. -/
def signingKeySetAddPublicKey (set : Option KeySet) (publicKey : Option Bytes) : Slotted ρ ω Unit :=
  entry do
    ofCall (checkGiven set.isSome "set must not be null")
    ofCall (checkGiven publicKey.isSome "ed25519_public_key must not be null")
    ofCall (ExceptT.mk (Prod.snd <$> keySetAddPublicKey C (set.getD KeySet.empty) publicKey))

/-- `tamga_signing_key_set_add_json`. -/
def signingKeySetAddJson (set : Option KeySet) (json : Option Bytes) :
    Slotted ρ ω (KeySet × AddedCounts) :=
  entry do
    ofCall (checkGiven set.isSome "set must not be null")
    ofCall (checkSpan json "json")
    ofCall (keySetAddJson C L (set.getD KeySet.empty) json)

variable (qsort : List FpComponent → List FpComponent)

/-- `tamga_fingerprint_canonical`. -/
def fingerprintCanonical (pairs : Option (List (Option Bytes × Option Bytes)))
    (outCanonical : Bool) : Slotted ρ ω Bytes :=
  entry do
    ofCall (checkGiven outCanonical "out_canonical is required")
    ofCall (fingerprintBuildCanonical qsort pairs)

/-- `tamga_fingerprint_compute`. -/
def fingerprintCompute (pairs : Option (List (Option Bytes × Option Bytes)))
    (outFingerprint : Bool) : Slotted ρ ω Bytes :=
  entry do
    ofCall (checkGiven outFingerprint "out_fingerprint is required")
    let canonical ← ofCall (fingerprintBuildCanonical qsort pairs)
    ofCall (Call.orFail .outOfMemory "could not build the fingerprint" do
      if ← malloc then return some (hexEncode (C.sha256 canonical)) else return none)

/-! ## Verification and the slot -/

section Verification

variable {C L} {α : Type} {x : Slotted ρ ω α} {y : Call α} {q : ErrorSlot → ErrorSlot}

/-- What an attempt leaves behind: it does not fail itself. -/
def attemptView : Except Failure (Except Failure α) → Option Failure
  | .error f => some f
  | .ok status => failureOf status

theorem Slotted.follows_attempt (h : Slotted.Follows q x y) :
    Tamga.Follows q attemptView (attempt x).run (ofAlloc (Call.attempt y).run) := by
  intro slot
  show Tracks slot (Except.ok <$> x.run) (ofAlloc (Except.ok <$> y.run)) _
  rw [map_eq_pure_bind, map_eq_pure_bind, ofAlloc_bind]
  exact (h slot).bind fun _ => .pure rfl

/-- **Labelling reports.** It starts with the slot as the probe left it, and what it returns is what it
    left there. -/
theorem keySetLabelFailureSlotted_tracks (set : Option KeySet) (probe : Except Failure Json)
    (slot : ErrorSlot) :
    Tracks (slot.after (failureOf probe))
      (keySetLabelFailureSlotted set probe : Slotted ρ ω Unit).run
      (pure (keySetLabelFailure set probe)) fun r => slot.after (failureOf r) := by
  unfold keySetLabelFailureSlotted keySetLabelFailure
  cases probe with
  | error f =>
    dsimp only
    split
    · exact .pure rfl
    · exact rfl
  | ok payload =>
    dsimp only
    cases keySetSelect set (claimsKeyId (payload.objectGet (ascii "meta"))) with
    | ok key => exact rfl
    | error f =>
      -- the slot holds the message of the selection now
      show Tracks (holding f) (ExceptT.run (ite (f.code = .invalidJson) _ _)) _ _
      dsimp only
      split
      · exact rfl
      · exact .pure rfl

/-- **The slot is on the side.** Without it, verification is what it is in `Checkout.Verify`. -/
theorem verifyPayloadSlotted_follows (texts : FileTexts) (keys : Option KeySet) (verified : Bool)
    (decode : Call Bytes) (nowUnix : Int64) :
    Slotted.Follows id (verifyPayloadSlotted L texts keys verified decode nowUnix : Slotted ρ ω _)
      (verifyPayload L texts keys verified decode nowUnix) := by
  unfold verifyPayloadSlotted verifyPayload
  split
  · exact .raise _
  intro slot
  rw [ExceptT.run_bind, ExceptT.run_bind, ofAlloc_bind]
  refine (Slotted.follows_attempt (.ofCall _) slot).bind ?_
  rintro (f | probe)
  · exact .pure rfl
  cases verified with
  | true =>
    cases probe with
    | error f => exact .pure rfl
    | ok payload => exact Follows.ofCall (finish texts (some payload) nowUnix) slot
  | false =>
    have hgate := keySetLabelFailureSlotted_tracks (ρ := ρ) (ω := ω) keys probe slot
    dsimp only [Bool.false_eq_true]
    rw [if_neg Bool.false_ne_true, if_neg Bool.false_ne_true, ExceptT.run_bind]
    generalize keySetLabelFailure keys probe = gate at hgate ⊢
    show Tracks (slot.after (failureOf probe)) _ _ _
    unfold Tracks at hgate ⊢
    rw [StateT.run_bind, hgate]
    cases gate with
    | error f => exact rfl
    | ok _ => exact Follows.ofCall (finish texts probe.toOption nowUnix) slot

theorem licenseFileVerifyCoreSlotted_follows (pem : Option Bytes) (key : Option PublicKey)
    (keys : Option KeySet) (licenseKey : Option Bytes) (nowUnix : Int64) :
    Slotted.Follows id
      (licenseFileVerifyCoreSlotted C L pem key keys licenseKey nowUnix : Slotted ρ ω _)
      (licenseFileVerifyCore C L pem key keys licenseKey nowUnix) := by
  unfold licenseFileVerifyCoreSlotted licenseFileVerifyCore
  split
  · exact .ofCall _
  dsimp only
  split
  · exact .ofCall _
  · exact Follows.ofCall_bind fun _ => Follows.ofCall_bind fun _ =>
      verifyPayloadSlotted_follows _ _ _ _ _

theorem machineFileVerifyCoreSlotted_follows (pem : Option Bytes) (scheme : UInt32)
    (pubkey : Option Bytes) (keys : Option KeySet) (licenseKey fingerprint : Option Bytes)
    (nowUnix : Int64) :
    Slotted.Follows id
      (machineFileVerifyCoreSlotted C L pem scheme pubkey keys licenseKey fingerprint nowUnix :
        Slotted ρ ω _)
      (machineFileVerifyCore C L pem scheme pubkey keys licenseKey fingerprint nowUnix) := by
  unfold machineFileVerifyCoreSlotted machineFileVerifyCore
  split
  · exact .ofCall _
  dsimp only
  split
  · exact .ofCall _
  split
  · exact .ofCall _
  · exact Follows.ofCall_bind fun _ => Follows.ofCall_bind fun _ =>
      verifyPayloadSlotted_follows _ _ _ _ _

theorem licenseFileVerifyAtSlotted_follows (pem : Option Bytes) (key : Option PublicKey)
    (licenseKey : Option Bytes) (nowUnix : Int64) :
    Slotted.Follows id (licenseFileVerifyAtSlotted C L pem key licenseKey nowUnix : Slotted ρ ω _)
      (licenseFileVerifyAt C L pem key licenseKey nowUnix) := by
  cases key with
  | none => exact .ofCall _
  | some key => exact licenseFileVerifyCoreSlotted_follows _ _ _ _ _

theorem licenseFileVerifyAtWithKeySetSlotted_follows (pem : Option Bytes) (keys : Option KeySet)
    (licenseKey : Option Bytes) (nowUnix : Int64) :
    Slotted.Follows id
      (licenseFileVerifyAtWithKeySetSlotted C L pem keys licenseKey nowUnix : Slotted ρ ω _)
      (licenseFileVerifyAtWithKeySet C L pem keys licenseKey nowUnix) := by
  cases keys with
  | none => exact .ofCall _
  | some keys => exact licenseFileVerifyCoreSlotted_follows _ _ _ _ _

theorem machineFileVerifyAtSlotted_follows (pem : Option Bytes) (scheme : UInt32)
    (pubkey licenseKey fingerprint : Option Bytes) (nowUnix : Int64) :
    Slotted.Follows id
      (machineFileVerifyAtSlotted C L pem scheme pubkey licenseKey fingerprint nowUnix :
        Slotted ρ ω _)
      (machineFileVerifyAt C L pem scheme pubkey licenseKey fingerprint nowUnix) := by
  cases pubkey with
  | none => exact .ofCall _
  | some pubkey => exact machineFileVerifyCoreSlotted_follows _ _ _ _ _ _ _

theorem machineFileVerifyAtWithKeySetSlotted_follows (pem : Option Bytes) (scheme : UInt32)
    (keys : Option KeySet) (licenseKey fingerprint : Option Bytes) (nowUnix : Int64) :
    Slotted.Follows id
      (machineFileVerifyAtWithKeySetSlotted C L pem scheme keys licenseKey fingerprint nowUnix :
        Slotted ρ ω _)
      (machineFileVerifyAtWithKeySet C L pem scheme keys licenseKey fingerprint nowUnix) := by
  cases keys with
  | none => exact .ofCall _
  | some keys =>
    unfold machineFileVerifyAtWithKeySetSlotted machineFileVerifyAtWithKeySet
    dsimp only
    split
    · cases machineAlgSuffix scheme with
      | none => exact .ofCall _
      | some suffix => exact .ofCall _
    · exact machineFileVerifyCoreSlotted_follows _ _ _ _ _ _ _

/-- The four verification functions without the slot: the checks, the clock, the verifier, the handle. -/
def fileVerifyPlain (pem : Option Bytes) (checkKey : Call Unit) (outHandle : Bool)
    (clock : Option Int64) (verifyAt : Int64 → Call (Json × FileClaims)) : Call Json := do
  checkSpan pem "pem"
  checkKey
  checkGiven outHandle "out_handle must not be null"
  match clock with
  | none =>
      Call.fail .unknown
        "the system clock could not be read, so the file's expiry could not be checked"
  | some nowUnix => do
      let (resource, _) ← verifyAt nowUnix
      wrapHandle resource

theorem fileVerify_follows {pem : Option Bytes} {checkKey : Call Unit} {outHandle : Bool}
    {clock : Option Int64} {verifyAt : Int64 → Slotted ρ ω (Json × FileClaims)}
    {verify : Int64 → Call (Json × FileClaims)}
    (h : ∀ nowUnix, Slotted.Follows id (verifyAt nowUnix) (verify nowUnix)) :
    Slotted.Follows (fun _ => empty) (fileVerify pem checkKey outHandle clock verifyAt)
      (fileVerifyPlain pem checkKey outHandle clock verify) := by
  refine Follows.entry (Follows.ofCall_bind fun _ => Follows.ofCall_bind fun _ =>
    Follows.ofCall_bind fun _ => ?_)
  cases clock with
  | none => exact .raise _
  | some nowUnix => exact (h nowUnix).bind fun _ => .ofCall _

/-- **The slot is a function of the outcome.** Whatever an earlier call left in the slot, and whatever is
    refused, each verification function is its argument checks followed by the verifier of `Checkout`; the
    slot it leaves is empty behind `TAMGA_OK`, and else holds the text of the failure returned. -/
theorem verification_slot (pem licenseKey : Option Bytes) (outHandle : Bool) (clock : Option Int64) :
    (∀ key, Slotted.Follows (fun _ => empty)
      (licenseFileVerify C L pem key licenseKey outHandle clock : Slotted ρ ω Json)
      (fileVerifyPlain pem (checkGiven key.isSome "ed25519_pubkey must not be null") outHandle clock
        (licenseFileVerifyAt C L pem key licenseKey))) ∧
    (∀ keys, Slotted.Follows (fun _ => empty)
      (licenseFileVerifyWithKeySet C L pem keys licenseKey outHandle clock : Slotted ρ ω Json)
      (fileVerifyPlain pem (checkGiven keys.isSome "keys must not be null") outHandle clock
        (licenseFileVerifyAtWithKeySet C L pem keys licenseKey))) ∧
    (∀ scheme pubkey fingerprint, Slotted.Follows (fun _ => empty)
      (machineFileVerify C L pem scheme pubkey licenseKey fingerprint outHandle clock : Slotted ρ ω Json)
      (fileVerifyPlain pem (checkSpan pubkey "pubkey") outHandle clock
        (machineFileVerifyAt C L pem scheme pubkey licenseKey fingerprint))) ∧
    ∀ scheme keys fingerprint, Slotted.Follows (fun _ => empty)
      (machineFileVerifyWithKeySet C L pem scheme keys licenseKey fingerprint outHandle clock :
        Slotted ρ ω Json)
      (fileVerifyPlain pem (checkGiven keys.isSome "keys must not be null") outHandle clock
        (machineFileVerifyAtWithKeySet C L pem scheme keys licenseKey fingerprint)) := by
  refine ⟨fun key => ?_, fun keys => ?_, fun scheme pubkey fingerprint => ?_,
      fun scheme keys fingerprint => ?_⟩
  · exact fileVerify_follows (licenseFileVerifyAtSlotted_follows pem key licenseKey)
  · exact fileVerify_follows (licenseFileVerifyAtWithKeySetSlotted_follows pem keys licenseKey)
  · exact fileVerify_follows (machineFileVerifyAtSlotted_follows pem scheme pubkey licenseKey fingerprint)
  · exact fileVerify_follows
      (machineFileVerifyAtWithKeySetSlotted_follows pem scheme keys licenseKey fingerprint)

end Verification

/-! ## Every public offline function -/

/-- A call of a public function, with its arguments. An out-parameter is there or NULL. -/
inductive OfflineCall : Type where
  | licenseFileVerify (pem : Option Bytes) (ed25519Pubkey : Option PublicKey)
      (licenseKey : Option Bytes) (outHandle : Bool) (clock : Option Int64)
  | licenseFileVerifyWithKeySet (pem : Option Bytes) (keys : Option KeySet)
      (licenseKey : Option Bytes) (outHandle : Bool) (clock : Option Int64)
  | machineFileVerify (pem : Option Bytes) (scheme : UInt32)
      (pubkey licenseKey fingerprint : Option Bytes) (outHandle : Bool) (clock : Option Int64)
  | machineFileVerifyWithKeySet (pem : Option Bytes) (scheme : UInt32) (keys : Option KeySet)
      (licenseKey fingerprint : Option Bytes) (outHandle : Bool) (clock : Option Int64)
  | offlineProofVerify (proof rsaPubkey accountId machineId fingerprint datasetJson : Option Bytes)
      (outValid : Bool)
  | signingKeySetNew (outSet : Bool)
  | signingKeySetAddPublicKey (set : Option KeySet) (publicKey : Option Bytes)
  | signingKeySetAddJson (set : Option KeySet) (json : Option Bytes)
  | fingerprintCanonical (pairs : Option (List (Option Bytes × Option Bytes))) (outCanonical : Bool)
  | fingerprintCompute (pairs : Option (List (Option Bytes × Option Bytes))) (outFingerprint : Bool)

/-- The status alone; no failure is `TAMGA_OK`. -/
def Slotted.status {α : Type} (x : Slotted ρ ω α) :
    StateT ErrorSlot (Interact ρ ω) (Option Failure) :=
  failureOf <$> x.run

def OfflineCall.status : OfflineCall → StateT ErrorSlot (Interact ρ ω) (Option Failure)
  | licenseFileVerify pem key licenseKey outHandle clock =>
      (Tamga.licenseFileVerify C L pem key licenseKey outHandle clock).status
  | licenseFileVerifyWithKeySet pem keys licenseKey outHandle clock =>
      (Tamga.licenseFileVerifyWithKeySet C L pem keys licenseKey outHandle clock).status
  | machineFileVerify pem scheme pubkey licenseKey fingerprint outHandle clock =>
      (Tamga.machineFileVerify C L pem scheme pubkey licenseKey fingerprint outHandle clock).status
  | machineFileVerifyWithKeySet pem scheme keys licenseKey fingerprint outHandle clock =>
      (Tamga.machineFileVerifyWithKeySet C L pem scheme keys licenseKey fingerprint outHandle
        clock).status
  | offlineProofVerify proof rsaPubkey accountId machineId fingerprint datasetJson outValid =>
      (Tamga.offlineProofVerify C L proof rsaPubkey accountId machineId fingerprint datasetJson
        outValid).status
  | signingKeySetNew outSet => (Tamga.signingKeySetNew outSet).status
  | signingKeySetAddPublicKey set publicKey => (Tamga.signingKeySetAddPublicKey C set publicKey).status
  | signingKeySetAddJson set json => (Tamga.signingKeySetAddJson C L set json).status
  | fingerprintCanonical pairs outCanonical =>
      (Tamga.fingerprintCanonical qsort pairs outCanonical).status
  | fingerprintCompute pairs outFingerprint =>
      (Tamga.fingerprintCompute C qsort pairs outFingerprint).status

/-- **The offline functions report.** -/
theorem OfflineCall.status_reports (call : OfflineCall) :
    Tamga.Reports (fun _ => empty) id
      (call.status C L qsort : StateT ErrorSlot (Interact ρ ω) (Option Failure)) := by
  have hfile : ∀ {α : Type} {x : Slotted ρ ω α} {y : Call α}, Slotted.Follows (fun _ => empty) x y →
      Tamga.Reports (fun _ => empty) id x.status := fun h => h.status.reports
  cases call with
  | licenseFileVerify => exact hfile (fileVerify_follows (licenseFileVerifyAtSlotted_follows _ _ _))
  | licenseFileVerifyWithKeySet =>
    exact hfile (fileVerify_follows (licenseFileVerifyAtWithKeySetSlotted_follows _ _ _))
  | machineFileVerify => exact hfile (fileVerify_follows (machineFileVerifyAtSlotted_follows _ _ _ _ _))
  | machineFileVerifyWithKeySet =>
    exact hfile (fileVerify_follows (machineFileVerifyAtWithKeySetSlotted_follows _ _ _ _ _))
  | offlineProofVerify | signingKeySetAddPublicKey | signingKeySetAddJson | fingerprintCompute =>
    exact hfile (Follows.entry (Follows.ofCall_bind fun _ => Follows.ofCall_bind fun _ => .ofCall _))
  | signingKeySetNew | fingerprintCanonical =>
    exact hfile (Follows.entry (Follows.ofCall_bind fun _ => .ofCall _))

end Tamga
