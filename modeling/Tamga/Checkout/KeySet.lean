import Tamga.Checkout.Cert
import Tamga.Crypto
import Tamga.Util.Uuid

/-!
# `Checkout.KeySet` — the trusted signing keys (`checkout/key_set.c`)

A set is a growing table of (key id, public key) entries. Entries are only ever appended; a key is
found by trying every one of them against a signature, and a key id is only used to word a failure.

Ids are C strings: what the code takes out of a JSON string it reads up to the first NUL.
-/

namespace Tamga

open Alloc Json

/-- `TamgaSigningKeyEntry`. -/
structure KeySetEntry where
  keyId : Bytes
  publicKey : PublicKey
  deriving DecidableEq

/-- `TamgaSigningKeySet`; `count` is the number of entries. -/
structure KeySet where
  entries : List KeySetEntry
  capacity : Nat
  deriving DecidableEq

/-- The set `tamga_key_set_create` returns. -/
def KeySet.empty : KeySet := ⟨[], 0⟩

/-- `tamga_key_set_create`. -/
def keySetCreate : Call KeySet :=
  Call.orFail .outOfMemory "could not allocate the key set" do
    if ← malloc then return some KeySet.empty else return none

/-! ## Key ids -/

/-- `tamga_signing_key_id_compute`: eight bytes of the digest of the base64 text itself. -/
def signingKeyIdCompute (C : Crypto) (publicKey : Bytes) : Bytes :=
  hexEncode ((C.sha256 publicKey).take 8)

/-- `tamga_claims_key_id`. -/
def claimsKeyId (claims : Option Json) : Option Bytes :=
  (claims.bind fun claims => stringField claims "kid").map cstr

/-- `TAMGA_UNPUBLISHED_KEY_ID`: the id of the empty key. -/
def unpublishedKeyId : Bytes := ascii "e3b0c44298fc1c14"

/-! ## Growing -/

/-- `TAMGA_KEY_SET_INITIAL_CAPACITY`. -/
def keySetInitialCapacity : Nat := 4

/-- `sizeof(TamgaSigningKeyEntry)`. -/
def keySetEntrySize : Nat := 40

/-- The doubling loop; `none` when it would overflow. -/
def keySetDouble (needed : Nat) : (fuel capacity : Nat) → Option Nat
  | 0, _ => none
  | fuel + 1, capacity =>
      if capacity < needed then
        match checkedMul capacity 2 with
        | none => none
        | some doubled => keySetDouble needed fuel doubled
      else some capacity

/-- The capacity a set of `capacity` grows to for `needed` entries, when that many fit. -/
def keySetCapacity (capacity needed : Nat) : Option Nat :=
  match keySetDouble needed 65 (if capacity = 0 then keySetInitialCapacity else capacity) with
  | none => none
  | some capacity => (checkedMul capacity keySetEntrySize).map fun _ => capacity

/-- `tamga_key_set_reserve`: on failure the set is as it was. -/
def keySetReserve (set : KeySet) (additional : Nat) : Call KeySet :=
  match checkedAdd set.entries.length additional with
  | none => Call.fail .outOfMemory "the key set is too large to grow"
  | some needed =>
      if needed ≤ set.capacity then return set
      else
        match keySetCapacity set.capacity needed with
        | none => Call.fail .outOfMemory "the key set is too large to grow"
        | some capacity => do
            if ← malloc then return { set with capacity }
            else Call.fail .outOfMemory "could not grow the key set"

/-- `tamga_key_set_append`: the set it leaves behind, and its status. -/
def keySetAppend (set : KeySet) (keyId : Bytes) (publicKey : PublicKey) :
    Alloc (KeySet × Except Failure Unit) := do
  match ← (keySetReserve set 1).run with
  | .error f => return (set, .error f)
  | .ok set =>
      match ← strdup keyId with
      | none =>
          return (set, .error (errorSet .outOfMemory (ascii "could not copy a signing key id")))
      | some copy => return ({ set with entries := set.entries ++ [⟨copy, publicKey⟩] }, .ok ())

/-- What `tamga_signing_key_decode` makes of the decoder's answer: the key, or why there is none. -/
def signingKeyOf : Except Base64Failure Bytes → Except ErrorCode PublicKey
  | .error .outOfMemory => .error .outOfMemory
  | .error .malformed => .error .invalidBase64
  | .ok decoded => if h : decoded.length = 32 then .ok ⟨decoded, h⟩ else .error .lengthInvalid

/-- `tamga_signing_key_decode`. -/
def signingKeyDecode (publicKey : Bytes) : Alloc (Except ErrorCode PublicKey) :=
  signingKeyOf <$> (base64DecodeAllocWhy publicKey).run

/-- The failure `tamga_key_set_add_public_key` makes of it. -/
def publicKeyFailure : ErrorCode → Failure
  | .outOfMemory => errorSet .outOfMemory (ascii "could not decode the public key")
  | .lengthInvalid =>
      errorSet .lengthInvalid (ascii "an Ed25519 public key decodes to 32 bytes; this one does not")
  | _ =>
      errorSet .invalidBase64
        (ascii "an Ed25519 public key must be standard base64 of its raw bytes")

/-- `tamga_key_set_add_public_key`: the set it leaves behind, and its status. -/
def keySetAddPublicKey (C : Crypto) (set : KeySet) (publicKey : Option Bytes) :
    Alloc (KeySet × Except Failure Unit) :=
  match publicKey with
  | none => pure (set, .error (errorSet .nullArgument (ascii "set and public_key are required")))
  | some publicKey =>
      if publicKey.length > maxReasonableLen then
        pure (set, .error (errorSet .lengthInvalid
          (ascii "the public key exceeds the accepted maximum length")))
      else do
        match ← signingKeyDecode publicKey with
        | .error why => return (set, .error (publicKeyFailure why))
        | .ok decoded => keySetAppend set (signingKeyIdCompute C publicKey) decoded

/-! ## A published document -/

/-- `tamga_ascii_equals_ignoring_case`, on two C strings. -/
def asciiEqualsIgnoringCase : Bytes → Bytes → Bool
  | [], [] => true
  | a :: as, b :: bs => asciiLower a = asciiLower b && asciiEqualsIgnoringCase as bs
  | _, _ => false

/-- The staging set, and the rows that were skipped or whose id is not the computed one. -/
structure Staging where
  set : KeySet
  skipped : Nat
  mismatched : Nat

def Staging.skip (staging : Staging) : Staging := { staging with skipped := staging.skipped + 1 }

/-- What the code reads of one `signing-keys` resource: id, algorithm and key. -/
def signingKeyFields (resource : Json) : Option (Bytes × Bytes × Bytes) :=
  let attributes := resource.objectGet (ascii "attributes")
  match stringField resource "id", attributes.bind (stringField · "algorithm"),
      attributes.bind (stringField · "publicKey") with
  | some servedId, some algorithm, some publicKey => some (cstr servedId, cstr algorithm, publicKey)
  | _, _, _ => none

/-- `tamga_key_set_stage_resource`: an unusable row is counted, not an error. -/
def keySetStageResource (C : Crypto) (staging : Staging) (resource : Json) : Call Staging :=
  match signingKeyFields resource with
  | none => return staging.skip
  | some (servedId, algorithm, publicKey) =>
      if servedId = [] ∨ asciiEqualsIgnoringCase algorithm (ascii "ed25519") = false then
        return staging.skip
      else do
        match ← (liftM (signingKeyDecode publicKey) : Call (Except ErrorCode PublicKey)) with
        | .error .outOfMemory => Call.fail .outOfMemory "could not decode a published key"
        | .error _ => return staging.skip
        | .ok decoded =>
            -- the served id is the one files name; a mismatch is only counted
            let mismatched := if signingKeyIdCompute C publicKey = servedId then staging.mismatched
              else staging.mismatched + 1
            match ← (liftM (keySetAppend staging.set servedId decoded) :
                Call (KeySet × Except Failure Unit)) with
            | (_, .error f) => throwThe Failure f
            | (set, .ok ()) => return ⟨set, staging.skipped, mismatched⟩

/-- The counts `tamga_key_set_add_json` returns. -/
structure AddedCounts where
  added : Nat
  skipped : Nat
  mismatched : Nat
  deriving DecidableEq

/-- The part of `tamga_key_set_add_json` after the document is parsed. -/
def keySetMerge (C : Crypto) (set : KeySet) (document : Json) : Call (KeySet × AddedCounts) :=
  match document.objectGet (ascii "data") with
  | some (.arr resources) => do
      let staged ← keySetCreate
      let staging ← resources.foldlM (keySetStageResource C) ⟨staged, 0, 0⟩
      let set ← keySetReserve set staging.set.entries.length
      return ({ set with entries := set.entries ++ staging.set.entries },
        ⟨staging.set.entries.length, staging.skipped, staging.mismatched⟩)
  | _ =>
      Call.fail .invalidJson
        "a signing-key document is a JSON:API collection with a data array; this one has none"

/-- `tamga_key_set_add_json`; a failed call leaves the set as it was. -/
def keySetAddJson (C : Crypto) (L : Libc) (set : KeySet) (json : Option Bytes) :
    Call (KeySet × AddedCounts) :=
  match json with
  | none => Call.fail .nullArgument "set and json are required"
  | some json =>
      if json.length = 0 ∨ json.length > maxReasonableLen then
        Call.fail .lengthInvalid
          "the key-set document's length is zero or exceeds the accepted maximum"
      else do
        let document ← parseDocument L json "could not parse the key set"
          "the key set is malformed: "
        keySetMerge C set document

/-! ## Finding and labelling -/

/-- `tamga_key_set_lookup`. -/
def keySetLookup (set : KeySet) (keyId : Bytes) : Option PublicKey :=
  (set.entries.find? fun entry => entry.keyId = keyId).map KeySetEntry.publicKey

/-- `TAMGA_KEY_ID_DIAGNOSTIC_CAP`. -/
def keyIdDiagnosticCap : Nat := 64

/-- `tamga_key_set_select`. -/
def keySetSelect (set : Option KeySet) (keyId : Option Bytes) : Except Failure PublicKey :=
  match set with
  | none => .error (errorSet .nullArgument (ascii "a key set is required"))
  | some set =>
      match keyId with
      | none | some [] =>
          .error (errorSet .invalidJson
            (ascii "the signed payload names no kid, so no signing key can be selected"))
      | some keyId =>
          match keySetLookup set keyId with
          | some publicKey => .ok publicKey
          | none =>
              if keyId = unpublishedKeyId then
                .error (errorSet .signingKeyNotPublished
                  (ascii "this file names the key id of an account with no published Ed25519 public key (" ++
                    unpublishedKeyId ++
                    ascii "), so no key set can ever match it; verify with the account's own key instead"))
              else
                .error (errorSet .unknownSigningKey
                  (ascii "no signing key for kid " ++ keyId.take keyIdDiagnosticCap ++
                    ascii " among the " ++ printInt set.entries.length ++
                    ascii " key(s) held; this is a key set that has not caught up with a rotation, not a forged file"))

/-- `tamga_key_set_find_verifier`. -/
def keySetFindVerifier (C : Crypto) (set : KeySet) (message signature : Bytes) : Bool :=
  decide (signature.length = ed25519SigLen) &&
    set.entries.any fun entry => C.ed25519Verify entry.publicKey.val message signature

/-- `tamga_key_set_label_failure`. -/
def keySetLabelFailure (set : Option KeySet) (probe : Except Failure Json) : Except Failure Unit :=
  match probe with
  | .error f =>
      -- neither is a verdict about the signature
      if f.code = .outOfMemory ∨ f.code = .nullArgument then .error f
      else
        .error (errorSet .signatureInvalid
          (ascii "signature did not verify under any held key, and the payload could not be read to name the key it claims"))
  | .ok payload =>
      match keySetSelect set (claimsKeyId (payload.objectGet (ascii "meta"))) with
      | .ok _ =>
          .error (errorSet .signatureInvalid
            (ascii "signature did not verify under any held key, and the kid the file names IS held: a forged or altered file, not a stale set"))
      | .error f =>
          if f.code = .invalidJson then
            .error (errorSet .signatureInvalid
              (ascii "signature did not verify under any held key, and the payload names no kid to label the failure by"))
          else .error f

/-! ## What the operations do to a set -/

section Entries

variable {F : Prop} {C : Crypto} {L : Libc} {set set' : KeySet}

/-- Reserving changes the capacity at most; it fails for lack of memory only. -/
theorem keySetReserve_can {additional : Nat} {r : Except Failure KeySet}
    (h : (keySetReserve set additional).Can F r) :
    (∃ set', r = .ok set' ∧ set'.entries = set.entries) ∨ ∃ f, r = .error f ∧ f.IsOutOfMemory := by
  have refused : ∀ {message : String},
      (Call.fail .outOfMemory message : Call KeySet).Can F r →
        ∃ f, r = .error f ∧ f.IsOutOfMemory :=
    fun {message} h => ⟨errorSet .outOfMemory (ascii message), (Call.can_fail.1 h).symm, rfl⟩
  unfold keySetReserve at h
  cases hadd : checkedAdd set.entries.length additional with
  | none => rw [hadd] at h; exact Or.inr (refused h)
  | some needed =>
    rw [hadd] at h
    dsimp only at h
    by_cases hfit : needed ≤ set.capacity
    · rw [if_pos hfit] at h
      exact Or.inl ⟨set, (AllocE.can_pure.1 h).symm, rfl⟩
    rw [if_neg hfit] at h
    cases hcap : keySetCapacity set.capacity needed with
    | none => rw [hcap] at h; exact Or.inr (refused h)
    | some capacity =>
      rw [hcap] at h
      obtain ⟨b, -, h⟩ := AllocE.can_bind_lift.1 h
      cases b with
      | true => exact Or.inl ⟨_, (AllocE.can_pure.1 h).symm, rfl⟩
      | false => exact Or.inr (refused h)

/-- One entry more, or out of memory and the entries as they were. -/
theorem keySetAppend_can {keyId : Bytes} {publicKey : PublicKey}
    {r : KeySet × Except Failure Unit} (h : (keySetAppend set keyId publicKey).Can F r) :
    (r.2 = .ok () ∧ r.1.entries = set.entries ++ [⟨cstr keyId, publicKey⟩]) ∨
      ∃ f, r.2 = .error f ∧ f.IsOutOfMemory ∧ r.1.entries = set.entries := by
  obtain ⟨s, hs, h⟩ := can_bind.1 h
  rcases keySetReserve_can hs with ⟨grown, rfl, hgrown⟩ | ⟨f, rfl, hf⟩
  · obtain ⟨k, hk, h⟩ := can_bind.1 h
    cases k with
    | none =>
      obtain rfl := can_pure.1 h
      exact Or.inr ⟨_, rfl, rfl, hgrown⟩
    | some copy =>
      obtain rfl := can_pure.1 h
      exact Or.inl ⟨rfl, by rw [(strndup_some hk).1, hgrown]⟩
  · obtain rfl := can_pure.1 h
    exact Or.inr ⟨f, rfl, hf, rfl⟩

/-- A key may be added, none is taken away. -/
theorem keySetAddPublicKey_entries {publicKey : Option Bytes} {r : KeySet × Except Failure Unit}
    (h : (keySetAddPublicKey C set publicKey).Can F r) : set.entries <+: r.1.entries := by
  have same : ∀ {status : Except Failure Unit},
      (pure (set, status) : Alloc (KeySet × Except Failure Unit)).Can F r →
        set.entries <+: r.1.entries :=
    fun h => can_pure.1 h ▸ List.prefix_refl _
  unfold keySetAddPublicKey at h
  cases publicKey with
  | none => exact same h
  | some publicKey =>
    dsimp only at h
    by_cases hlen : publicKey.length > maxReasonableLen
    · rw [if_pos hlen] at h
      exact same h
    rw [if_neg hlen] at h
    obtain ⟨d, -, h⟩ := can_bind.1 h
    cases d with
    | error why => exact same h
    | ok decoded =>
      rcases keySetAppend_can h with ⟨-, hentries⟩ | ⟨f, -, -, hentries⟩
      · exact hentries ▸ List.prefix_append _ _
      · exact hentries ▸ List.prefix_refl _

theorem keySetAddJson_entries {json : Option Bytes} {counts : AddedCounts}
    (h : (keySetAddJson C L set json).Can F (.ok (set', counts))) :
    set.entries <+: set'.entries := by
  unfold keySetAddJson at h
  cases json with
  | none => cases h
  | some json =>
    dsimp only at h
    by_cases hlen : json.length = 0 ∨ json.length > maxReasonableLen
    · rw [if_pos hlen] at h; cases h
    rw [if_neg hlen] at h
    rcases AllocE.can_bind.1 h with ⟨f, -, h⟩ | ⟨document, -, h⟩
    · cases h
    unfold keySetMerge at h
    split at h
    · rcases AllocE.can_bind.1 h with ⟨f, -, h⟩ | ⟨staged, -, h⟩
      · cases h
      rcases AllocE.can_bind.1 h with ⟨f, -, h⟩ | ⟨staging, -, h⟩
      · cases h
      rcases AllocE.can_bind.1 h with ⟨f, -, h⟩ | ⟨grown, hgrown, h⟩
      · cases h
      rcases keySetReserve_can hgrown with ⟨_, ⟨⟩, hentries⟩ | ⟨f, h', -⟩
      · injection AllocE.can_pure.1 h with h
        injection h with hset
        rw [← hset]
        exact hentries ▸ List.prefix_append _ _
      · cases h'
    · cases h

end Entries

/-! ## Verifying and labelling -/

section Verify

variable {C : Crypto} {set set' : KeySet} {message signature : Bytes}

/-- `key` is among the keys held. -/
def KeySet.Holds (set : KeySet) (key : PublicKey) : Prop := ∃ entry ∈ set.entries, entry.publicKey = key

/-- Some held key verifies the signature. -/
theorem keySetFindVerifier_iff :
    keySetFindVerifier C set message signature = true ↔
      signature.length = ed25519SigLen ∧
        ∃ key, set.Holds key ∧ C.ed25519Verify key.val message signature = true := by
  unfold keySetFindVerifier KeySet.Holds
  rw [Bool.and_eq_true, decide_eq_true_iff, List.any_eq_true]
  constructor
  · rintro ⟨hlen, entry, hmem, hverify⟩
    exact ⟨hlen, entry.publicKey, ⟨entry, hmem, rfl⟩, hverify⟩
  · rintro ⟨hlen, _, ⟨entry, hmem, rfl⟩, hverify⟩
    exact ⟨hlen, entry, hmem, hverify⟩

/-- The codes a failed key-set verification is reported under. -/
def labelCodes : List ErrorCode :=
  [.outOfMemory, .nullArgument, .signatureInvalid, .signingKeyNotPublished, .unknownSigningKey]

theorem keySetSelect_error {set : Option KeySet} {keyId : Option Bytes} {f : Failure}
    (h : keySetSelect set keyId = .error f) :
    f.code ∈ [ErrorCode.nullArgument, .invalidJson, .signingKeyNotPublished, .unknownSigningKey] := by
  unfold keySetSelect at h
  split at h
  · cases h; decide
  split at h
  · cases h; decide
  · cases h; decide
  split at h
  · cases h
  split at h
  · cases h; exact List.mem_of_elem_eq_true rfl
  · cases h; exact List.mem_of_elem_eq_true rfl

/-- **Labelling never succeeds.** -/
theorem keySetLabelFailure_error (set : Option KeySet) (probe : Except Failure Json) :
    ∃ f, keySetLabelFailure set probe = .error f ∧ f.code ∈ labelCodes := by
  unfold keySetLabelFailure
  cases probe with
  | error f =>
    dsimp only
    by_cases hf : f.code = .outOfMemory ∨ f.code = .nullArgument
    · rw [if_pos hf]
      refine ⟨f, rfl, ?_⟩
      rcases hf with h | h <;> rw [h] <;> decide
    · rw [if_neg hf]
      exact ⟨_, rfl, List.mem_of_elem_eq_true rfl⟩
  | ok payload =>
    dsimp only
    cases hs : keySetSelect set (claimsKeyId (payload.objectGet (ascii "meta"))) with
    | ok key => exact ⟨_, rfl, List.mem_of_elem_eq_true rfl⟩
    | error f =>
      dsimp only
      by_cases hf : f.code = .invalidJson
      · rw [if_pos hf]
        exact ⟨_, rfl, List.mem_of_elem_eq_true rfl⟩
      · rw [if_neg hf]
        refine ⟨f, rfl, ?_⟩
        have := keySetSelect_error hs
        simp only [List.mem_cons, List.not_mem_nil, or_false] at this
        rcases this with h | h | h | h
        · rw [h]; decide
        · exact absurd h hf
        · rw [h]; decide
        · rw [h]; decide

end Verify

/-! ## Refused requests -/

section Sound

variable {C : Crypto} {L : Libc} {set : KeySet}

end Sound

end Tamga
