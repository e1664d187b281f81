import Tamga.Checkout.Accept

/-!
# `Checkout.Trust` — a key set decides by the keys it holds

Verification under a key set **refines** verification under one key, for both file formats: when some
held key signed the file, the set behaves as that key; when none did, the file is refused, whatever
its payload says. It follows that the labels in a set play no part in acceptance, and that a set may
grow without changing what it says about a file it already verifies.

`FileKind` is what the two formats have in common; the arguments here are made once for both.
-/

namespace Tamga

open Alloc Base64 Json

variable {C : Crypto} {L : Libc} {pem : Bytes} {cert : Cert} {encrypted : Bool} {signature : Bytes}
  {key : PublicKey} {set set' : KeySet} {licenseKey fingerprint : Option Bytes} {nowUnix : Int64}

/-! ## The two formats -/

inductive FileKind where
  | license
  | machine
  deriving DecidableEq

namespace FileKind

def markers : FileKind → Markers
  | license => licenseMarkers
  | machine => machineMarkers

def texts : FileKind → FileTexts
  | license => licenseTexts
  | machine => machineTexts

/-- The single-key entry point, a machine file under its Ed25519 scheme. -/
def verifyAt (kind : FileKind) (C : Crypto) (L : Libc) (pem : Bytes) (key : PublicKey)
    (licenseKey fingerprint : Option Bytes) (nowUnix : Int64) : Call (Json × FileClaims) :=
  match kind with
  | license => licenseFileVerifyAt C L (some pem) (some key) licenseKey nowUnix
  | machine =>
      machineFileVerifyAt C L (some pem) schemeEd25519Sign (some key.val) licenseKey fingerprint
        nowUnix

/-- The key-set entry point. -/
def verifyAtWithKeySet (kind : FileKind) (C : Crypto) (L : Libc) (pem : Bytes) (set : KeySet)
    (licenseKey fingerprint : Option Bytes) (nowUnix : Int64) : Call (Json × FileClaims) :=
  match kind with
  | license => licenseFileVerifyAtWithKeySet C L (some pem) (some set) licenseKey nowUnix
  | machine =>
      machineFileVerifyAtWithKeySet C L (some pem) schemeEd25519Sign (some set) licenseKey
        fingerprint nowUnix

/-- The way to the payload bytes. -/
def decodePayload (kind : FileKind) (C : Crypto) (cert : Cert) (encrypted : Bool)
    (licenseKey fingerprint : Option Bytes) : Call Bytes :=
  match kind with
  | license => licenseDecodePayload C cert encrypted licenseKey
  | machine => machineDecodePayload C cert encrypted licenseKey fingerprint

/-- The call behind the single-key entry point. -/
def keyCall (kind : FileKind) (key : PublicKey) (licenseKey fingerprint : Option Bytes) : VerifyCall :=
  match kind with
  | license => .license key licenseKey
  | machine => .machine schemeEd25519Sign key.val licenseKey fingerprint

/-- The call behind the key-set entry point. -/
def setCall (kind : FileKind) (set : KeySet) (licenseKey fingerprint : Option Bytes) : VerifyCall :=
  match kind with
  | license => .licenseKeySet set licenseKey
  | machine => .machineKeySet schemeEd25519Sign set licenseKey fingerprint

variable {kind : FileKind}

theorem verifyAt_eq : kind.verifyAt C L pem key licenseKey fingerprint nowUnix =
    (kind.keyCall key licenseKey fingerprint).run C L pem nowUnix := by
  cases kind <;> rfl

theorem verifyAtWithKeySet_eq : kind.verifyAtWithKeySet C L pem set licenseKey fingerprint nowUnix =
    (kind.setCall set licenseKey fingerprint).run C L pem nowUnix := by
  cases kind <;> rfl

theorem admits_keyCall : (kind.keyCall key licenseKey fingerprint).Admits := by
  cases kind with
  | license => trivial
  | machine =>
    have h32 := key.property
    exact ⟨by unfold maxReasonableLen; omega, rfl⟩

theorem admits_setCall : (kind.setCall set licenseKey fingerprint).Admits := by
  cases kind with
  | license => trivial
  | machine => rfl

@[simp] theorem markers_keyCall : (kind.keyCall key licenseKey fingerprint).markers = kind.markers := by
  cases kind <;> rfl

@[simp] theorem markers_setCall : (kind.setCall set licenseKey fingerprint).markers = kind.markers := by
  cases kind <;> rfl

@[simp] theorem texts_keyCall : (kind.keyCall key licenseKey fingerprint).texts = kind.texts := by
  cases kind <;> rfl

@[simp] theorem texts_setCall : (kind.setCall set licenseKey fingerprint).texts = kind.texts := by
  cases kind <;> rfl

@[simp] theorem decodePayload_keyCall :
    (kind.keyCall key licenseKey fingerprint).decodePayload C cert encrypted =
      kind.decodePayload C cert encrypted licenseKey fingerprint := by
  cases kind <;> rfl

@[simp] theorem decodePayload_setCall :
    (kind.setCall set licenseKey fingerprint).decodePayload C cert encrypted =
      kind.decodePayload C cert encrypted licenseKey fingerprint := by
  cases kind <;> rfl

@[simp] theorem verified_setCall :
    (kind.setCall set licenseKey fingerprint).verified C cert.enc signature =
      keySetFindVerifier C set cert.enc signature := by
  cases kind <;> rfl

@[simp] theorem keys_setCall : (kind.setCall set licenseKey fingerprint).keys = some set := by
  cases kind <;> rfl

theorem openFile_setCall : (kind.setCall set licenseKey fingerprint).openFile L pem =
    (kind.keyCall key licenseKey fingerprint).openFile L pem := by
  cases kind <;> rfl

/-! ## Who signed the file -/

/-- `key` verifies the signature of the file over its `enc`. -/
def SignedBy (kind : FileKind) (C : Crypto) (L : Libc) (pem : Bytes) (key : PublicKey) : Prop :=
  ∃ cert, Certificate L kind.markers pem cert ∧ Ed25519Signed C key cert

theorem signed_keyCall (h : Ed25519Signed C key cert) :
    (kind.keyCall key licenseKey fingerprint).Signed C cert := by
  obtain ⟨signature, hspells, h64, hverify⟩ := h
  cases kind with
  | license => exact ⟨signature, hspells, h64, hverify⟩
  | machine => exact ⟨signature, hspells, Or.inl ⟨rfl, key.property, h64, hverify⟩⟩

theorem signed_setCall : (kind.setCall set licenseKey fingerprint).Signed C cert ↔
    ∃ key, set.Holds key ∧ Ed25519Signed C key cert := by
  cases kind <;> exact Iff.rfl

/-! ## Refinement -/

/-- **A held key signed the file.** The set answers as that key does, in full. -/
theorem verifyAtWithKeySet_of_signed (hL : ConsumesNumbers L) (hheld : set.Holds key)
    (hsigned : kind.SignedBy C L pem key) :
    (kind.verifyAtWithKeySet C L pem set licenseKey fingerprint nowUnix).ok =
      (kind.verifyAt C L pem key licenseKey fingerprint nowUnix).ok := by
  rw [verifyAtWithKeySet_eq, verifyAt_eq, VerifyCall.run_eq admits_setCall,
    VerifyCall.run_eq admits_keyCall, @openFile_setCall L pem key]
  cases hopen : ((kind.keyCall key licenseKey fingerprint).openFile L pem).ok with
  | error f => rw [AllocE.ok_bind_of_error hopen, AllocE.ok_bind_of_error hopen]
  | ok opened =>
    obtain ⟨cert, encrypted⟩ := opened
    obtain ⟨hlen, hcert, -⟩ := (VerifyCall.openFile_eq_ok hL).mp hopen
    obtain ⟨cert', hcert', hkey⟩ := hsigned
    rw [markers_keyCall] at hcert
    obtain rfl := hcert.unique hL hlen hcert'
    have hsig := hcert.length_le.2.1
    rw [AllocE.ok_bind_of_ok hopen, AllocE.ok_bind_of_ok hopen,
      VerifyCall.checkOpened_of_signed hsig (signed_setCall.2 ⟨key, hheld, hkey⟩),
      VerifyCall.checkOpened_of_signed hsig (signed_keyCall hkey)]
    simp only [texts_setCall, texts_keyCall, decodePayload_setCall, decodePayload_keyCall]

/-- **No held key signed the file.** It is refused, under a code that says nothing of its payload. -/
theorem verifyAtWithKeySet_of_unsigned (hL : ConsumesNumbers L)
    (hunsigned : ∀ key, set.Holds key → ¬ kind.SignedBy C L pem key) :
    ∃ f, (kind.verifyAtWithKeySet C L pem set licenseKey fingerprint nowUnix).ok = .error f ∧
      f.code ∈ VerifyCall.openCodes ++ .invalidBase64 :: labelCodes := by
  rw [verifyAtWithKeySet_eq, VerifyCall.run_eq admits_setCall]
  cases hopen : ((kind.setCall set licenseKey fingerprint).openFile L pem).ok with
  | error f =>
    exact ⟨f, AllocE.ok_bind_of_error hopen,
      List.mem_append_left _ (VerifyCall.openFile_failsWith.of_ok hopen)⟩
  | ok opened =>
    obtain ⟨cert, encrypted⟩ := opened
    obtain ⟨-, hcert, -⟩ := (VerifyCall.openFile_eq_ok hL).mp hopen
    rw [markers_setCall] at hcert
    obtain ⟨f, hf, hcode⟩ := VerifyCall.checkOpened_of_unsigned hcert.length_le.2.1
      fun h => by
        obtain ⟨key, hheld, hkey⟩ := signed_setCall.1 h
        exact hunsigned key hheld ⟨cert, hcert, hkey⟩
    exact ⟨f, (AllocE.ok_bind_of_ok hopen).trans hf, List.mem_append_right _ hcode⟩

/-- **Verification under a key set refines verification under one key.** If a held key signed the
    file, the outcome is the one under that key; if none did, the file is refused, and never as
    expired. -/
theorem verifyAtWithKeySet_refines (hL : ConsumesNumbers L) (kind : FileKind) (C : Crypto)
    (pem : Bytes) (set : KeySet) (licenseKey fingerprint : Option Bytes) (nowUnix : Int64) :
    (∀ key, set.Holds key → kind.SignedBy C L pem key →
      (kind.verifyAtWithKeySet C L pem set licenseKey fingerprint nowUnix).ok =
        (kind.verifyAt C L pem key licenseKey fingerprint nowUnix).ok) ∧
    ((∀ key, set.Holds key → ¬ kind.SignedBy C L pem key) →
      ∃ f, (kind.verifyAtWithKeySet C L pem set licenseKey fingerprint nowUnix).ok = .error f ∧
        f.code ≠ .expired) := by
  refine ⟨fun key hheld hsigned => verifyAtWithKeySet_of_signed hL hheld hsigned, fun h => ?_⟩
  obtain ⟨f, hf, hcode⟩ := verifyAtWithKeySet_of_unsigned hL h
  refine ⟨f, hf, fun hexpired => ?_⟩
  rw [hexpired] at hcode
  exact absurd hcode (by decide)

/-- A set that holds the sample key, under a label that is not its id. -/
def sampleSet : KeySet := ⟨[⟨ascii "k", sampleKey⟩], 4⟩

theorem licenseSample_signedBy : license.SignedBy sampleCrypto halfLibc licenseSample sampleKey := by
  obtain ⟨-, cert, encrypted, plaintext, payload, hcert, -, hsigned, -⟩ :=
    (licenseFileVerifyAt_eq_ok (fun _ _ => rfl) (by decide) sampleResource).mp ⟨_, licenseSample_ok⟩
  exact ⟨cert, hcert, hsigned⟩

/-- The sample under the set that holds its key, and under the empty set. -/
theorem verifyAtWithKeySet_refines_sample :
    (license.verifyAtWithKeySet sampleCrypto halfLibc licenseSample sampleSet none none 160).ok =
        .ok (sampleResource, ⟨0, some 100⟩) ∧
      ∃ f, (license.verifyAtWithKeySet sampleCrypto halfLibc licenseSample KeySet.empty none none
        160).ok = .error f ∧ f.code ≠ .expired := by
  have hrefines := fun set => verifyAtWithKeySet_refines (L := halfLibc) (fun _ _ => rfl) license
    sampleCrypto licenseSample set none none 160
  refine ⟨?_, (hrefines KeySet.empty).2 ?_⟩
  · have := (hrefines sampleSet).1 sampleKey ⟨_, List.mem_singleton_self _, rfl⟩
      licenseSample_signedBy
    exact this.trans licenseSample_ok
  · rintro key ⟨entry, hmem, -⟩
    cases hmem

/-! ## Labels and growth -/

/-- Two sets that hold the same keys accept the same files, with the same results. -/
theorem verifyAtWithKeySet_congr (hL : ConsumesNumbers L)
    (hsame : ∀ key, set.Holds key ↔ set'.Holds key) {result : Json × FileClaims}
    (h : (kind.verifyAtWithKeySet C L pem set licenseKey fingerprint nowUnix).ok = .ok result) :
    (kind.verifyAtWithKeySet C L pem set' licenseKey fingerprint nowUnix).ok = .ok result := by
  by_cases hsigned : ∃ key, set.Holds key ∧ kind.SignedBy C L pem key
  · obtain ⟨key, hheld, hsigned⟩ := hsigned
    rw [verifyAtWithKeySet_of_signed hL hheld hsigned] at h
    rw [verifyAtWithKeySet_of_signed hL ((hsame key).mp hheld) hsigned, h]
  · obtain ⟨f, hf, -⟩ := @verifyAtWithKeySet_of_unsigned C L pem set licenseKey fingerprint nowUnix
      kind hL fun key hheld hkey => hsigned ⟨key, hheld, hkey⟩
    rw [hf] at h
    cases h

/-- A set that holds more keys says the same about a file it already verifies. -/
theorem verifyAtWithKeySet_mono (hL : ConsumesNumbers L)
    (hmore : ∀ key, set.Holds key → set'.Holds key)
    (hsigned : ∃ key, set.Holds key ∧ kind.SignedBy C L pem key) :
    (kind.verifyAtWithKeySet C L pem set' licenseKey fingerprint nowUnix).ok =
      (kind.verifyAtWithKeySet C L pem set licenseKey fingerprint nowUnix).ok := by
  obtain ⟨key, hheld, hsigned⟩ := hsigned
  rw [verifyAtWithKeySet_of_signed hL hheld hsigned,
    verifyAtWithKeySet_of_signed hL (hmore key hheld) hsigned]

end FileKind

/-- What any number of additions can make of a set; a call that fails may have grown its capacity. -/
inductive KeySet.Grows (C : Crypto) (L : Libc) (set : KeySet) : KeySet → Prop where
  | refl : Grows C L set set
  | addPublicKey {mid : KeySet} {publicKey : Option Bytes} {r : KeySet × Except Failure Unit}
      (h : Grows C L set mid) (hadd : (keySetAddPublicKey C mid publicKey).Can True r) :
      Grows C L set r.1
  | addJson {mid grown : KeySet} {json : Option Bytes} {counts : AddedCounts}
      (h : Grows C L set mid) (hadd : (keySetAddJson C L mid json).Can True (.ok (grown, counts))) :
      Grows C L set grown

/-- Entries are only ever appended. -/
theorem KeySet.Grows.prefix_entries (h : KeySet.Grows C L set set') : set.entries <+: set'.entries := by
  induction h with
  | refl => exact List.prefix_refl _
  | addPublicKey _ hadd ih => exact ih.trans (keySetAddPublicKey_entries hadd)
  | addJson _ hadd ih => exact ih.trans (keySetAddJson_entries hadd)

theorem KeySet.Grows.holds (h : KeySet.Grows C L set set') (hheld : set.Holds key) :
    set'.Holds key := by
  obtain ⟨entry, hmem, hkey⟩ := hheld
  exact ⟨entry, h.prefix_entries.subset hmem, hkey⟩

/-- **Acceptance depends on the keys held and on nothing else of a set**: not on their order, number
    or labels. And a set that grows says the same about every file it already verifies. -/
theorem keySet_acceptance (hL : ConsumesNumbers L) (kind : FileKind) (C : Crypto) (pem : Bytes)
    (licenseKey fingerprint : Option Bytes) (nowUnix : Int64) :
    (∀ set set' : KeySet, (∀ key, set.Holds key ↔ set'.Holds key) → ∀ result,
      (kind.verifyAtWithKeySet C L pem set licenseKey fingerprint nowUnix).ok = .ok result ↔
        (kind.verifyAtWithKeySet C L pem set' licenseKey fingerprint nowUnix).ok = .ok result) ∧
    (∀ set set' : KeySet, KeySet.Grows C L set set' →
      (∃ key, set.Holds key ∧ kind.SignedBy C L pem key) →
      (kind.verifyAtWithKeySet C L pem set' licenseKey fingerprint nowUnix).ok =
        (kind.verifyAtWithKeySet C L pem set licenseKey fingerprint nowUnix).ok) :=
  ⟨fun _ _ hsame _ => ⟨FileKind.verifyAtWithKeySet_congr hL hsame,
      FileKind.verifyAtWithKeySet_congr hL fun key => (hsame key).symm⟩,
    fun _ _ hgrows => FileKind.verifyAtWithKeySet_mono hL fun _ => hgrows.holds⟩

/-- The sample set with its key twice under other labels, and with another key added. -/
theorem keySet_acceptance_sample :
    (FileKind.license.verifyAtWithKeySet sampleCrypto halfLibc licenseSample
        ⟨[⟨[], sampleKey⟩, ⟨ascii "x", sampleKey⟩], 2⟩ none none 160).ok =
        .ok (sampleResource, ⟨0, some 100⟩) ∧
      ∀ publicKey, (FileKind.license.verifyAtWithKeySet sampleCrypto halfLibc licenseSample
        (keySetAddPublicKey sampleCrypto FileKind.sampleSet (some publicKey)).ok.1 none none 160).ok =
        .ok (sampleResource, ⟨0, some 100⟩) := by
  have hheld : FileKind.sampleSet.Holds sampleKey := ⟨_, List.mem_singleton_self _, rfl⟩
  have hok : (FileKind.license.verifyAtWithKeySet sampleCrypto halfLibc licenseSample
      FileKind.sampleSet none none 160).ok = .ok (sampleResource, ⟨0, some 100⟩) :=
    (FileKind.verifyAtWithKeySet_of_signed (fun _ _ => rfl) hheld
      FileKind.licenseSample_signedBy).trans licenseSample_ok
  obtain ⟨hsame, hgrows⟩ := keySet_acceptance (L := halfLibc) (fun _ _ => rfl) .license sampleCrypto
    licenseSample none none 160
  refine ⟨(hsame FileKind.sampleSet _ (fun key => ?_) _).mp hok, fun publicKey => ?_⟩
  · simp [KeySet.Holds, FileKind.sampleSet]
  · exact (hgrows _ _ (.addPublicKey .refl (Alloc.can_ok _))
      ⟨sampleKey, hheld, FileKind.licenseSample_signedBy⟩).trans hok

end Tamga
