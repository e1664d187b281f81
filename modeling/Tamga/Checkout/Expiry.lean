import Tamga.Checkout.Accept

/-!
# `Checkout.Expiry` — the threshold of the expiry check

A file whose signature verifies and whose payload can be read is decided by its payload and the
clock. `VerifyCall.Carries` says that the file verifies under the call and carries a payload. What is
left is the comparison of `exp` with the clock, over the whole range of `int64_t` (`expiry_exact`):
below second
60 the code answers "not expired" without comparing.
-/

namespace Tamga

open Alloc Base64 Json

variable {C : Crypto} {L : Libc} {pem : Bytes} {payload claims : Json} {nowUnix : Int64}

/-! ## What decides a verified file -/

namespace VerifyCall

/-- The file verifies under the call, and `payload` is the document it carries. -/
def Carries (C : Crypto) (L : Libc) (pem : Bytes) (call : VerifyCall) (payload : Json) : Prop :=
  pem.length ≤ maxReasonableLen ∧ ∃ cert plaintext, Certificate L call.markers pem cert ∧
    call.Signed C cert ∧ call.Plaintext C cert plaintext ∧ Reads L plaintext payload

variable {call : VerifyCall}

/-- **A verified file is decided by its payload and the clock.** -/
theorem run_of_carries (hL : ConsumesNumbers L) (h : call.Carries C L pem payload) :
    (call.run C L pem nowUnix).ok = (finish call.texts (some payload) nowUnix).ok := by
  obtain ⟨hlen, cert, plaintext, hcert, hsigned, hplain, hreads⟩ := h
  obtain ⟨hadmits, encrypted, halg, hdecode⟩ := (plaintext_iff hcert.length_le.1).mp hplain
  have hread : (readPayload L call.texts (call.decodePayload C cert encrypted)).ok = .ok payload := by
    unfold readPayload
    rw [AllocE.ok_bind_of_ok hdecode]
    exact (parseDocument_eq_ok hL).mpr hreads
  rw [run_eq hadmits, AllocE.ok_bind_of_ok ((openFile_eq_ok hL).mpr ⟨hlen, hcert, halg⟩),
    checkOpened_of_signed hcert.length_le.2.1 hsigned, hread]

end VerifyCall

/-! ## The comparison -/

/-- `tamga_claims_are_expired` over the whole range: below the tolerance nothing is expired. -/
theorem claimsAreExpired_iff {issuedAt expiry : Int64} :
    claimsAreExpired ⟨issuedAt, some expiry⟩ nowUnix = true ↔
      60 ≤ nowUnix.toInt ∧ expiry.toInt < nowUnix.toInt - 60 := by
  by_cases hnow : 60 ≤ nowUnix.toInt
  · rw [← Bool.not_eq_false, claimsAreExpired_eq_false hnow]
    constructor
    · intro h
      refine ⟨hnow, ?_⟩
      by_contra hle
      exact h fun n hn => by injection hn with hn; rw [← hn]; omega
    · rintro ⟨-, hlt⟩ h
      have := h expiry rfl
      omega
  · have hlow : nowUnix < clockSkewToleranceSeconds := by
      rw [Int64.lt_iff_toInt_lt]
      show nowUnix.toInt < 60
      omega
    unfold claimsAreExpired
    dsimp only
    rw [if_pos hlow]
    exact ⟨nofun, fun h => absurd h.1 hnow⟩

theorem finish_expired_iff {texts : FileTexts} {exp : Json} {expiry : Int64}
    (hstored : payload.Every Storable) (hclaims : ClaimsOf payload claims)
    (hexp : claims.objectGet (ascii "exp") = some exp) (hint : exp.asInt = some expiry) :
    Call.status (finish texts (some payload) nowUnix).ok = some .expired ↔
      60 ≤ nowUnix.toInt ∧ expiry.toInt < nowUnix.toInt - 60 := by
  have hread : claimsRead (payload.objectGet (ascii "meta")) =
      .ok ⟨((claims.objectGet (ascii "iat")).bind asInt).getD 0, some expiry⟩ :=
    claimsRead_eq_ok.2 ⟨claims, hclaims,
      claimsExpiry_eq_ok.2 (Or.inr ⟨exp, expiry, hexp, hint, rfl⟩), rfl⟩
  rw [← claimsAreExpired_iff]
  unfold finish
  rw [Option.bind_some, Option.bind_some, hread]
  dsimp only
  cases hexpired : claimsAreExpired ⟨_, some expiry⟩ nowUnix with
  | true => exact ⟨fun _ => rfl, fun _ => rfl⟩
  | false =>
    refine ⟨fun h => absurd h ?_, fun h => absurd h Bool.false_ne_true⟩
    rw [if_neg (by decide)]
    cases hdata : payload.objectGet (ascii "data") with
    | none =>
      intro h
      cases h
    | some data =>
      cases data with
      | obj members =>
        have hclone := clone_ok (hstored.objectGet hdata)
        simp only [AllocE.ok_bind, Call.orFail, AllocE.ok_lift, hclone, AllocE.ok_pure]
        intro h
        cases h
      | null | bool | int | double | str | arr =>
        intro h
        cases h

/-- **Expiry.** A verified file with an integer `exp` is reported as expired iff `exp < now - 60`, in
    unbounded arithmetic, exactly when the clock is at second 60 or later or that inequality does not
    hold; the threshold is one for both formats, one key or a key set. Once a file has expired it stays
    so. -/
theorem expiry_exact (hL : ConsumesNumbers L) {call : VerifyCall} {exp : Json} {expiry : Int64}
    (hcarries : call.Carries C L pem payload) (hclaims : ClaimsOf payload claims)
    (hexp : claims.objectGet (ascii "exp") = some exp) (hint : exp.asInt = some expiry) :
    (∀ nowUnix : Int64,
      (Call.status (call.run C L pem nowUnix).ok = some .expired ↔
          expiry.toInt < nowUnix.toInt - 60) ↔
        60 ≤ nowUnix.toInt ∨ nowUnix.toInt - 60 ≤ expiry.toInt) ∧
    ∀ nowUnix later : Int64, nowUnix ≤ later →
      Call.status (call.run C L pem nowUnix).ok = some .expired →
        Call.status (call.run C L pem later).ok = some .expired := by
  have hstored : payload.Every Storable := by
    obtain ⟨-, _, _, -, -, -, hreads⟩ := hcarries
    exact hreads.storable
  have hstatus : ∀ nowUnix : Int64,
      Call.status (call.run C L pem nowUnix).ok = some .expired ↔
        60 ≤ nowUnix.toInt ∧ expiry.toInt < nowUnix.toInt - 60 := by
    intro nowUnix
    rw [VerifyCall.run_of_carries hL hcarries]
    exact finish_expired_iff hstored hclaims hexp hint
  constructor
  · intro nowUnix
    rw [hstatus]
    omega
  · intro nowUnix later hle h
    rw [Int64.le_iff_toInt_le] at hle
    rw [hstatus] at h ⊢
    omega

/-! ### A file that expired before 1970 -/

/-- The base64 text of `{"meta":{"exp":-100},"data":{"id":"l"}}`, with its signature under
    `sampleKey`. -/
def pastEnc : Bytes := ascii "eyJtZXRhIjp7ImV4cCI6LTEwMH0sImRhdGEiOnsiaWQiOiJsIn19"

def pastSignature : Bytes :=
  [97, 215, 205, 178, 122, 144, 166, 211, 87, 70, 170, 253, 226, 149, 72, 180, 21, 57, 250, 229, 81,
    137, 93, 179, 86, 255, 101, 249, 183, 243, 75, 96, 184, 246, 122, 93, 188, 90, 80, 93, 85, 36, 151,
    39, 142, 253, 52, 215, 142, 225, 148, 237, 94, 156, 140, 213, 30, 58, 33, 244, 102, 14, 21, 9]

/-- Ed25519 on the one triple it is asked about. -/
def pastCrypto : Crypto :=
  { sampleCrypto with
    ed25519Verify := fun key message signature =>
      key = sampleKey.val && message = pastEnc && signature = pastSignature }

def pastFile : Bytes :=
  textLines ["-----BEGIN LICENSE FILE-----", "eyJlbmMiOiJleUp0WlhSaElqcDdJbVY0Y0NJNkxU",
    "RXdNSDBzSW1SaGRHRWlPbnNpYVdRaU9pSnNJbjE5", "Iiwic2lnIjoiWWRmTnNucVFwdE5YUnFyOTRwVkl0",
    "QlU1K3VWUmlWMnpWdjlsK2JmelMyQzQ5bnBkdkZw", "UVhWVWtseWVPL1RUWGp1R1U3VjZjak5VZU9pSDBa",
    "ZzRWQ1E9PSIsImFsZyI6ImJhc2U2NCtlZDI1NTE5", "K3YyIn0=", "-----END LICENSE FILE-----"]

def pastClaims : Json := .obj [(ascii "exp", .int (-100))]

def pastPayload : Json := .obj [(ascii "meta", pastClaims), (ascii "data", sampleResource)]

def pastCall : VerifyCall := .license sampleKey none

/-- The file verifies, and carries `pastPayload`. -/
theorem pastFile_carries : pastCall.Carries pastCrypto halfLibc pastFile pastPayload := by
  have hlen : pastFile.length ≤ maxReasonableLen := by decide +kernel
  have hopen : (licenseOpen halfLibc pastFile).ok =
      .ok (⟨pastEnc, base64Encode pastSignature, licenseAlgPlain⟩, false) := by decide +kernel
  have hread : (parse halfLibc (some (ascii
      "\x7b\x22meta\x22:\x7b\x22exp\x22:-100\x7d,\x22data\x22:\x7b\x22id\x22:\x22l\x22\x7d\x7d"))).ok =
        .ok pastPayload := by decide +kernel
  obtain ⟨-, hcert, halg⟩ := (licenseOpen_eq_ok fun _ _ => rfl).mp hopen
  refine ⟨hlen, _, _, hcert, ⟨pastSignature, ?_, rfl, by decide +kernel⟩, ⟨false, halg, _, ?_, rfl⟩,
    (parse_eq_ok fun _ _ => rfl).mp hread⟩
  · rw [base64Encode_eq]
    exact Or.inr rfl
  · refine base64Decode_eq_some.1 ?_
    decide +kernel

/-- At second 100 the comparison is made. -/
theorem expiry_exact_past :
    (Call.status (pastCall.run pastCrypto halfLibc pastFile 100).ok = some .expired ↔
      (-100 : Int) < 100 - 60) :=
  ((expiry_exact (fun _ _ => rfl) pastFile_carries ⟨rfl, rfl⟩ rfl
    (show Json.asInt _ = some (-100) from rfl)).1 100).mpr
    (Or.inl (by decide))

/-- At second 0 the file expired 100 seconds ago, 40 more than is tolerated, and is accepted. -/
theorem expiry_exact_early :
    pastCall.Carries pastCrypto halfLibc pastFile pastPayload ∧
      ClaimsOf pastPayload pastClaims ∧ pastClaims.objectGet (ascii "exp") = some (.int (-100)) ∧
      (-100 : Int) < 0 - 60 ∧
      (pastCall.run pastCrypto halfLibc pastFile 0).ok = .ok (sampleResource, ⟨0, some (-100)⟩) :=
  ⟨pastFile_carries, ⟨rfl, rfl⟩, rfl, by decide, by decide +kernel⟩

end Tamga
