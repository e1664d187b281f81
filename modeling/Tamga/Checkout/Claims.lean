import Tamga.Checkout.Decode

/-!
# `Checkout.Claims` — the signed claims, the expiry check and the resource (`checkout/claims.c`)

Everything after a signature has verified: `claimsRead`, the expiry check with its tolerance, and
the copy of the `data` object. The two file formats share it and differ in their texts only, so
`finish` takes those as a parameter.
-/

namespace Tamga

open Alloc Json

/-- `TamgaFileClaims`; `expiry` is `none` when `has_expiry` is false. -/
structure FileClaims where
  issuedAt : Int64
  expiry : Option Int64
  deriving DecidableEq

/-- `TAMGA_CLOCK_SKEW_TOLERANCE_SECONDS`. -/
def clockSkewToleranceSeconds : Int64 := 60

/-- The `exp` claim: absent and null mean that the file does not expire. -/
def claimsExpiry (claims : Json) : Except Failure (Option Int64) :=
  match claims.objectGet (ascii "exp") with
  | none | some .null => .ok none
  | some exp =>
      match exp.asInt with
      | some value => .ok (some value)
      | none => .error (errorSet .invalidJson (ascii "the signed exp claim is not an integer"))

/-- `tamga_claims_read`. -/
def claimsRead : Option Json → Except Failure FileClaims
  | some (.obj members) =>
      match claimsExpiry (.obj members) with
      | .error f => .error f
      | .ok expiry =>
          .ok ⟨(((Json.obj members).objectGet (ascii "iat")).bind asInt).getD 0, expiry⟩
  | _ => .error (errorSet .invalidJson (ascii "the signed payload has no claims object"))

/-- `tamga_claims_are_expired`. -/
def claimsAreExpired (claims : FileClaims) (nowUnix : Int64) : Bool :=
  match claims.expiry with
  | none => false
  | some expiry =>
      -- below the tolerance the subtraction could overflow, and nothing can have expired
      if nowUnix < clockSkewToleranceSeconds then false
      else decide (nowUnix - clockSkewToleranceSeconds > expiry)

/-- The texts in which the two file formats differ. -/
structure FileTexts where
  signatureInvalid : String
  parseNoMemory : String
  malformed : String
  expired : String
  noData : String
  copyNoMemory : String

/-- `tamga_license_finish`, `tamga_machine_finish`; `none` is a NULL payload. -/
def finish (texts : FileTexts) (payload : Option Json) (nowUnix : Int64) :
    Call (Json × FileClaims) :=
  match claimsRead (payload.bind fun p => p.objectGet (ascii "meta")) with
  | .error f => throwThe Failure f
  | .ok claims =>
      if claimsAreExpired claims nowUnix then Call.fail .expired texts.expired
      else
        match payload.bind fun p => p.objectGet (ascii "data") with
        | some (.obj members) => do
            let resource ← Call.orFail .outOfMemory texts.copyNoMemory (clone (.obj members))
            return (resource, claims)
        | _ => Call.fail .invalidJson texts.noData

/-! ## What the checks say -/

/-- The claims object of a payload. -/
def ClaimsOf (payload claims : Json) : Prop :=
  payload.objectGet (ascii "meta") = some claims ∧ claims.isObject = true

/-- `exp` is absent, null, or an integer not before `limit`. -/
def ExpiresNotBefore (claims : Json) (limit : Int) : Prop :=
  claims.objectGet (ascii "exp") = none ∨ claims.objectGet (ascii "exp") = some .null ∨
    ∃ exp n, claims.objectGet (ascii "exp") = some exp ∧ exp.asInt = some n ∧ limit ≤ n.toInt

/-- The payload's `data`, when it is an object. -/
def ResourceOf (payload resource : Json) : Prop :=
  payload.objectGet (ascii "data") = some resource ∧ resource.isObject = true

variable {payload claims resource : Json} {nowUnix : Int64}

theorem claimsExpiry_eq_ok {expiry : Option Int64} :
    claimsExpiry claims = .ok expiry ↔
      ((claims.objectGet (ascii "exp") = none ∨ claims.objectGet (ascii "exp") = some .null) ∧
          expiry = none) ∨
        ∃ exp n, claims.objectGet (ascii "exp") = some exp ∧ exp.asInt = some n ∧ expiry = some n := by
  unfold claimsExpiry
  cases hget : claims.objectGet (ascii "exp") with
  | none => simp [eq_comm]
  | some exp =>
    cases exp with
    | null => simp [asInt, eq_comm]
    | int n => simp [asInt, eq_comm]
    | double d => cases hd : d.toInt?.map Int64.ofInt <;> simp [asInt, hd, eq_comm]
    | bool | str | arr | obj => simp [asInt]

theorem claimsRead_eq_ok {fileClaims : FileClaims} :
    claimsRead (payload.objectGet (ascii "meta")) = .ok fileClaims ↔
      ∃ claims, ClaimsOf payload claims ∧ claimsExpiry claims = .ok fileClaims.expiry ∧
        fileClaims.issuedAt = ((claims.objectGet (ascii "iat")).bind asInt).getD 0 := by
  unfold ClaimsOf
  cases payload.objectGet (ascii "meta") with
  | none => simp [claimsRead]
  | some claims =>
    cases claims with
    | obj members =>
      obtain ⟨issuedAt, expiry⟩ := fileClaims
      unfold claimsRead
      dsimp only
      constructor
      · intro h
        cases he : claimsExpiry (.obj members) with
        | error f => rw [he] at h; cases h
        | ok e =>
          rw [he] at h
          injection h with h
          injection h with hissued hexpiry
          exact ⟨_, ⟨rfl, rfl⟩, he.trans (congrArg _ hexpiry), hissued.symm⟩
      · rintro ⟨_, ⟨⟨⟩, -⟩, hexpiry, rfl⟩
        rw [hexpiry]
    | null | bool | int | double | str | arr => simp [claimsRead, isObject]

/-- From the tolerance on, `now - skew` does not overflow. -/
theorem claimsAreExpired_eq_false (hnow : 60 ≤ nowUnix.toInt) {issuedAt : Int64}
    {expiry : Option Int64} :
    claimsAreExpired ⟨issuedAt, expiry⟩ nowUnix = false ↔
      ∀ n, expiry = some n → nowUnix.toInt - 60 ≤ n.toInt := by
  cases expiry with
  | none => simp [claimsAreExpired]
  | some n =>
    have hlt : ¬ nowUnix < clockSkewToleranceSeconds := by
      rw [Int64.lt_iff_toInt_lt]
      show ¬ nowUnix.toInt < 60
      omega
    have hsub : (nowUnix - clockSkewToleranceSeconds).toInt = nowUnix.toInt - 60 := by
      have := nowUnix.toInt_lt
      rw [Int64.toInt_sub]
      show (nowUnix.toInt - 60).bmod (2 ^ 64) = _
      exact Int.bmod_eq_of_le (by omega) (by omega)
    unfold claimsAreExpired
    dsimp only
    rw [if_neg hlt, decide_eq_false_iff_not, gt_iff_lt, Int64.lt_iff_toInt_lt, hsub, not_lt]
    constructor
    · rintro h _ ⟨⟩; exact h
    · intro h; exact h n rfl

/-- The claims are there, and do not say that the file has expired. -/
theorem current_iff (hnow : 60 ≤ nowUnix.toInt) :
    (∃ fileClaims, claimsRead (payload.objectGet (ascii "meta")) = .ok fileClaims ∧
      claimsAreExpired fileClaims nowUnix = false) ↔
      ∃ claims, ClaimsOf payload claims ∧ ExpiresNotBefore claims (nowUnix.toInt - 60) := by
  constructor
  · rintro ⟨⟨issuedAt, expiry⟩, hread, hexp⟩
    obtain ⟨claims, hclaims, hexpiry, -⟩ := claimsRead_eq_ok.1 hread
    refine ⟨claims, hclaims, ?_⟩
    rw [claimsAreExpired_eq_false hnow] at hexp
    rcases claimsExpiry_eq_ok.1 hexpiry with ⟨hnone | hnull, -⟩ | ⟨exp, n, hget, hint, hsome⟩
    · exact Or.inl hnone
    · exact Or.inr (Or.inl hnull)
    · exact Or.inr (Or.inr ⟨exp, n, hget, hint, hexp n hsome⟩)
  · rintro ⟨claims, hclaims, hexp⟩
    have hread : ∀ expiry, claimsExpiry claims = .ok expiry →
        (∀ n, expiry = some n → nowUnix.toInt - 60 ≤ n.toInt) →
        ∃ fileClaims, claimsRead (payload.objectGet (ascii "meta")) = .ok fileClaims ∧
          claimsAreExpired fileClaims nowUnix = false := by
      intro expiry hexpiry hle
      exact ⟨⟨_, expiry⟩, claimsRead_eq_ok.2 ⟨claims, hclaims, hexpiry, rfl⟩,
        (claimsAreExpired_eq_false hnow).mpr hle⟩
    rcases hexp with hnone | hnull | ⟨exp, n, hget, hint, hle⟩
    · exact hread none (claimsExpiry_eq_ok.2 (Or.inl ⟨Or.inl hnone, rfl⟩)) nofun
    · exact hread none (claimsExpiry_eq_ok.2 (Or.inl ⟨Or.inr hnull, rfl⟩)) nofun
    · exact hread (some n) (claimsExpiry_eq_ok.2 (Or.inr ⟨exp, n, hget, hint, rfl⟩))
        (by rintro _ ⟨⟩; exact hle)

/-! ## The last step -/

section Finish

variable {texts : FileTexts} {fileClaims : FileClaims}

theorem clone_ok (h : resource.Every Storable) : (clone resource).ok = some resource := by
  rcases clone_can (F := False) h _ (clone resource).can_ok with h | ⟨h, -⟩
  · exact h
  · exact h.elim

theorem finish_eq_ok (hpayload : payload.Every Storable) :
    (finish texts (some payload) nowUnix).ok = .ok (resource, fileClaims) ↔
      claimsRead (payload.objectGet (ascii "meta")) = .ok fileClaims ∧
        claimsAreExpired fileClaims nowUnix = false ∧ ResourceOf payload resource := by
  unfold finish ResourceOf
  rw [Option.bind_some, Option.bind_some]
  cases hread : claimsRead (payload.objectGet (ascii "meta")) with
  | error f => exact ⟨nofun, nofun⟩
  | ok claims =>
    dsimp only
    cases hexp : claimsAreExpired claims nowUnix with
    | true =>
      rw [if_pos rfl]
      constructor
      · nofun
      · rintro ⟨h, hexp', -⟩
        injection h with h
        rw [h, hexp'] at hexp
        cases hexp
    | false =>
      rw [if_neg (by decide)]
      cases hdata : payload.objectGet (ascii "data") with
      | none => exact ⟨nofun, nofun⟩
      | some data =>
        cases data with
        | obj members =>
          have hclone := clone_ok (hpayload.objectGet hdata)
          simp only [AllocE.ok_bind, Call.orFail, AllocE.ok_lift, hclone, AllocE.ok_pure]
          constructor
          · intro h
            injection h with h
            injection h with hr hc
            subst hr hc
            exact ⟨rfl, hexp, rfl, rfl⟩
          · rintro ⟨⟨⟩, -, ⟨⟩, -⟩
            rfl
        | null | bool | int | double | str | arr =>
          refine ⟨nofun, ?_⟩
          rintro ⟨-, -, ⟨⟩, h⟩
          cases h

end Finish

end Tamga
