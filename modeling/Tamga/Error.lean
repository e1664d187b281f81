import Tamga.Mem

/-!
# `Tamga.Error` — error codes, messages and the shape of a fallible call (`tamga_error.c`)

A function of the source returns a `TamgaErrorCode` and leaves a text in the thread's error slot.
Both together are a `Failure`; a function that may fail **and** may ask for memory is a `Call`.
`TAMGA_OK` is not a code here: it is the `ok` of a call, which carries the out-parameters, so that a
call cannot report success without its result nor failure with one.
-/

namespace Tamga

open Alloc

/-- `TamgaErrorCode` without `TAMGA_OK`, in the header's order. -/
inductive ErrorCode : Type where
  | invalidPem
  | invalidBase64
  | invalidJson
  | signatureInvalid
  | decryptionFailed
  | unsupportedScheme
  | nullArgument
  | panic
  | unknown
  | lengthInvalid
  | expired
  | outOfMemory
  | transport
  | noTransport
  | api
  | rateLimited
  | unauthorized
  | forbidden
  | notFound
  | server
  | checkInNotRequired
  | licenseNotEncrypted
  | licenseKeyMissing
  | ttlInvalid
  | schemeNotSupported
  | fingerprintTaken
  | datasetInvalid
  | pidTaken
  | machineLimitExceeded
  | coreLimitExceeded
  | memoryLimitExceeded
  | diskLimitExceeded
  | tooManyProcesses
  | licenseSuspended
  | licenseExpired
  | licenseNotAllowed
  | unknownSigningKey
  | signingKeyNotPublished
  | keyIdNotApplicable
  | invalidFingerprintComponent
  | signingKeyMissing
  | secretKeyMissing
  | meterLimitExceeded
  deriving DecidableEq, Repr

/-- `tamga_error_name`. -/
def errorName : ErrorCode → String
  | .invalidPem => "TAMGA_ERR_INVALID_PEM"
  | .invalidBase64 => "TAMGA_ERR_INVALID_BASE64"
  | .invalidJson => "TAMGA_ERR_INVALID_JSON"
  | .signatureInvalid => "TAMGA_ERR_SIGNATURE_INVALID"
  | .decryptionFailed => "TAMGA_ERR_DECRYPTION_FAILED"
  | .unsupportedScheme => "TAMGA_ERR_UNSUPPORTED_SCHEME"
  | .nullArgument => "TAMGA_ERR_NULL_ARGUMENT"
  | .panic => "TAMGA_ERR_PANIC"
  | .unknown => "TAMGA_ERR_UNKNOWN"
  | .lengthInvalid => "TAMGA_ERR_LENGTH_INVALID"
  | .expired => "TAMGA_ERR_EXPIRED"
  | .outOfMemory => "TAMGA_ERR_OUT_OF_MEMORY"
  | .transport => "TAMGA_ERR_TRANSPORT"
  | .noTransport => "TAMGA_ERR_NO_TRANSPORT"
  | .api => "TAMGA_ERR_API"
  | .rateLimited => "TAMGA_ERR_RATE_LIMITED"
  | .unauthorized => "TAMGA_ERR_UNAUTHORIZED"
  | .forbidden => "TAMGA_ERR_FORBIDDEN"
  | .notFound => "TAMGA_ERR_NOT_FOUND"
  | .server => "TAMGA_ERR_SERVER"
  | .checkInNotRequired => "TAMGA_ERR_CHECK_IN_NOT_REQUIRED"
  | .licenseNotEncrypted => "TAMGA_ERR_LICENSE_NOT_ENCRYPTED"
  | .licenseKeyMissing => "TAMGA_ERR_LICENSE_KEY_MISSING"
  | .ttlInvalid => "TAMGA_ERR_TTL_INVALID"
  | .schemeNotSupported => "TAMGA_ERR_SCHEME_NOT_SUPPORTED"
  | .fingerprintTaken => "TAMGA_ERR_FINGERPRINT_TAKEN"
  | .datasetInvalid => "TAMGA_ERR_DATASET_INVALID"
  | .pidTaken => "TAMGA_ERR_PID_TAKEN"
  | .machineLimitExceeded => "TAMGA_ERR_MACHINE_LIMIT_EXCEEDED"
  | .coreLimitExceeded => "TAMGA_ERR_CORE_LIMIT_EXCEEDED"
  | .memoryLimitExceeded => "TAMGA_ERR_MEMORY_LIMIT_EXCEEDED"
  | .diskLimitExceeded => "TAMGA_ERR_DISK_LIMIT_EXCEEDED"
  | .tooManyProcesses => "TAMGA_ERR_TOO_MANY_PROCESSES"
  | .licenseSuspended => "TAMGA_ERR_LICENSE_SUSPENDED"
  | .licenseExpired => "TAMGA_ERR_LICENSE_EXPIRED"
  | .licenseNotAllowed => "TAMGA_ERR_LICENSE_NOT_ALLOWED"
  | .unknownSigningKey => "TAMGA_ERR_UNKNOWN_SIGNING_KEY"
  | .signingKeyNotPublished => "TAMGA_ERR_SIGNING_KEY_NOT_PUBLISHED"
  | .keyIdNotApplicable => "TAMGA_ERR_KEY_ID_NOT_APPLICABLE"
  | .invalidFingerprintComponent => "TAMGA_ERR_INVALID_FINGERPRINT_COMPONENT"
  | .signingKeyMissing => "TAMGA_ERR_SIGNING_KEY_MISSING"
  | .secretKeyMissing => "TAMGA_ERR_SECRET_KEY_MISSING"
  | .meterLimitExceeded => "TAMGA_ERR_METER_LIMIT_EXCEEDED"

/-- `TAMGA_ERROR_MESSAGE_CAP`. -/
def errorMessageCap : Nat := 512

/-- What the slot holds after `vsnprintf`: a text that does not fit ends in an ellipsis. -/
def slotText (message : Bytes) : Bytes :=
  if message.length < errorMessageCap then message
  else message.take (errorMessageCap - 4) ++ ascii "..."

/-- A code other than `TAMGA_OK`, with the text in the error slot. -/
structure Failure where
  code : ErrorCode
  message : Bytes
  deriving DecidableEq, Repr

/-- `tamga_error_set`. -/
def errorSet (code : ErrorCode) (message : Bytes) : Failure := ⟨code, slotText message⟩

@[simp] theorem errorSet_code (code : ErrorCode) (message : Bytes) :
    (errorSet code message).code = code := rfl

def Failure.IsOutOfMemory (f : Failure) : Prop := f.code = .outOfMemory

instance (f : Failure) : Decidable f.IsOutOfMemory := inferInstanceAs (Decidable (_ = _))

/-- A call that may ask for memory, fail with a code and a text, or return its out-parameters. -/
abbrev Call (α : Type) : Type := AllocE Failure α

namespace Call

variable {α β : Type} {F : Prop}

/-- `return tamga_error_set(code, "...")`. -/
def fail (code : ErrorCode) (message : String) : Call α :=
  throwThe Failure (errorSet code (ascii message))

/-- A status that a caller looks at before it decides what to return. -/
def attempt (x : Call α) : Call (Except Failure α) := ExceptT.mk (Except.ok <$> x.run)

/-- A block the caller cannot do without. -/
def orFail (code : ErrorCode) (message : String) (x : Alloc (Option α)) : Call α := do
  match ← (liftM x : Call (Option α)) with
  | none => fail code message
  | some a => return a

variable {message : String} {code : ErrorCode} {x : Alloc (Option α)}

theorem orFail_eq_ok {a : α} : AllocE.ok (orFail code message x) = .ok a ↔ x.ok = some a := by
  unfold orFail
  rw [AllocE.ok_bind_of_ok (AllocE.ok_lift x)]
  cases x.ok with
  | none => exact ⟨nofun, nofun⟩
  | some b => simp

theorem orFail_eq_error {f : Failure} : AllocE.ok (orFail code message x) = .error f ↔
    x.ok = none ∧ f = errorSet code (ascii message) := by
  unfold orFail
  rw [AllocE.ok_bind_of_ok (AllocE.ok_lift x)]
  cases x.ok with
  | none => exact ⟨fun h => ⟨rfl, (Except.error.inj h).symm⟩, fun h => h.2 ▸ rfl⟩
  | some b => exact ⟨nofun, nofun⟩

theorem can_orFail {r : Except Failure α} : (orFail code message x).Can F r ↔
      (∃ a, x.Can F (some a) ∧ r = .ok a) ∨
        x.Can F none ∧ r = .error (errorSet code (ascii message)) := by
  unfold orFail
  rw [AllocE.can_bind_lift]
  constructor
  · rintro ⟨(_ | a), ha, hr⟩
    · exact Or.inr ⟨ha, (AllocE.can_throw.1 hr).symm⟩
    · exact Or.inl ⟨a, ha, (AllocE.can_pure.1 hr).symm⟩
  · rintro (⟨a, ha, rfl⟩ | ⟨ha, rfl⟩)
    · exact ⟨some a, ha, rfl⟩
    · exact ⟨none, ha, rfl⟩

theorem can_orFail_ok {a : α} : (orFail code message x).Can F (.ok a) ↔ x.Can F (some a) := by
  rw [can_orFail]
  constructor
  · rintro (⟨b, hb, h⟩ | ⟨-, h⟩)
    · injection h with h; exact h ▸ hb
    · cases h
  · exact fun h => Or.inl ⟨a, h, rfl⟩

/-- The code a caller of the C function sees; `none` is `TAMGA_OK`. -/
def status : Except Failure α → Option ErrorCode
  | .ok _ => none
  | .error f => some f.code

@[simp] theorem ok_fail (code : ErrorCode) (message : String) :
    (fail code message : Call α).ok = .error (errorSet code (ascii message)) := rfl

@[simp] theorem ok_attempt (x : Call α) : (attempt x).ok = .ok x.ok :=
  Alloc.ok_map Except.ok x.run

theorem can_fail {r : Except Failure α} :
    (fail code message : Call α).Can F r ↔ .error (errorSet code (ascii message)) = r :=
  AllocE.can_throw

/-- A call that answers as without refusals, or reports out-of-memory. Codes are compared, not
    texts: a refusal inside the JSON parser may change which complaint it words. -/
abbrev Sound (x : Call α) : Prop := AllocE.Sound Failure.IsOutOfMemory Failure.code x

theorem Sound.fail (code : ErrorCode) (message : String) : Sound (fail code message : Call α) :=
  .throw _

theorem Sound.orFail (hx : x.Sound (· = none)) : Sound (orFail .outOfMemory message x) := by
  refine .bind_option (e := errorSet .outOfMemory (ascii message)) rfl hx rfl ?_
  cases x.ok with
  | none => exact Sound.fail _ _
  | some a => exact .pure a

/-- `x` returns `a`, or reports out-of-memory because a request was refused. -/
def Completes (x : Call α) (a : α) : Prop :=
  ∀ F : Prop, AllocE.Yields F (fun f : Failure => F ∧ f.IsOutOfMemory) x a

section Completes

variable {x : Call α} {f : α → Call β} {a : α} {b : β}

theorem Completes.pure (a : α) : Completes (pure a : Call α) a := fun _ => AllocE.Yields.pure a

theorem Completes.bind (hx : Completes x a) (hf : Completes (f a) b) : Completes (x >>= f) b :=
  fun F => (hx F).bind (hf F)

theorem Completes.bind_lift {δ : Type} {y : Alloc (Option δ)} {g : Option δ → Call β} {d : δ}
    {e : Failure} (hy : y.Delivers d) (he : e.IsOutOfMemory) (hnone : g none = throwThe Failure e)
    (hg : Completes (g (some d)) b) : Completes ((liftM y : Call (Option δ)) >>= g) b :=
  fun F => .bind_option (hy F) (fun hF => ⟨e, ⟨hF, he⟩, hnone⟩) (hg F)

theorem Completes.orFail {y : Alloc (Option α)} (hy : y.Delivers a) :
    Completes (orFail .outOfMemory message y) a :=
  Completes.bind_lift (e := errorSet .outOfMemory (ascii message)) hy rfl rfl (Completes.pure a)

theorem Completes.ok (h : Completes x a) : AllocE.ok x = .ok a :=
  (h False).ok_eq fun _ he => he.1

theorem Completes.sound (h : Completes x a) : Sound x := by
  intro r hr
  rw [h.ok]
  rcases h True r hr with rfl | ⟨e, ⟨-, he⟩, rfl⟩
  · exact Or.inl rfl
  · exact Or.inr ⟨e, he, rfl⟩

end Completes

/-- Without a refused request, the call does not report one. -/
def Truthful (x : Call α) : Prop := ∀ f, AllocE.ok x = .error f → ¬ f.IsOutOfMemory

section Truthful

variable {x : Call α} {f : α → Call β}

theorem Truthful.pure (a : α) : Truthful (pure a : Call α) := nofun

theorem Truthful.throw {f : Failure} (h : ¬ f.IsOutOfMemory) :
    Truthful (throwThe Failure f : Call α) := by
  intro f' hf'
  obtain rfl : f = f' := Except.error.inj hf'
  exact h

theorem Truthful.fail (h : code ≠ .outOfMemory) :
    Truthful (fail code message : Call α) := Truthful.throw h

theorem Truthful.of_ok {a : α} (h : AllocE.ok x = .ok a) : Truthful x := by
  intro f hf
  rw [h] at hf
  cases hf

theorem Truthful.bind (hx : Truthful x) (hf : ∀ a, AllocE.ok x = .ok a → Truthful (f a)) :
    Truthful (x >>= f) := by
  intro e he
  cases h : AllocE.ok x with
  | error e' =>
    rw [AllocE.ok_bind_of_error h] at he
    obtain rfl : e' = e := Except.error.inj he
    exact hx e' h
  | ok a =>
    rw [AllocE.ok_bind_of_ok h] at he
    exact hf a h e he

theorem Truthful.bind_lift {δ : Type} {y : Alloc δ} {g : δ → Call β} (h : Truthful (g y.ok)) :
    Truthful ((liftM y : Call δ) >>= g) := by
  unfold Truthful
  rwa [AllocE.ok_bind_of_ok (AllocE.ok_lift y)]

theorem Truthful.orFail {y : Alloc (Option α)} {a : α}
    (h : y.ok = some a) : Truthful (orFail code message y) :=
  Truthful.of_ok (orFail_eq_ok.2 h)

end Truthful

/-- The outcomes of `x'` are those of `x`, out of memory, or failures whose codes `P` tells. -/
abbrev Strays (F : Prop) (x' x : Call α) (P : ErrorCode → Prop) : Prop :=
  AllocE.Strays Failure.IsOutOfMemory Failure.code F x' x P

/-- A refusal that is reported as something else. -/
theorem Strays.orFail {x : Alloc (Option α)} (hx : x.Sound (· = none)) (hrefused : x.Can True none)
    (hok : x.ok ≠ none) :
    Strays True (orFail code message x) (orFail code message x) (· = code) := by
  refine ⟨fun r hr => ?_, ?_, fun h => absurd rfl (h code)⟩
  · obtain ⟨s, hs, hr⟩ := AllocE.can_bind_lift.1 hr
    rcases hx s hs with rfl | rfl
    · obtain ⟨a, ha⟩ := Option.ne_none_iff_exists'.mp hok
      rw [ha] at hr
      rw [orFail_eq_ok.2 ha, ← AllocE.can_pure.1 hr]
      exact Or.inl (.refl _)
    · exact Or.inr (Or.inr ⟨_, rfl, (can_fail.1 hr).symm⟩)
  · rintro _ rfl
    exact ⟨_, rfl, AllocE.can_bind_lift.2 ⟨none, hrefused, can_fail.2 rfl⟩⟩

/-! ### Both at once -/

/-- The call is sound, and `P` holds of the code it fails with when nothing is refused. -/
structure Reports (P : ErrorCode → Prop) (x : Call α) : Prop where
  sound : Sound x
  code : ∀ f, AllocE.ok x = .error f → P f.code

section Reports

variable {P P' : ErrorCode → Prop} {x : Call α} {f : α → Call β}

theorem Reports.pure (a : α) : Reports P (pure a : Call α) := ⟨.pure a, nofun⟩

theorem Reports.throw {e : Failure} (h : P e.code) : Reports P (throwThe Failure e : Call α) := by
  refine ⟨.throw e, fun f hf => ?_⟩
  obtain rfl := Except.error.inj hf
  exact h

theorem Reports.fail (h : P code) : Reports P (fail code message : Call α) := .throw h

theorem Reports.bind (hx : Reports P x) (hf : ∀ a, AllocE.ok x = .ok a → Reports P (f a)) :
    Reports P (x >>= f) := by
  refine ⟨.bind hx.sound fun a ha => (hf a ha).sound, fun e he => ?_⟩
  cases h : AllocE.ok x with
  | error e' =>
    rw [AllocE.ok_bind_of_error h] at he
    obtain rfl := Except.error.inj he
    exact hx.code e' h
  | ok a =>
    rw [AllocE.ok_bind_of_ok h] at he
    exact (hf a h).code e he

theorem Reports.bind_lift {δ : Type} {bad : δ → Prop} {y : Alloc δ} {g : δ → Call β}
    (hy : y.Sound bad) (hbad : ∀ d, bad d → ∃ e : Failure, e.IsOutOfMemory ∧ g d = throwThe Failure e)
    (hg : Reports P (g y.ok)) : Reports P ((liftM y : Call δ) >>= g) := by
  refine ⟨.bind_lift hy hbad hg.sound, fun e he => hg.code e ?_⟩
  rwa [AllocE.ok_bind_of_ok (AllocE.ok_lift _)] at he

theorem Reports.orFail {y : Alloc (Option α)} (h : P .outOfMemory) (hy : y.Sound (· = none)) :
    Reports P (orFail .outOfMemory message y) :=
  ⟨.orFail hy, fun _ hf => (orFail_eq_error.1 hf).2 ▸ h⟩

/-- Two things that are both asked for before either is looked at. -/
theorem Reports.bind_both {δ ζ : Type} {y : Alloc (Option δ)} {z : Alloc (Option ζ)}
    {g : Option δ → Option ζ → Call β} (hy : y.Sound (· = none))
    (hz : z.Sound (· = none)) (hleft : ∀ b, g none b = Call.fail .outOfMemory message)
    (hright : ∀ a, g a none = Call.fail .outOfMemory message) (hg : ∀ a b, Reports P (g a b)) :
    Reports P ((liftM y : Call (Option δ)) >>= fun a => (liftM z : Call (Option ζ)) >>= g a) := by
  refine ⟨.bind_both (e := errorSet .outOfMemory (ascii message)) rfl hy hz hleft hright (hg _ _).sound,
    fun e he => (hg y.ok z.ok).code e ?_⟩
  rwa [AllocE.ok_bind_of_ok (AllocE.ok_lift _), AllocE.ok_bind_of_ok (AllocE.ok_lift _)] at he

/-- A block whose refusal is reported as such. -/
theorem Reports.request {g : Bool → Call β} (hrefused : g false = Call.fail .outOfMemory message)
    (hg : Reports P (g true)) : Reports P ((liftM Alloc.request : Call Bool) >>= g) :=
  .bind_lift Alloc.sound_request
    (fun _ hd => ⟨errorSet .outOfMemory (ascii message), rfl, hd ▸ hrefused⟩) hg

theorem Reports.foldlM {δ : Type} {f : β → δ → Call β} {l : List δ}
    (hf : ∀ b, ∀ d ∈ l, Reports P (f b d)) : ∀ b, Reports P (l.foldlM f b) := by
  induction l with
  | nil => exact fun b => .pure b
  | cons d l ih =>
    intro b
    rw [List.foldlM_cons]
    exact (hf b d List.mem_cons_self).bind fun b' _ =>
      ih (fun b d hd => hf b d (List.mem_cons_of_mem _ hd)) b'

theorem Reports.mono (hx : Reports P x) (h : ∀ c, P c → P' c) : Reports P' x :=
  ⟨hx.sound, fun f hf => h _ (hx.code f hf)⟩

theorem Reports.truthful (hx : Reports P x) (h : ¬ P .outOfMemory) : Truthful x :=
  fun f hf hcode => h (hcode ▸ hx.code f hf)

end Reports

/-- Every result of a call satisfies `Q`. -/
abbrev Ensures (Q : α → Prop) (x : Call α) : Prop := AllocE.Ensures Q x

theorem Ensures.orFail {Q : α → Prop}
    (h : ∀ a, x.Can True (some a) → Q a) : Ensures Q (orFail code message x) :=
  fun a ha => h a (can_orFail_ok.1 ha)

/-- The codes a call fails with are among `codes`. -/
abbrev FailsWith (codes : List ErrorCode) (x : Call α) : Prop :=
  AllocE.Raises (fun f => f.code ∈ codes) x

theorem FailsWith.fail {codes : List ErrorCode}
    (h : code ∈ codes) : FailsWith codes (fail code message : Call α) :=
  .throw h

theorem Reports.failsWith {P : ErrorCode → Prop} {x : Call α} {codes : List ErrorCode}
    (hx : Reports P x) (h : ∀ c, P c → c ∈ codes) (hmemory : .outOfMemory ∈ codes) :
    FailsWith codes x := by
  intro f hf
  rcases hx.sound _ hf with hagrees | ⟨f', hf', heq⟩
  · cases hok : AllocE.ok x with
    | ok a => rw [hok] at hagrees; exact hagrees.elim
    | error f' =>
      rw [hok] at hagrees
      exact (show f.code = f'.code from hagrees) ▸ h _ (hx.code f' hok)
  · obtain rfl := Except.error.inj heq
    exact (show f.code = .outOfMemory from hf') ▸ hmemory

theorem FailsWith.orFail {codes : List ErrorCode} (h : code ∈ codes) :
    FailsWith codes (orFail code message x) :=
  .bind_lift fun a => match a with
    | none => FailsWith.fail h
    | some a => .pure a

end Call

end Tamga
