import Tamga.Api
import Tamga.Checkout.Expiry
import Tamga.Checkout.Trust

/-!
# `Checkout.Rewrap` — the line breaks of a file

Two files with the same markers and, but for whitespace, the same text between them are
`Rewrapped`. The copy of the body skips whitespace before it asks for memory, so the two are opened
by the same program (`pemExtract_rewrapped`); a file of the other format is refused with the same
code. Both cases are `Call.Alike`, which every entry point passes on.
-/

namespace Tamga

open Alloc Base64 Json Slotted

variable {C : Crypto} {L : Libc} {m m' : Markers} {pem pem' body : Bytes}

/-! ## Programs that answer alike -/

/-- The status and the result of a call, without the text in the slot. -/
def Call.observed {α : Type} (x : Call α) : Alloc (Except ErrorCode α) :=
  Except.mapError Failure.code <$> x.run

/-- The same for a public function. -/
def Slotted.observed {ρ ω α : Type} (x : Slotted ρ ω α) (slot : ErrorSlot) :
    Interact ρ ω (Except ErrorCode α) :=
  (fun answer => answer.1.mapError Failure.code) <$> x.run.run slot

namespace Call

variable {α β : Type} {x y : Call α}

/-- The same program, or two that fail at once with one code. -/
def Alike (x y : Call α) : Prop :=
  x = y ∨ ∃ f f' : Failure, f.code = f'.code ∧ x = throwThe Failure f ∧ y = throwThe Failure f'

theorem Alike.refl (x : Call α) : Alike x x := Or.inl rfl

theorem Alike.bind (h : Alike x y) (k : α → Call β) : Alike (x >>= k) (y >>= k) := by
  rcases h with rfl | ⟨f, f', hcode, rfl, rfl⟩
  · exact Or.inl rfl
  · exact Or.inr ⟨f, f', hcode, rfl, rfl⟩

theorem Alike.observed_eq (h : Alike x y) : x.observed = y.observed := by
  rcases h with rfl | ⟨f, f', hcode, rfl, rfl⟩
  · rfl
  · show (pure (.error f.code) : Alloc (Except ErrorCode α)) = pure (.error f'.code)
    rw [hcode]

end Call

namespace Slotted

variable {ρ ω α β : Type} {x y : Slotted ρ ω α}

/-- `Call.Alike` for code that sees the slot. -/
def Alike (x y : Slotted ρ ω α) : Prop :=
  x = y ∨ ∃ f f' : Failure, f.code = f'.code ∧ x = raise f ∧ y = raise f'

theorem Alike.refl (x : Slotted ρ ω α) : Alike x x := Or.inl rfl

theorem Alike.ofCall {c d : Call α} (h : Call.Alike c d) :
    Alike (ofCall c : Slotted ρ ω α) (ofCall d) := by
  rcases h with rfl | ⟨f, f', hcode, rfl, rfl⟩
  · exact Or.inl rfl
  · exact Or.inr ⟨f, f', hcode, rfl, rfl⟩

theorem Alike.bind (h : Alike x y) (k : α → Slotted ρ ω β) : Alike (x >>= k) (y >>= k) := by
  rcases h with rfl | ⟨f, f', hcode, rfl, rfl⟩
  · exact Or.inl rfl
  · exact Or.inr ⟨f, f', hcode, rfl, rfl⟩

theorem Alike.observed_eq (h : Alike x y) (slot : ErrorSlot) :
    x.observed slot = y.observed slot := by
  rcases h with rfl | ⟨f, f', hcode, rfl, rfl⟩
  · rfl
  · show (pure (.error f.code) : Interact ρ ω (Except ErrorCode α)) = pure (.error f'.code)
    rw [hcode]

theorem observed_entry (h : ∀ slot, x.observed slot = y.observed slot) (slot : ErrorSlot) :
    (entry x).observed slot = (entry y).observed slot := h ErrorSlot.empty

/-- What comes after a common first part decides. -/
theorem observed_bind_congr {k k' : α → Slotted ρ ω β}
    (h : ∀ a slot, (k a).observed slot = (k' a).observed slot) (slot : ErrorSlot) :
    (x >>= k).observed slot = (x >>= k').observed slot := by
  unfold observed
  rw [ExceptT.run_bind, ExceptT.run_bind, StateT.run_bind, StateT.run_bind, map_bind, map_bind]
  congr 1
  funext answer
  obtain ⟨status, slot'⟩ := answer
  cases status with
  | ok a => exact h a slot'
  | error f => rfl

end Slotted

/-! ## The envelope -/

/-- `pem'` is `pem` with whitespace put in or taken out, around the markers and between them. -/
def Rewrapped (m : Markers) (pem pem' : Bytes) : Prop :=
  ∃ before inner after before' inner' after' : Bytes,
    (∀ c ∈ before ++ after ++ before' ++ after', pemIsSpace c = true) ∧
      pem = before ++ (m.first ++ inner ++ m.last) ++ after ∧
      pem' = before' ++ (m.first ++ inner' ++ m.last) ++ after' ∧
      (inner.filter fun c => !pemIsSpace c) = inner'.filter fun c => !pemIsSpace c

theorem Rewrapped.envelope (h : Rewrapped m pem pem') :
    ∃ body, Envelope m pem body ∧ Envelope m pem' body := by
  obtain ⟨before, inner, after, before', inner', after', hspace, hpem, hpem', hinner⟩ := h
  simp only [List.mem_append, or_imp, forall_and] at hspace
  obtain ⟨⟨⟨hbefore, hafter⟩, hbefore'⟩, hafter'⟩ := hspace
  exact ⟨_, ⟨before, inner, after, hbefore, hafter, hpem, rfl⟩,
    ⟨before', inner', after', hbefore', hafter', hpem', hinner⟩⟩

theorem Envelope.length_pos (h : Envelope m pem body) : 0 < pem.length := by
  obtain ⟨before, inner, after, -, -, rfl, -⟩ := h
  have hsolid := m.first_solid
  cases hm : m.first with
  | nil => rw [hm] at hsolid; cases hsolid
  | cons => simp only [List.length_append, List.length_cons]; omega

/-- Whitespace costs no request. -/
theorem pemBody_filter (inner : Bytes) :
    pemBody inner = pemBody (inner.filter fun c => !pemIsSpace c) := by
  unfold pemBody pemAppendSolid
  rw [← List.foldlM_filter, ← List.foldlM_filter, List.filter_filter]
  simp only [Bool.and_self]

/-- An enveloped file is opened by the program of its body. -/
theorem pemExtract_enveloped (hlen : pem.length ≤ maxReasonableLen) (h : Envelope m pem body) :
    pemExtract m pem =
      Call.orFail .outOfMemory "could not allocate the certificate body" (pemBody body) := by
  obtain ⟨inner, -, rfl, heq⟩ := pemExtract_of_envelope hlen h
  rw [heq, pemBody_filter]

theorem pemExtract_rewrapped (h : Rewrapped m pem pem') (hlen : pem.length ≤ maxReasonableLen)
    (hlen' : pem'.length ≤ maxReasonableLen) : pemExtract m pem = pemExtract m pem' := by
  obtain ⟨body, henv, henv'⟩ := h.envelope
  rw [pemExtract_enveloped hlen henv, pemExtract_enveloped hlen' henv']

/-- A file of another format is refused whatever its whitespace. -/
theorem pemExtract_otherMarkers (h : Envelope m pem body) (hlen : pem.length ≤ maxReasonableLen)
    (hsize : m'.first.length = m.first.length) (hother : m'.first ≠ m.first) :
    ∃ f : Failure, f.code = .invalidPem ∧ pemExtract m' pem = throwThe Failure f := by
  obtain ⟨inner, htrim, -⟩ := envelope_iff.1 h
  have htake : (pemTrim pem).take m'.first.length ≠ m'.first := by
    rw [htrim, hsize, List.append_assoc, List.take_left]
    exact Ne.symm hother
  have hpos := h.length_pos
  unfold pemExtract
  rw [if_neg (by omega)]
  dsimp only
  by_cases hshort : (pemTrim pem).length < m'.first.length + m'.last.length
  · rw [if_pos hshort]
    exact ⟨_, rfl, rfl⟩
  · rw [if_neg hshort, if_pos htake]
    exact ⟨_, rfl, rfl⟩

/-! ## The entry points -/

/-- The first steps of either format on a file of either format. -/
theorem openCert_alike (kind kind' : FileKind) (h : Rewrapped kind.markers pem pem')
    (hlen : pem.length ≤ maxReasonableLen) (hlen' : pem'.length ≤ maxReasonableLen) :
    Call.Alike (openCert L kind'.markers pem) (openCert L kind'.markers pem') := by
  apply Call.Alike.bind
  by_cases hkind : kind' = kind
  · subst hkind
    exact Or.inl (pemExtract_rewrapped h hlen hlen')
  · have hsize : kind'.markers.first.length = kind.markers.first.length := by
      cases kind <;> cases kind' <;> rfl
    have hother : kind'.markers.first ≠ kind.markers.first := by
      cases kind <;> cases kind' <;> first | exact absurd rfl hkind | decide
    obtain ⟨body, henv, henv'⟩ := h.envelope
    obtain ⟨f, hcode, hf⟩ := pemExtract_otherMarkers henv hlen hsize hother
    obtain ⟨f', hcode', hf'⟩ := pemExtract_otherMarkers henv' hlen' hsize hother
    exact Or.inr ⟨f, f', hcode.trans hcode'.symm, hf, hf'⟩

section Entry

variable {kind : FileKind} (h : Rewrapped kind.markers pem pem')
  (hlen : pem.length ≤ maxReasonableLen) (hlen' : pem'.length ≤ maxReasonableLen)

include h hlen hlen'

theorem licenseOpen_alike : Call.Alike (licenseOpen L pem) (licenseOpen L pem') :=
  (openCert_alike kind .license h hlen hlen').bind _

theorem machineOpen_alike (scheme : UInt32) :
    Call.Alike (machineOpen L pem scheme) (machineOpen L pem' scheme) := by
  unfold machineOpen
  cases machineAlgSuffix scheme with
  | none => exact .refl _
  | some suffix => exact (openCert_alike kind .machine h hlen hlen').bind _

theorem licenseFileVerifyCore_alike (key : Option PublicKey) (keys : Option KeySet)
    (licenseKey : Option Bytes) (nowUnix : Int64) :
    Call.Alike (licenseFileVerifyCore C L (some pem) key keys licenseKey nowUnix)
      (licenseFileVerifyCore C L (some pem') key keys licenseKey nowUnix) := by
  unfold licenseFileVerifyCore
  dsimp only
  split
  · exact .refl _
  · exact (licenseOpen_alike h hlen hlen').bind _

theorem machineFileVerifyCore_alike (scheme : UInt32) (pubkey : Option Bytes) (keys : Option KeySet)
    (licenseKey fingerprint : Option Bytes) (nowUnix : Int64) :
    Call.Alike (machineFileVerifyCore C L (some pem) scheme pubkey keys licenseKey fingerprint nowUnix)
      (machineFileVerifyCore C L (some pem') scheme pubkey keys licenseKey fingerprint nowUnix) := by
  unfold machineFileVerifyCore
  dsimp only
  split
  · exact .refl _
  · split
    · exact .refl _
    · exact (machineOpen_alike h hlen hlen' scheme).bind _

theorem VerifyCall.run_alike (call : VerifyCall) (nowUnix : Int64) :
    Call.Alike (call.run C L pem nowUnix) (call.run C L pem' nowUnix) := by
  cases call with
  | license key licenseKey =>
    exact licenseFileVerifyCore_alike h hlen hlen' (some key) none licenseKey nowUnix
  | licenseKeySet set licenseKey =>
    exact licenseFileVerifyCore_alike h hlen hlen' none (some set) licenseKey nowUnix
  | machine scheme pubkey licenseKey fingerprint =>
    exact machineFileVerifyCore_alike h hlen hlen' scheme (some pubkey) none licenseKey fingerprint
      nowUnix
  | machineKeySet scheme set licenseKey fingerprint =>
    show Call.Alike (machineFileVerifyAtWithKeySet C L (some pem) scheme (some set) licenseKey
      fingerprint nowUnix) (machineFileVerifyAtWithKeySet C L (some pem') scheme (some set)
      licenseKey fingerprint nowUnix)
    unfold machineFileVerifyAtWithKeySet
    dsimp only
    split
    · exact .refl _
    · exact machineFileVerifyCore_alike h hlen hlen' ..

end Entry

/-- A call of one of the four public functions, without the file, the handle and the clock. -/
inductive PublicVerifyCall : Type where
  | license (key : Option PublicKey) (licenseKey : Option Bytes)
  | licenseKeySet (keys : Option KeySet) (licenseKey : Option Bytes)
  | machine (scheme : UInt32) (pubkey licenseKey fingerprint : Option Bytes)
  | machineKeySet (scheme : UInt32) (keys : Option KeySet) (licenseKey fingerprint : Option Bytes)

namespace PublicVerifyCall

variable {ρ ω : Type}

def run (C : Crypto) (L : Libc) (pem : Bytes) (outHandle : Bool) (clock : Option Int64) :
    PublicVerifyCall → Slotted ρ ω Json
  | license key licenseKey => licenseFileVerify C L (some pem) key licenseKey outHandle clock
  | licenseKeySet keys licenseKey =>
      licenseFileVerifyWithKeySet C L (some pem) keys licenseKey outHandle clock
  | machine scheme pubkey licenseKey fingerprint =>
      machineFileVerify C L (some pem) scheme pubkey licenseKey fingerprint outHandle clock
  | machineKeySet scheme keys licenseKey fingerprint =>
      machineFileVerifyWithKeySet C L (some pem) scheme keys licenseKey fingerprint outHandle clock

end PublicVerifyCall

/-- The end of the four public functions, once the file has the right size. -/
theorem observed_fileVerify {ρ ω : Type} {checkKey : Call Unit} {outHandle : Bool}
    {clock : Option Int64} {verifyAt verifyAt' : Int64 → Slotted ρ ω (Json × FileClaims)}
    (hspan : checkSpan (some pem) "pem" = checkSpan (some pem') "pem")
    (h : ∀ nowUnix, Slotted.Alike (verifyAt nowUnix) (verifyAt' nowUnix)) (slot : ErrorSlot) :
    (fileVerify (some pem) checkKey outHandle clock verifyAt).observed slot =
      (fileVerify (some pem') checkKey outHandle clock verifyAt').observed slot := by
  unfold fileVerify
  rw [hspan]
  apply Slotted.observed_entry
  apply Slotted.observed_bind_congr
  intro _
  apply Slotted.observed_bind_congr
  intro _
  apply Slotted.observed_bind_congr
  intro _ slot
  cases clock with
  | none => rfl
  | some nowUnix => exact ((h nowUnix).bind _).observed_eq slot

theorem checkSpan_of_length {what : String} (hpos : 0 < pem.length)
    (hlen : pem.length ≤ maxReasonableLen) : checkSpan (some pem) what = pure () := by
  unfold checkSpan
  dsimp only
  rw [if_neg (by omega)]

section Public

variable {ρ ω : Type} {kind : FileKind} (h : Rewrapped kind.markers pem pem')
  (hlen : pem.length ≤ maxReasonableLen) (hlen' : pem'.length ≤ maxReasonableLen)

include h hlen hlen'

theorem licenseFileVerifyCoreSlotted_alike (key : Option PublicKey) (keys : Option KeySet)
    (licenseKey : Option Bytes) (nowUnix : Int64) :
    Slotted.Alike
      (licenseFileVerifyCoreSlotted C L (some pem) key keys licenseKey nowUnix : Slotted ρ ω _)
      (licenseFileVerifyCoreSlotted C L (some pem') key keys licenseKey nowUnix) := by
  unfold licenseFileVerifyCoreSlotted
  dsimp only
  split
  · exact .refl _
  · exact (Slotted.Alike.ofCall (licenseOpen_alike h hlen hlen')).bind _

theorem machineFileVerifyCoreSlotted_alike (scheme : UInt32) (pubkey : Option Bytes)
    (keys : Option KeySet) (licenseKey fingerprint : Option Bytes) (nowUnix : Int64) :
    Slotted.Alike
      (machineFileVerifyCoreSlotted C L (some pem) scheme pubkey keys licenseKey fingerprint nowUnix :
        Slotted ρ ω _)
      (machineFileVerifyCoreSlotted C L (some pem') scheme pubkey keys licenseKey fingerprint
        nowUnix) := by
  unfold machineFileVerifyCoreSlotted
  dsimp only
  split
  · exact .refl _
  · split
    · exact .refl _
    · exact (Slotted.Alike.ofCall (machineOpen_alike h hlen hlen' scheme)).bind _

theorem PublicVerifyCall.observed_run (call : PublicVerifyCall) (outHandle : Bool)
    (clock : Option Int64) (slot : ErrorSlot) :
    (call.run C L pem outHandle clock : Slotted ρ ω Json).observed slot =
      (call.run C L pem' outHandle clock).observed slot := by
  obtain ⟨body, henv, henv'⟩ := h.envelope
  have hspan : checkSpan (some pem) "pem" = checkSpan (some pem') "pem" := by
    rw [checkSpan_of_length henv.length_pos hlen, checkSpan_of_length henv'.length_pos hlen']
  cases call with
  | license key licenseKey =>
    apply observed_fileVerify hspan
    intro nowUnix
    cases key with
    | none => exact .refl _
    | some key =>
      exact licenseFileVerifyCoreSlotted_alike h hlen hlen' (some key) none licenseKey nowUnix
  | licenseKeySet keys licenseKey =>
    apply observed_fileVerify hspan
    intro nowUnix
    cases keys with
    | none => exact .refl _
    | some set =>
      exact licenseFileVerifyCoreSlotted_alike h hlen hlen' none (some set) licenseKey nowUnix
  | machine scheme pubkey licenseKey fingerprint =>
    apply observed_fileVerify hspan
    intro nowUnix
    cases pubkey with
    | none => exact .refl _
    | some pubkey =>
      exact machineFileVerifyCoreSlotted_alike h hlen hlen' scheme (some pubkey) none licenseKey
        fingerprint nowUnix
  | machineKeySet scheme keys licenseKey fingerprint =>
    apply observed_fileVerify hspan
    intro nowUnix
    cases keys with
    | none => exact .refl _
    | some set =>
      unfold machineFileVerifyAtWithKeySetSlotted
      dsimp only
      split
      · exact .refl _
      · exact machineFileVerifyCoreSlotted_alike h hlen hlen' scheme none (some set) licenseKey
          fingerprint nowUnix

end Public

/-! ## Re-wrapping -/

/-- What `tamga_pem_extract` gives on a file of admissible size. -/
theorem pemExtract_iff_trimmed (hlen : pem.length ≤ maxReasonableLen) :
    (pemExtract m pem).ok = .ok body ↔
      ∃ inner, pemTrim pem = m.first ++ inner ++ m.last ∧ NulFree inner ∧
        body = inner.filter fun c => !pemIsSpace c := by
  have hnul : ∀ inner : Bytes, NulFree (inner.filter fun c => !pemIsSpace c) ↔ NulFree inner := by
    intro inner
    unfold NulFree
    rw [List.mem_filter]
    exact not_congr ⟨fun h => h.1, fun h => ⟨h, by decide⟩⟩
  rw [pemExtract_eq_ok, envelope_iff]
  constructor
  · rintro ⟨-, ⟨inner, htrim, rfl⟩, hfree⟩
    exact ⟨inner, htrim, (hnul inner).1 hfree, rfl⟩
  · rintro ⟨inner, htrim, hfree, rfl⟩
    exact ⟨hlen, ⟨inner, htrim, rfl⟩, (hnul inner).2 hfree⟩

/-- **Re-wrapping.** A licence or machine file whose whitespace is changed around and between its
    markers gets the same status and the same resource from every entry point, whichever format that
    expects. The body is what stands between the markers of the trimmed text, without whitespace. -/
theorem rewrap_outcome (C : Crypto) (L : Libc) {ρ ω : Type} :
    (∀ (kind : FileKind) (pem pem' : Bytes), Rewrapped kind.markers pem pem' →
      pem.length ≤ maxReasonableLen → pem'.length ≤ maxReasonableLen →
      (∀ (call : VerifyCall) (nowUnix : Int64),
        (call.run C L pem nowUnix).observed = (call.run C L pem' nowUnix).observed) ∧
      ∀ (call : PublicVerifyCall) (outHandle : Bool) (clock : Option Int64) (slot : ErrorSlot),
        (call.run C L pem outHandle clock : Slotted ρ ω Json).observed slot =
          (call.run C L pem' outHandle clock).observed slot) ∧
    ∀ (m : Markers) (pem body : Bytes), 1 ≤ pem.length → pem.length ≤ maxReasonableLen →
      ((pemExtract m pem).ok = .ok body ↔
        ∃ inner, pemTrim pem = m.first ++ inner ++ m.last ∧ NulFree inner ∧
          body = inner.filter fun c => !pemIsSpace c) := by
  constructor
  · intro kind pem pem' h hlen hlen'
    constructor
    · intro call nowUnix
      exact (call.run_alike h hlen hlen' nowUnix).observed_eq
    · intro call outHandle clock slot
      exact call.observed_run h hlen hlen' outHandle clock slot
  · intro m pem body _ hlen
    exact pemExtract_iff_trimmed hlen

/-- The sample on one line between its markers. -/
def licenseSampleOneLine : Bytes :=
  licenseMarkers.first ++ sampleBody.flatMap ascii ++ licenseMarkers.last

theorem licenseSample_rewrapped :
    Rewrapped FileKind.license.markers licenseSample licenseSampleOneLine :=
  ⟨[], 0x0A :: textLines sampleBody, [0x0A], [], sampleBody.flatMap ascii, [],
    by decide +kernel⟩

/-- The sample and its one-line form, under the key that signed it. -/
theorem rewrap_outcome_sample :
    Rewrapped FileKind.license.markers licenseSample licenseSampleOneLine ∧
      ((VerifyCall.license sampleKey none).run sampleCrypto halfLibc licenseSample 160).observed =
        ((VerifyCall.license sampleKey none).run sampleCrypto halfLibc licenseSampleOneLine
          160).observed ∧
      (pemExtract licenseMarkers licenseSampleOneLine).ok = .ok (sampleBody.flatMap ascii) := by
  obtain ⟨houtcome, hextract⟩ := @rewrap_outcome sampleCrypto halfLibc Unit Unit
  have hsize : licenseSample.length ≤ maxReasonableLen ∧
      1 ≤ licenseSampleOneLine.length ∧ licenseSampleOneLine.length ≤ maxReasonableLen ∧
      pemTrim licenseSampleOneLine = licenseSampleOneLine ∧ NulFree (sampleBody.flatMap ascii) ∧
      sampleBody.flatMap ascii =
        (sampleBody.flatMap ascii).filter fun c => !pemIsSpace c := by
    decide +kernel
  obtain ⟨hlen, hpos, hlen', htrim, hfree, hsolid⟩ := hsize
  refine ⟨licenseSample_rewrapped, ?_, ?_⟩
  · exact (houtcome .license _ _ licenseSample_rewrapped hlen hlen').1 _ _
  · exact (hextract _ _ _ hpos hlen').2 ⟨_, htrim, hfree, hsolid⟩

end Tamga
