import Tamga.Error
import Tamga.Json.ParseMemory
import Tamga.Json.Stored
import Tamga.Util.Base64

/-!
# `Checkout.Decode` — decoding a field, parsing a document

Two blocks recur in the offline code with different texts: decode base64 and tell a refused request
from a malformed text, and parse JSON and do the same. Each is one definition with its texts as
parameters; a caller is that definition at the texts its source has.
-/

namespace Tamga

open Alloc Base64

variable {L : Libc}

/-- The block around a call of `tamga_base64_decode_alloc_why`. -/
def decodeBase64 (input : Bytes) (noMemory malformed : String) : Call Bytes := do
  match ← (liftM (base64DecodeAllocWhy input).run : Call (Except Base64Failure Bytes)) with
  | .ok bytes => return bytes
  | .error .outOfMemory => Call.fail .outOfMemory noMemory
  | .error .malformed => Call.fail .invalidBase64 malformed

/-- The block around a call of `tamga_json_parse`; `malformed` ends in the parser's own text. -/
def parseDocument (L : Libc) (text : Bytes) (noMemory malformed : String) : Call Json := do
  match ← (liftM (Json.parse L (some text)).run : Call (Except Json.Error Json)) with
  | .ok document => return document
  | .error .outOfMemory => Call.fail .outOfMemory noMemory
  | .error (.malformed message) => Call.fail .invalidJson (malformed ++ message)

/-! ## Base64 fields -/

section Base64

variable {input bytes : Bytes} {noMemory malformed : String}

theorem base64DecodeAllocWhy_ok (hlen : input.length ≤ maxReasonableLen) :
    (base64DecodeAllocWhy input).ok = (base64Decode input).elim (.error .malformed) .ok := by
  rcases base64DecodeAllocWhy_can (F := False) hlen (AllocE.can_ok _) with h | ⟨h, -⟩
  · exact h
  · exact h.elim

theorem decodeBase64_ok (hlen : input.length ≤ maxReasonableLen) :
    (decodeBase64 input noMemory malformed).ok =
      (base64Decode input).elim (.error (errorSet .invalidBase64 (ascii malformed))) .ok := by
  unfold decodeBase64
  rw [AllocE.ok_bind_of_ok (AllocE.ok_lift _)]
  show AllocE.ok (match (base64DecodeAllocWhy input).ok with
    | .ok bytes => pure bytes
    | .error .outOfMemory => Call.fail .outOfMemory noMemory
    | .error .malformed => Call.fail .invalidBase64 malformed) = _
  rw [base64DecodeAllocWhy_ok hlen]
  cases base64Decode input <;> rfl

theorem decodeBase64_eq_ok (hlen : input.length ≤ maxReasonableLen) :
    (decodeBase64 input noMemory malformed).ok = .ok bytes ↔ Spells input bytes := by
  rw [decodeBase64_ok hlen, ← base64Decode_eq_some]
  cases base64Decode input with
  | none => exact ⟨nofun, nofun⟩
  | some b => simp

theorem decodeBase64_sound (hlen : input.length ≤ maxReasonableLen) :
    Call.Sound (decodeBase64 input noMemory malformed) := by
  intro r hr
  rw [decodeBase64_ok hlen]
  obtain ⟨s, hs, hr⟩ := AllocE.can_bind_lift.1 hr
  rcases base64DecodeAllocWhy_can hlen hs with rfl | ⟨-, rfl⟩
  · left
    cases hd : base64Decode input with
    | none => rw [hd] at hr; rw [← Call.can_fail.1 hr]; exact .refl _
    | some b => rw [hd] at hr; rw [← AllocE.can_pure.1 hr]; exact .refl _
  · exact Or.inr ⟨errorSet .outOfMemory (ascii noMemory), rfl, (Call.can_fail.1 hr).symm⟩

theorem decodeBase64_reports (hlen : input.length ≤ maxReasonableLen) :
    Call.Reports (· = .invalidBase64) (decodeBase64 input noMemory malformed) := by
  refine ⟨decodeBase64_sound hlen, fun f hf => ?_⟩
  rw [decodeBase64_ok hlen] at hf
  cases hd : base64Decode input with
  | none => rw [hd] at hf; rw [← Except.error.inj hf]; rfl
  | some b => rw [hd] at hf; cases hf

theorem decodeBase64_failsWith {codes : List ErrorCode}
    (h : [ErrorCode.outOfMemory, .invalidBase64] ⊆ codes) :
    Call.FailsWith codes (decodeBase64 input noMemory malformed) :=
  .bind_lift fun r => match r with
    | .ok bytes => .pure bytes
    | .error .outOfMemory => Call.FailsWith.fail (h (by decide))
    | .error .malformed => Call.FailsWith.fail (h (by decide))

end Base64

/-! ## Documents -/

section Json

open Json

variable {text : Bytes} {v : Json} {noMemory malformed : String}

/-- `text` is a document `tamga_json_parse` accepts, and `v` is its value. -/
def Reads (L : Libc) (text : Bytes) (v : Json) : Prop :=
  text.length ≤ maxReasonableLen ∧ Denotes L text v

theorem Reads.storable (h : Reads L text v) : v.Every Storable := h.2.storable h.1

theorem parse_eq_ok (hL : ConsumesNumbers L) :
    (parse L (some text)).ok = .ok v ↔ Reads L text v := by
  constructor
  · intro h
    obtain ⟨_, ⟨⟩, hlen⟩ := parse_some (AllocE.can_false.2 h)
    exact ⟨hlen, (parse_iff_denotes hL hlen v).mp h⟩
  · rintro ⟨hlen, h⟩
    exact (parse_iff_denotes hL hlen v).mpr h

theorem Reads.unique (hL : ConsumesNumbers L) {v' : Json} (h : Reads L text v)
    (h' : Reads L text v') : v = v' := by
  have := (parse_eq_ok hL).mpr h
  rw [(parse_eq_ok hL).mpr h'] at this
  injection this with this
  exact this.symm

/-- What the caller makes of the parser's answer. -/
theorem parseDocument_ok :
    (parseDocument L text noMemory malformed).ok = match (parse L (some text)).ok with
      | .ok document => .ok document
      | .error .outOfMemory => .error (errorSet .outOfMemory (ascii noMemory))
      | .error (.malformed message) => .error (errorSet .invalidJson (ascii (malformed ++ message))) := by
  unfold parseDocument
  rw [AllocE.ok_bind_of_ok (AllocE.ok_lift _)]
  show AllocE.ok (match (parse L (some text)).ok with
    | .ok document => pure document
    | .error .outOfMemory => Call.fail .outOfMemory noMemory
    | .error (.malformed message) => Call.fail .invalidJson (malformed ++ message)) = _
  cases (parse L (some text)).ok with
  | ok document => rfl
  | error e => cases e <;> rfl

theorem parseDocument_eq_ok (hL : ConsumesNumbers L) :
    (parseDocument L text noMemory malformed).ok = .ok v ↔ Reads L text v := by
  rw [parseDocument_ok, ← parse_eq_ok hL]
  cases (parse L (some text)).ok with
  | ok document => simp only [Except.ok.injEq]
  | error e => cases e <;> exact ⟨nofun, nofun⟩

/-- Without refused requests a document that is not read is malformed. -/
theorem parseDocument_refused (noMemory malformed : String)
    (h : ∀ v, (parse L (some text)).ok ≠ .ok v) :
    ∃ f, (parseDocument L text noMemory malformed).ok = .error f ∧ f.code = .invalidJson := by
  rw [parseDocument_ok]
  cases hp : (parse L (some text)).ok with
  | ok v => exact absurd hp (h v)
  | error e =>
    cases e with
    | outOfMemory => exact (parse_blames (F := False) (AllocE.can_false.2 hp)).elim
    | malformed message => exact ⟨_, rfl, rfl⟩

/-- A document that comes back was read, whatever was refused on the way. -/
theorem parseDocument_reads {F : Prop} {document : Json}
    (h : (parseDocument L text noMemory malformed).Can F (.ok document)) : Reads L text document := by
  obtain ⟨answer, hparse, h⟩ := AllocE.can_bind_lift.1 h
  cases answer with
  | error e => cases e <;> cases h
  | ok v =>
    obtain rfl := Except.ok.inj (AllocE.can_pure.1 h)
    obtain ⟨_, ⟨⟩, hlen⟩ := parse_some hparse
    exact ⟨hlen, parse_sound hparse⟩

theorem parseDocument_failsWith {codes : List ErrorCode}
    (h : [ErrorCode.outOfMemory, .invalidJson] ⊆ codes) :
    Call.FailsWith codes (parseDocument L text noMemory malformed) :=
  .bind_lift fun r => match r with
    | .ok document => .pure document
    | .error .outOfMemory => Call.FailsWith.fail (h (by decide))
    | .error (.malformed _) => Call.FailsWith.fail (h (by decide))

/-- A document without a critical key is read, or refused for lack of memory, whatever fails. -/
theorem parseDocument_sound (hL : ConsumesNumbers L) (hcrit : ¬ CriticalText (some text)) :
    Call.Sound (parseDocument L text noMemory malformed) := by
  intro r hr
  rw [parseDocument_ok]
  obtain ⟨s, hs, hr⟩ := AllocE.can_bind_lift.1 hr
  obtain ⟨σ, rfl⟩ := AllocE.can_iff_under.1 hs
  rcases (parse_memory_iff hL (some text)).mpr hcrit σ with (h | ⟨m, m', h, h'⟩) | h
  · left
    rw [h] at hr
    cases hp : (parse L (some text)).ok with
    | ok document => rw [hp] at hr; rw [← AllocE.can_pure.1 hr]; exact .refl _
    | error e =>
      rw [hp] at hr
      cases e <;> rw [← Call.can_fail.1 hr] <;> exact .refl _
  · left
    rw [h] at hr
    rw [h', ← Call.can_fail.1 hr]
    rfl
  · rw [h] at hr
    exact Or.inr ⟨errorSet .outOfMemory (ascii noMemory), rfl, (Call.can_fail.1 hr).symm⟩

/-- Reading a document under `L'`, with refusals if `F`, goes wrong in one way: a document of `Bad` is
    called malformed. -/
structure ParserStrays (F : Prop) (L' L : Libc) (Bad : Bytes → Prop) : Prop where
  strays : ∀ text noMemory malformed, Call.Strays F (parseDocument L' text noMemory malformed)
    (parseDocument L text noMemory malformed) fun c => c = .invalidJson ∧ Bad text
  reads : ∀ text, Bad text → ∃ v, Reads L text v

/-- The parser strays on the critical documents. -/
theorem parserStrays_memory (hL : ConsumesNumbers L) :
    ParserStrays True L L fun text => CriticalText (some text) where
  strays text noMemory malformed := by
    by_cases hcrit : CriticalText (some text)
    swap
    · exact (AllocE.Strays.of_sound (parseDocument_sound hL hcrit)).congr fun c => by simp [hcrit]
    refine ⟨fun r hr => ?_, ?_, fun h => absurd ⟨rfl, hcrit⟩ (h .invalidJson)⟩
    · cases r with
      | ok v =>
        rw [(parseDocument_eq_ok hL).mpr (parseDocument_reads hr)]
        exact Or.inl (.refl _)
      | error f =>
        have hf : f.code ∈ [ErrorCode.outOfMemory, .invalidJson] :=
          parseDocument_failsWith (fun _ h => h) f hr
        simp only [List.mem_cons, List.not_mem_nil, or_false] at hf
        rcases hf with hf | hf
        · exact Or.inr (Or.inl ⟨trivial, f, hf, rfl⟩)
        · exact Or.inr (Or.inr ⟨f, ⟨hf, hcrit⟩, rfl⟩)
    · rintro _ ⟨rfl, t, doc, ⟨⟩, hlen, ht, hdoc, k, hk, hgrowth⟩
      have hcan := parse_invalidKey (F := True) hL ht ⟨hdoc.depth_le, hdoc.tokens_le⟩ hlen
        ⟨k, hk, Or.inr ⟨trivial, hgrowth⟩⟩
      exact ⟨_, rfl, AllocE.can_bind_lift.2 ⟨_, hcan, Call.can_fail.2 rfl⟩⟩
  reads := by
    rintro text ⟨t, doc, ⟨⟩, hlen, ht, hdoc, -⟩
    exact ⟨doc.value L, hlen, doc, ht, hdoc, rfl⟩

end Json

end Tamga
