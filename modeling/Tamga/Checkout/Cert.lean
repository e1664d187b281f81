import Mathlib.Data.List.DropRight
import Tamga.Checkout.Decode

/-!
# `Checkout.Cert` — the PEM envelope and the certificate inside it (`checkout/pem.c`, `cert.c`)

Both offline files are a JSON certificate `{"enc", "sig", "alg"}` in base64 between two marker lines.
`Certificate m pem cert` says what the bytes of such a file are; `openCert_eq_ok` that the code
accepts exactly those of admissible size.
-/

namespace Tamga

open Alloc Base64 Json

variable {L : Libc}

/-! ## The envelope -/

/-- `tamga_pem_is_space`. -/
def pemIsSpace (c : UInt8) : Bool :=
  c = 0x20 || c = 0x09 || c = 0x0A || c = 0x0D || c = 0x0B || c = 0x0C

/-- The two marker texts of a file format. Neither begins nor ends in whitespace where it meets the
    outside, so trimming cannot cut into one. -/
structure Markers where
  first : Bytes
  last : Bytes
  first_solid : first.head?.map pemIsSpace = some false
  last_solid : last.getLast?.map pemIsSpace = some false

/-- The two loops that move `start` and `end` inwards. -/
def pemTrim (pem : Bytes) : Bytes := (pem.dropWhile pemIsSpace).rdropWhile pemIsSpace

/-- The loop that copies the body without its whitespace. -/
def pemAppendSolid (body : Bytes) (buf : Buf) : Alloc Buf :=
  body.foldlM (fun buf c => if !pemIsSpace c then buf.appendByte c else pure buf) buf

/-- The bytes between the markers, detached as a string. -/
def pemBody (inner : Bytes) : Alloc (Option Bytes) := do
  let buf ← pemAppendSolid inner Buf.init
  buf.detachString

/-- `tamga_pem_extract`. -/
def pemExtract (m : Markers) (pem : Bytes) : Call Bytes :=
  if pem.length = 0 ∨ pem.length > maxReasonableLen then
    Call.fail .lengthInvalid "certificate length is zero or exceeds the accepted maximum"
  else
    let trimmed := pemTrim pem
    -- a short input could match both markers while they overlap
    if trimmed.length < m.first.length + m.last.length then
      Call.fail .invalidPem "certificate is too short to contain both PEM markers"
    else if trimmed.take m.first.length ≠ m.first then
      Call.fail .invalidPem "missing the opening PEM marker"
    else if trimmed.drop (trimmed.length - m.last.length) ≠ m.last then
      Call.fail .invalidPem "missing the closing PEM marker"
    else
      Call.orFail .outOfMemory "could not allocate the certificate body"
        (pemBody ((trimmed.drop m.first.length).take
          (trimmed.length - m.first.length - m.last.length)))

/-! ## The certificate -/

/-- `TamgaCert`: three strings with their lengths. -/
structure Cert where
  enc : Bytes
  sig : Bytes
  alg : Bytes
  deriving DecidableEq, Repr

/-- The string member `key` of an object. -/
def stringField (value : Json) (key : String) : Option Bytes :=
  (value.objectGet (ascii key)).bind asString

/-- The three views into the parsed certificate. -/
def certFields (root : Json) : Option Cert :=
  match stringField root "enc", stringField root "sig", stringField root "alg" with
  | some enc, some sig, some alg => some ⟨enc, sig, alg⟩
  | _, _, _ => none

/-- `tamga_cert_parse`. -/
def certParse (L : Libc) (body : Bytes) : Call Cert := do
  let decoded ← decodeBase64 body "could not allocate room to decode the certificate"
    "the certificate body is not valid base64"
  let root ← parseDocument L decoded "could not parse the certificate"
    "certificate JSON is malformed: "
  match certFields root with
  | some cert => return cert
  | none =>
      Call.fail .invalidJson "certificate is missing a required string field (enc, sig or alg)"

/-- The envelope and the certificate, as both file formats open them. -/
def openCert (L : Libc) (m : Markers) (pem : Bytes) : Call Cert := do
  let body ← pemExtract m pem
  certParse L body

/-! ## What a file is -/

/-- `pem` is, up to whitespace around it, the two markers around a text that is `body` once its
    whitespace is dropped. -/
def Envelope (m : Markers) (pem body : Bytes) : Prop :=
  ∃ before inner after, (∀ c ∈ before, pemIsSpace c = true) ∧ (∀ c ∈ after, pemIsSpace c = true) ∧
    pem = before ++ (m.first ++ inner ++ m.last) ++ after ∧
    body = inner.filter fun c => !pemIsSpace c

/-- The JSON document a file carries. -/
def CertDocument (m : Markers) (pem document : Bytes) : Prop :=
  ∃ body, Envelope m pem body ∧ Spells body document

/-- `root` has the three members as strings. -/
structure HasFields (root : Json) (cert : Cert) : Prop where
  enc : root.objectGet (ascii "enc") = some (.str cert.enc)
  sig : root.objectGet (ascii "sig") = some (.str cert.sig)
  alg : root.objectGet (ascii "alg") = some (.str cert.alg)

/-- `pem` carries the certificate `cert`. -/
def Certificate (L : Libc) (m : Markers) (pem : Bytes) (cert : Cert) : Prop :=
  ∃ document root, CertDocument m pem document ∧ Reads L document root ∧ HasFields root cert

/-! ## Trimming and the markers -/

theorem pemTrim_split (pem : Bytes) : ∃ before after, (∀ c ∈ before, pemIsSpace c = true) ∧
    (∀ c ∈ after, pemIsSpace c = true) ∧ pem = before ++ pemTrim pem ++ after := by
  refine ⟨pem.takeWhile pemIsSpace, (pem.dropWhile pemIsSpace).rtakeWhile pemIsSpace,
    fun c hc => List.mem_takeWhile_imp hc, fun c hc => List.mem_rtakeWhile_imp hc, ?_⟩
  rw [List.append_assoc]
  unfold pemTrim
  rw [List.rdropWhile_append_rtakeWhile, List.takeWhile_append_dropWhile]

/-- What stands between two solid ends survives. -/
theorem pemTrim_solid {before mid after : Bytes} (hbefore : ∀ c ∈ before, pemIsSpace c = true)
    (hafter : ∀ c ∈ after, pemIsSpace c = true) (hhead : mid.head?.map pemIsSpace = some false)
    (hlast : mid.getLast?.map pemIsSpace = some false) :
    pemTrim (before ++ mid ++ after) = mid := by
  have hkeep : ∀ l : Bytes, l.head?.map pemIsSpace = some false → ∀ rest,
      (l ++ rest).dropWhile pemIsSpace = l ++ rest := by
    intro l hl rest
    cases l with
    | nil => cases hl
    | cons c l =>
      rw [List.head?_cons, Option.map_some, Option.some.injEq] at hl
      rw [List.cons_append, List.dropWhile_cons_of_neg (by simp [hl])]
  unfold pemTrim List.rdropWhile
  rw [List.append_assoc, List.dropWhile_append_of_pos hbefore, hkeep mid hhead after,
    List.reverse_append, List.dropWhile_append_of_pos fun c hc => hafter c (List.mem_reverse.mp hc)]
  have := hkeep mid.reverse (by rw [List.head?_reverse]; exact hlast) []
  rw [List.append_nil] at this
  rw [this, List.reverse_reverse]

/-- The checks on the trimmed text split it at the markers. -/
theorem split_markers {t a b inner : Bytes} :
    (a.length + b.length ≤ t.length ∧ t.take a.length = a ∧ t.drop (t.length - b.length) = b ∧
      (t.drop a.length).take (t.length - a.length - b.length) = inner) ↔ t = a ++ inner ++ b := by
  constructor
  · rintro ⟨hlen, ha, hb, rfl⟩
    have hmid : (t.drop a.length).take (t.length - a.length - b.length) ++ b = t.drop a.length := by
      have h := List.take_append_drop (t.length - a.length - b.length) (t.drop a.length)
      rwa [List.drop_drop, show a.length + (t.length - a.length - b.length) = t.length - b.length by
        omega, hb] at h
    rw [List.append_assoc, hmid]
    nth_rewrite 1 [← ha]
    exact (List.take_append_drop _ _).symm
  · rintro rfl
    simp only [List.length_append]
    refine ⟨by omega, by simp, ?_, ?_⟩
    · rw [show a.length + inner.length + b.length - b.length = (a ++ inner).length by simp]
      exact List.drop_left
    · rw [show a.length + inner.length + b.length - a.length - b.length = inner.length by omega]
      simp

theorem markers_solid (m : Markers) (inner : Bytes) :
    (m.first ++ inner ++ m.last).head?.map pemIsSpace = some false ∧
      (m.first ++ inner ++ m.last).getLast?.map pemIsSpace = some false := by
  have hfirst := m.first_solid
  have hlast := m.last_solid
  constructor
  · cases hm : m.first with
    | nil => rw [hm] at hfirst; cases hfirst
    | cons c rest => rw [hm] at hfirst; exact hfirst
  · cases hm : m.last.getLast? with
    | none => rw [hm] at hlast; cases hlast
    | some c =>
      rw [hm] at hlast
      rw [List.getLast?_append, hm]
      exact hlast

variable {m : Markers}

/-- An enveloped text is one whose trimmed form splits at the markers. -/
theorem envelope_iff {pem body : Bytes} : Envelope m pem body ↔
      ∃ inner, pemTrim pem = m.first ++ inner ++ m.last ∧ body = inner.filter fun c => !pemIsSpace c := by
  constructor
  · rintro ⟨before, inner, after, hbefore, hafter, rfl, hbody⟩
    obtain ⟨hhead, hlast⟩ := markers_solid m inner
    exact ⟨inner, pemTrim_solid hbefore hafter hhead hlast, hbody⟩
  · rintro ⟨inner, htrim, hbody⟩
    obtain ⟨before, after, hbefore, hafter, hpem⟩ := pemTrim_split pem
    exact ⟨before, inner, after, hbefore, hafter, htrim ▸ hpem, hbody⟩

theorem Envelope.length_le {pem body : Bytes} (h : Envelope m pem body) :
    body.length ≤ pem.length := by
  obtain ⟨before, inner, after, -, -, rfl, rfl⟩ := h
  have := List.length_filter_le (fun c => !pemIsSpace c) inner
  simp only [List.length_append]
  omega

/-- Whitespace behind the file does not matter. -/
theorem Envelope.append_space {pem body space : Bytes} (h : Envelope m pem body)
    (hspace : ∀ c ∈ space, pemIsSpace c = true) : Envelope m (pem ++ space) body := by
  obtain ⟨before, inner, after, hbefore, hafter, rfl, hbody⟩ := h
  refine ⟨before, inner, after ++ space, hbefore, fun c hc => ?_, by simp, hbody⟩
  exact (List.mem_append.mp hc).elim (hafter c) (hspace c)

/-- The body of an envelope is determined. -/
theorem Envelope.unique {pem body body' : Bytes} (h : Envelope m pem body)
    (h' : Envelope m pem body') : body = body' := by
  obtain ⟨inner, ht, rfl⟩ := envelope_iff.1 h
  obtain ⟨inner', ht', rfl⟩ := envelope_iff.1 h'
  rw [ht] at ht'
  rw [List.append_cancel_left (List.append_cancel_right ht')]

/-! ## Opening a file -/

section Open

variable {F : Prop} {m : Markers} {pem body : Bytes} {cert : Cert}

/-- The body comes out without its whitespace, unless it has a NUL or memory ran out. -/
theorem pemBody_can {inner : Bytes} {r : Option Bytes} (hlen : inner.length ≤ maxReasonableLen)
    (h : (pemBody inner).Can F r) :
    r = some (inner.filter fun c => !pemIsSpace c) ∧ NulFree (inner.filter fun c => !pemIsSpace c) ∨
      r = none ∧ (F ∨ ¬ NulFree (inner.filter fun c => !pemIsSpace c)) := by
  obtain ⟨buf, hbuf, h⟩ := can_bind.1 h
  unfold pemAppendSolid at hbuf
  rw [← List.foldlM_filter] at hbuf
  have hbig : maxReasonableLen + 1 ≤ Buf.maxGrowth := by decide
  have hle := List.length_filter_le (fun c => !pemIsSpace c) inner
  have hfilled := Buf.Filled.appendBytes (E := F) id Buf.filled_init
    (by rw [List.nil_append]; omega) hbuf
  rw [List.nil_append] at hfilled
  exact hfilled.holds.detachString id (by omega) h

/-- The length of a trimmed text. -/
theorem length_pemTrim_le (pem : Bytes) : (pemTrim pem).length ≤ pem.length :=
  ((List.rdropWhile_prefix _ _).length_le).trans (List.dropWhile_suffix _).length_le

/-- Once the markers are found, what is left is to copy the body. -/
theorem pemExtract_of_envelope (hlen : pem.length ≤ maxReasonableLen) (h : Envelope m pem body) :
    ∃ inner, inner.length ≤ maxReasonableLen ∧ body = (inner.filter fun c => !pemIsSpace c) ∧
      pemExtract m pem =
        Call.orFail .outOfMemory "could not allocate the certificate body" (pemBody inner) := by
  obtain ⟨inner, htrim, hbody⟩ := envelope_iff.1 h
  obtain ⟨hshort, hfirst, hlast, hinner⟩ := split_markers.2 htrim
  have htrimlen := length_pemTrim_le pem
  refine ⟨inner, ?_, hbody, ?_⟩
  · rw [htrim] at htrimlen
    simp only [List.length_append] at htrimlen
    omega
  · have hpos : 0 < m.first.length := by
      have := m.first_solid
      cases hm : m.first with
      | nil => rw [hm] at this; cases this
      | cons => simp
    unfold pemExtract
    rw [if_neg (by omega)]
    simp only
    rw [if_neg (by omega), if_neg (not_not.mpr hfirst), if_neg (not_not.mpr hlast), hinner]

/-- Anything else is refused before memory is asked for. -/
theorem pemExtract_of_not_envelope (h : ¬ (pem.length ≤ maxReasonableLen ∧ ∃ body, Envelope m pem body)) :
    ∃ f, ¬ f.IsOutOfMemory ∧ pemExtract m pem = throwThe Failure f := by
  have refused : ∀ {code : ErrorCode} {message : String}, code ≠ .outOfMemory →
      ∃ f : Failure, ¬ f.IsOutOfMemory ∧ (Call.fail code message : Call Bytes) = throwThe Failure f :=
    fun {code message} hcode => ⟨errorSet code (ascii message), hcode, rfl⟩
  unfold pemExtract
  by_cases hlen : pem.length = 0 ∨ pem.length > maxReasonableLen
  · rw [if_pos hlen]
    exact refused (by decide)
  rw [if_neg hlen]
  simp only
  by_cases hshort : (pemTrim pem).length < m.first.length + m.last.length
  · rw [if_pos hshort]
    exact refused (by decide)
  rw [if_neg hshort]
  by_cases hfirst : (pemTrim pem).take m.first.length = m.first
  · rw [if_neg (not_not.mpr hfirst)]
    by_cases hlast : (pemTrim pem).drop ((pemTrim pem).length - m.last.length) = m.last
    · exact absurd ⟨by omega, _, envelope_iff.2
        ⟨_, split_markers.1 ⟨by omega, hfirst, hlast, rfl⟩, rfl⟩⟩ h
    · rw [if_pos hlast]
      exact refused (by decide)
  · rw [if_pos hfirst]
    exact refused (by decide)

theorem pemExtract_too_long (h : pem.length > maxReasonableLen) :
    pemExtract m pem =
      Call.fail .lengthInvalid "certificate length is zero or exceeds the accepted maximum" := by
  unfold pemExtract
  rw [if_pos (Or.inr h)]

/-- The only failure-free outcomes of the copy: the body, or a NUL in it. -/
theorem pemBody_ok {inner : Bytes} (hlen : inner.length ≤ maxReasonableLen) :
    (pemBody inner).ok =
      if NulFree (inner.filter fun c => !pemIsSpace c) then
        some (inner.filter fun c => !pemIsSpace c) else none := by
  rcases pemBody_can (F := False) hlen (pemBody inner).can_ok with ⟨h, hnul⟩ | ⟨h, hnul⟩
  · rw [h, if_pos hnul]
  · rw [h, if_neg (hnul.resolve_left id)]

theorem pemExtract_eq_ok :
    (pemExtract m pem).ok = .ok body ↔
      pem.length ≤ maxReasonableLen ∧ Envelope m pem body ∧ NulFree body := by
  by_cases h : pem.length ≤ maxReasonableLen ∧ ∃ body, Envelope m pem body
  · obtain ⟨hlen, body', henv⟩ := h
    obtain ⟨inner, hinner, hbody, heq⟩ := pemExtract_of_envelope hlen henv
    rw [heq, Call.orFail, AllocE.ok_bind_of_ok (AllocE.ok_lift _), pemBody_ok hinner, ← hbody]
    by_cases hnul : NulFree body'
    · rw [if_pos hnul]
      constructor
      · intro h
        injection h with h
        exact h ▸ ⟨hlen, henv, hnul⟩
      · rintro ⟨-, henv', -⟩
        rw [henv.unique henv']
        rfl
    · rw [if_neg hnul]
      constructor
      · nofun
      · rintro ⟨-, henv', hnul'⟩
        exact absurd (henv.unique henv' ▸ hnul') hnul
  · obtain ⟨f, -, heq⟩ := pemExtract_of_not_envelope h
    rw [heq]
    exact ⟨nofun, fun ⟨hlen, henv, _⟩ => absurd ⟨hlen, body, henv⟩ h⟩

theorem stringField_eq_some {value : Json} {key : String} {bytes : Bytes} :
    stringField value key = some bytes ↔ value.objectGet (ascii key) = some (.str bytes) := by
  unfold stringField
  cases value.objectGet (ascii key) with
  | none => exact ⟨nofun, nofun⟩
  | some v =>
    cases v with
    | str s => simp [asString]
    | null | bool | int | double | arr | obj => exact ⟨nofun, nofun⟩

theorem certFields_eq_some {root : Json} : certFields root = some cert ↔ HasFields root cert := by
  constructor
  · intro h
    unfold certFields at h
    split at h
    · rename_i henc hsig halg
      injection h with h
      subst h
      exact ⟨stringField_eq_some.1 henc, stringField_eq_some.1 hsig, stringField_eq_some.1 halg⟩
    · cases h
  · intro h
    unfold certFields
    rw [stringField_eq_some.2 h.enc, stringField_eq_some.2 h.sig, stringField_eq_some.2 h.alg]

/-- The fields of a certificate are no longer than a document may be. -/
theorem HasFields.length_le {root : Json} (h : HasFields root cert) (hroot : root.Every Storable) :
    cert.enc.length ≤ maxReasonableLen ∧ cert.sig.length ≤ maxReasonableLen ∧
      cert.alg.length ≤ maxReasonableLen :=
  ⟨(hroot.objectGet h.enc).self, (hroot.objectGet h.sig).self, (hroot.objectGet h.alg).self⟩

theorem Certificate.length_le (h : Certificate L m pem cert) :
    cert.enc.length ≤ maxReasonableLen ∧ cert.sig.length ≤ maxReasonableLen ∧
      cert.alg.length ≤ maxReasonableLen := by
  obtain ⟨document, root, -, hread, hfields⟩ := h
  exact hfields.length_le hread.storable

theorem Certificate.append_space {space : Bytes} (h : Certificate L m pem cert)
    (hspace : ∀ c ∈ space, pemIsSpace c = true) : Certificate L m (pem ++ space) cert := by
  obtain ⟨document, root, ⟨body, henv, hspells⟩, hread, hfields⟩ := h
  exact ⟨document, root, ⟨body, henv.append_space hspace, hspells⟩, hread, hfields⟩

theorem certParse_eq_ok (hL : ConsumesNumbers L) (hlen : body.length ≤ maxReasonableLen) :
    (certParse L body).ok = .ok cert ↔
      ∃ document root, Spells body document ∧ Reads L document root ∧ HasFields root cert := by
  unfold certParse
  simp only [AllocE.ok_bind_eq_ok, decodeBase64_eq_ok hlen, parseDocument_eq_ok hL]
  constructor
  · rintro ⟨document, hspells, root, hread, h⟩
    cases hf : certFields root with
    | none => rw [hf] at h; cases h
    | some cert' =>
      rw [hf] at h
      injection h with h
      exact ⟨document, root, hspells, hread, certFields_eq_some.1 (h ▸ hf)⟩
  · rintro ⟨document, root, hspells, hread, hfields⟩
    refine ⟨document, hspells, root, hread, ?_⟩
    rw [certFields_eq_some.2 hfields]
    rfl

/-- **Opening a file.** Without refused requests, the certificate comes back exactly when the file
    carries it and is of admissible size. -/
theorem openCert_eq_ok (hL : ConsumesNumbers L) :
    (openCert L m pem).ok = .ok cert ↔ pem.length ≤ maxReasonableLen ∧ Certificate L m pem cert := by
  unfold openCert
  rw [AllocE.ok_bind_eq_ok]
  constructor
  · rintro ⟨body, hbody, h⟩
    obtain ⟨hlen, henv, -⟩ := pemExtract_eq_ok.1 hbody
    obtain ⟨document, root, hspells, hread, hfields⟩ :=
      (certParse_eq_ok hL (henv.length_le.trans hlen)).mp h
    exact ⟨hlen, document, root, ⟨body, henv, hspells⟩, hread, hfields⟩
  · rintro ⟨hlen, document, root, ⟨body, henv, hspells⟩, hread, hfields⟩
    exact ⟨body, pemExtract_eq_ok.2 ⟨hlen, henv, hspells.notMem rfl (by decide)⟩,
      (certParse_eq_ok hL (henv.length_le.trans hlen)).mpr ⟨document, root, hspells, hread, hfields⟩⟩

/-- The certificate of a file is determined. -/
theorem Certificate.unique (hL : ConsumesNumbers L) (hlen : pem.length ≤ maxReasonableLen)
    {cert' : Cert} (h : Certificate L m pem cert) (h' : Certificate L m pem cert') :
    cert = cert' := by
  have := (openCert_eq_ok hL).mpr ⟨hlen, h⟩
  rw [(openCert_eq_ok hL).mpr ⟨hlen, h'⟩] at this
  injection this with this
  exact this.symm

/-- The codes of a file that does not open. -/
theorem openCert_failsWith {codes : List ErrorCode}
    (h : [ErrorCode.outOfMemory, .lengthInvalid, .invalidPem, .invalidBase64, .invalidJson] ⊆ codes) :
    Call.FailsWith codes (openCert L m pem) := by
  have hextract : Call.FailsWith codes (pemExtract m pem) := by
    unfold pemExtract
    dsimp only
    split_ifs
    · exact .fail (h (by decide))
    · exact .fail (h (by decide))
    · exact .fail (h (by decide))
    · exact .fail (h (by decide))
    · exact .orFail (h (by decide))
  refine .bind hextract fun body => ?_
  refine .bind (decodeBase64_failsWith (List.Subset.trans (by decide) h))
    fun document => ?_
  refine .bind (parseDocument_failsWith (List.Subset.trans (by decide) h))
    fun root => ?_
  cases certFields root with
  | none => exact Call.FailsWith.fail (h (by decide))
  | some cert => exact .pure cert

end Open

end Tamga
