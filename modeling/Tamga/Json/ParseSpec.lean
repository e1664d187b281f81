import Tamga.Json.ParseComplete
import Tamga.Json.ParseSound

/-!
# `Json.ParseSpec` — `tamga_json_parse` against the grammar

The two directions put together at the entry point, where the text has to be read to its end:
without failures the parser accepts exactly the texts of accepted documents and returns what they
denote (`parse_iff_denotes`).
-/

namespace Tamga

namespace Json

open AllocE

variable {F : Prop} {L : Libc} {t : Bytes}

theorem skipWs_eq_nil {s : Bytes} : (skipWs s).isEmpty = true ↔ Ws s := by
  rw [List.isEmpty_iff]
  exact List.dropWhile_eq_nil_iff

/-- What an outcome of `parseValue` becomes at the entry point. -/
def parseOutcome : Except (Option Error) (Json × Bytes) → Except Error Json
  | .error e => .error (e.getD (.malformed "malformed JSON"))
  | .ok (value, rest) =>
      if (skipWs rest).isEmpty then .ok value
      else .error (.malformed "trailing content after the top-level value")

theorem parse_can {r : Except Error Json} (hlen : t.length ≤ maxReasonableLen) :
    (parse L (some t)).Can F r ↔ ∃ r', (parseValue L maxDepth t).Can F r' ∧ r = parseOutcome r' := by
  unfold parse
  simp only [Nat.not_lt.mpr hlen, if_false]
  show Alloc.Can F (_ >>= _) r ↔ _
  rw [Alloc.can_bind]
  constructor
  · rintro ⟨r', hr', h⟩
    exact ⟨r', hr', (Alloc.can_pure.1 h).symm⟩
  · rintro ⟨r', hr', rfl⟩
    exact ⟨r', hr', rfl⟩

theorem parse_too_long (hlen : ¬ t.length ≤ maxReasonableLen) :
    parse L (some t) = throw (.malformed "input exceeds the maximum accepted size") := by
  unfold parse
  simp only [Nat.lt_of_not_le hlen, if_true]

/-- A value comes from a text of admissible size. -/
theorem parse_some {text : Option Bytes} {v : Json} (h : (parse L text).Can F (.ok v)) :
    ∃ t, text = some t ∧ t.length ≤ maxReasonableLen := by
  cases text with
  | none => cases h
  | some t =>
    refine ⟨t, rfl, ?_⟩
    by_contra hlen
    rw [parse_too_long hlen] at h
    cases h

/-- Whatever is refused, a value that is returned is the value of a document that was read. -/
theorem parse_reads {v : Json} (h : (parse L (some t)).Can F (.ok v)) :
    ∃ doc, Text doc t ∧ doc.Scanned L maxDepth ∧ doc.value L = v := by
  obtain ⟨_, ⟨⟩, hlen⟩ := parse_some h
  obtain ⟨r, hr, h⟩ := (parse_can hlen).mp h
  cases r with
  | error e => cases h
  | ok x =>
    obtain ⟨value, rest⟩ := x
    unfold parseOutcome at h
    dsimp only at h
    split at h
    · rename_i hend
      injection h with h
      obtain ⟨doc, w, b, hw, hb, hs, hscanned, hv⟩ := (parseValue_reads hlen).ok hr
      exact ⟨doc, ⟨w, b, rest, hw, hb, skipWs_eq_nil.1 hend, hs⟩, hscanned,
        by rw [h]; exact hv.symm⟩
    · cases h

/-- An accepted text denotes the value returned. -/
theorem parse_sound {v : Json} (h : (parse L (some t)).Can F (.ok v)) : Denotes L t v := by
  obtain ⟨doc, ht, hscanned, hv⟩ := parse_reads h
  exact ⟨doc, ht, hscanned.within, hv⟩

/-- On a text of an accepted document, the value or the error of a refused request. -/
theorem parse_yields_of_read {doc : Doc} (ht : Text doc t) (hdoc : doc.Accepted)
    (hread : ∀ t ∈ doc.tokens, NumberToken t → TokenRead L t) (hlen : t.length ≤ maxReasonableLen) :
    Yields F (fun e => F ∧ (e = .outOfMemory ∨ doc.Critical ∧ e = invalidKey))
      (parse L (some t)) (doc.value L) := by
  intro r hr
  obtain ⟨r', hr', rfl⟩ := (parse_can hlen).mp hr
  obtain ⟨w, b, w', hw, hb, hw', rfl⟩ := ht
  simp only [List.length_append] at hlen
  have hends : NumberEnds w' := by simpa using NumberEnds.append hw' numberEnds_nil
  rcases parseValue_yields hdoc hread id hw hb hends (by omega) r' hr' with rfl | ⟨e, he, rfl⟩
  · left
    unfold parseOutcome
    dsimp only
    rw [if_pos (skipWs_eq_nil.2 hw')]
  · obtain ⟨⟨hF, he⟩, hne⟩ := he
    refine Or.inr ⟨_, ?_, rfl⟩
    rcases he with rfl | rfl | ⟨hcrit, rfl⟩
    · exact absurd rfl hne
    · exact ⟨hF, Or.inl rfl⟩
    · exact ⟨hF, Or.inr ⟨hcrit, rfl⟩⟩

theorem parse_yields (hL : ConsumesNumbers L) {doc : Doc} (ht : Text doc t) (hdoc : doc.Accepted)
    (hlen : t.length ≤ maxReasonableLen) :
    Yields F (fun e => F ∧ (e = .outOfMemory ∨ doc.Critical ∧ e = invalidKey))
      (parse L (some t)) (doc.value L) :=
  parse_yields_of_read ht hdoc (fun t _ ht => Or.inr (hL t ht)) hlen

/-- **The accepted language and its meaning.** For a text of admissible size and no refused request,
    `tamga_json_parse` returns `v` exactly when the text is JSON within the SDK's limits and `v` is
    the value it denotes. -/
theorem parse_iff_denotes (hL : ConsumesNumbers L) (hlen : t.length ≤ maxReasonableLen) (v : Json) :
    (parse L (some t)).ok = .ok v ↔ Denotes L t v := by
  constructor
  · intro h
    exact parse_sound (can_false.2 h)
  · rintro ⟨doc, ht, hdoc, rfl⟩
    exact (parse_yields hL ht hdoc hlen).ok_eq fun e he => he.1

/-- **Exactly the intended language, with its meaning.** Without refused requests a tree comes back
    iff the text is JSON — the grammar's strings are well-formed UTF-8 with properly paired `\u`
    escapes — nested at most 64 deep, with no NUL in a decoded key and no number of more than 340
    characters; and the tree is the one the text denotes. -/
theorem parse_language_and_value (hL : ConsumesNumbers L) (hlen : t.length ≤ 16 * 1024 * 1024) :
    ((∃ v, (parse L (some t)).ok = .ok v) ↔
      ∃ doc, Text doc t ∧ doc.depth ≤ 64 ∧ (∀ k ∈ doc.keys, NulFree k) ∧
        ∀ n ∈ doc.tokens, n.length ≤ 340) ∧
    (∀ doc, Text doc t → doc.depth ≤ 64 → (∀ k ∈ doc.keys, NulFree k) →
      (∀ n ∈ doc.tokens, n.length ≤ 340) → (parse L (some t)).ok = .ok (doc.value L)) := by
  have hvalue : ∀ doc, Text doc t → doc.depth ≤ 64 → (∀ k ∈ doc.keys, NulFree k) →
      (∀ n ∈ doc.tokens, n.length ≤ 340) → (parse L (some t)).ok = .ok (doc.value L) :=
    fun doc ht hdepth hkeys htokens =>
      (parse_iff_denotes hL hlen _).mpr ⟨doc, ht, ⟨hdepth, hkeys, htokens⟩, rfl⟩
  refine ⟨⟨?_, ?_⟩, hvalue⟩
  · rintro ⟨v, hv⟩
    obtain ⟨doc, ht, hdoc, -⟩ := (parse_iff_denotes hL hlen v).mp hv
    exact ⟨doc, ht, hdoc.depth_le, hdoc.keys_nulFree, hdoc.tokens_le⟩
  · rintro ⟨doc, ht, hdepth, hkeys, htokens⟩
    exact ⟨_, hvalue doc ht hdepth hkeys htokens⟩

/-- `{"k":0.5,"k":[true]}`. -/
def duplicateText : Bytes := ascii "\x7b\x22k\x22:0.5,\x22k\x22:[true]\x7d"

/-- A C library on the one token it is asked about: `0.5` is exact in binary64. -/
def halfLibc : Libc where
  strtod t := (if t = ascii "0.5" then ⟨0x3FE0000000000000⟩ else ⟨0⟩, t.length)
  formatE _ _ := []

/-- Two members share a key; the later value stays. -/
theorem parse_language_and_value_duplicate :
    (∃ doc, Text doc duplicateText) ∧
      (parse halfLibc (some duplicateText)).ok = .ok (.obj [(ascii "k", .arr [.bool true])]) := by
  obtain ⟨doc, ht, -⟩ := (parse_language_and_value (L := halfLibc) (t := duplicateText)
    (fun _ _ => rfl) (by decide)).1.mp ⟨_, rfl⟩
  exact ⟨⟨doc, ht⟩, rfl⟩

end Json

end Tamga
