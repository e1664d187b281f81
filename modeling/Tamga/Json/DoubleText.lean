import Tamga.Json.Exact
import Tamga.Json.Floating

/-!
# `Json.DoubleText` — the text of a double (`util/json_write.c`, `util/json_parse.c`)

The serializer asks `"%.*e"` for more and more digits until `strtod` reads the double back, and then
writes the digits it found in one of three notations. Whatever the notation, the token denotes the
decimal that was found, and the parser takes it for a double and not for an integer.
-/

namespace Tamga

open Alloc Binary64

namespace Json

variable {L : Libc} {d : Double}

/-! ## The search is for the fewest digits -/

/-- The search ends at the first precision whose text is read back as the double. -/
theorem searchPrecision_least {t : Bytes} :
    ∀ {remaining precision : Nat}, searchPrecision L d remaining precision = some t →
      ∃ q, precision ≤ q ∧ q < precision + remaining ∧ L.formatE q d = t ∧
        (L.strtod t).1.eq d = true ∧
        ∀ r, precision ≤ r → r < q → (L.strtod (L.formatE r d)).1.eq d = false := by
  intro remaining
  induction remaining with
  | zero =>
    intro precision h
    cases h
  | succ remaining ih =>
    intro precision h
    unfold searchPrecision at h
    dsimp only at h
    split at h
    · cases h
    · split at h
      · rename_i heq
        obtain rfl := Option.some.inj h
        refine ⟨precision, Nat.le_refl _, by omega, rfl, heq, ?_⟩
        intro r hle hlt
        omega
      · rename_i hne
        obtain ⟨q, hle, hlt, hformat, hread, hleast⟩ := ih h
        refine ⟨q, by omega, by omega, hformat, hread, ?_⟩
        intro r hr hrq
        by_cases hfirst : r = precision
        · rw [hfirst]
          exact Bool.eq_false_iff.mpr hne
        · exact hleast r (by omega) hrq

/-! ## The length of the token and its marks -/

section Scientific

variable {s : Scientific}

theorem length_printSigned_le {e : Int} (he : e.natAbs < 1000) : (printSigned e).length ≤ 4 := by
  have hlen := Decimal.length_encode_le (k := 3) (by decide) (show e.natAbs < 10 ^ 3 from he)
  unfold printSigned printInt
  split
  · rw [List.length_cons]
    omega
  · rw [List.length_cons]
    omega

/-- No notation is long. -/
theorem length_scientificText_le (hdigits : s.digits.length ≤ 17) (hexp : s.exponent10.natAbs < 1000) :
    (scientificText s).length ≤ maxNumberChars := by
  have hsigned := length_printSigned_le (e := s.kk - 1) (by unfold Scientific.kk; omega)
  have hzero : (ascii ".0").length = 2 ∧ (ascii "0.").length = 2 := by decide
  have hsign : (if s.negative = true then [0x2D] else ([] : Bytes)).length ≤ 1 := by
    split
    · rfl
    · exact Nat.zero_le 1
  have htail : (if 1 < s.digits.length then (0x2E : UInt8) :: s.digits.drop 1 else []).length ≤ 17 := by
    split
    · rw [List.length_cons, List.length_drop]
      omega
    · exact Nat.zero_le 17
  have hbody : (digitsText s).length ≤ 100 := by
    unfold digitsText
    split
    · split
      · simp only [List.length_append, List.length_replicate]
        omega
      · simp only [List.length_append, List.length_cons, List.length_take, List.length_drop]
        omega
    · split
      · simp only [List.length_append, List.length_replicate]
        omega
      · simp only [List.length_append, List.length_cons, List.length_take]
        omega
  unfold scientificText maxNumberChars
  rw [List.length_append]
  omega

/-- Every notation shows that the number is no integer. -/
theorem mark_mem_scientificText : 0x2E ∈ scientificText s ∨ 0x65 ∈ scientificText s := by
  have hbody : 0x2E ∈ digitsText s ∨ 0x65 ∈ digitsText s := by
    unfold digitsText
    split
    · left
      split
      · exact List.mem_append_right _ (List.mem_append_right _ (by decide))
      · exact List.mem_append_right _ List.mem_cons_self
    · split
      · exact Or.inl (List.mem_append_left _ (by decide))
      · exact Or.inr (List.mem_append_right _ (List.mem_append_right _ List.mem_cons_self))
  exact hbody.imp (List.mem_append_right _) (List.mem_append_right _)

end Scientific

theorem length_stripZeros_le {digits : Bytes} (h : digits ≠ []) :
    (stripZeros digits).length ≤ digits.length := by
  obtain ⟨-, k, hsplit, -⟩ := stripZeros_spec h
  have hlen := congrArg List.length hsplit
  rw [List.length_append] at hlen
  omega

/-! ## The token -/

/-- A number token by itself is a document. -/
theorem parse_numberToken (hL : ConsumesNumbers L) {t : Bytes} (ht : NumberToken t)
    (hlen : t.length ≤ maxNumberChars) : (parse L (some t)).ok = .ok (numberValue L t) := by
  have hshort : t.length ≤ maxReasonableLen := by
    unfold maxNumberChars at hlen
    unfold maxReasonableLen
    omega
  refine (parse_iff_denotes hL hshort _).mpr ⟨.num t, ?_, ⟨show 1 ≤ maxDepth by decide,
      by simp [Doc.keys], ?_⟩, rfl⟩
  · exact ⟨[], t, [], ws_nil, .num ht, ws_nil, by simp⟩
  · intro token htoken
    rw [List.mem_singleton.mp htoken]
    exact hlen

/-- **A double keeps its value and its type.** With `q` the fewest digits that are read back, the token
    denotes what `"%.*e"` printed with them, and parsing it gives the double. -/
theorem writeDouble_faithful (hL : L.Correct) (hfin : d.isFinite = true) :
    ∃ (q : Nat) (found written : Numeral),
      (q ≤ 17 ∧ found.Valid ∧ found.text = L.formatE q d ∧ (L.strtod (L.formatE q d)).1.eq d = true ∧
        ∀ r < q, (L.strtod (L.formatE r d)).1.eq d = false) ∧
      (∀ (out : Buf) (c : Bytes), out.Holds False c → (c ++ written.text).length < Buf.maxGrowth →
        (writeDouble L d out).ok.Holds False (c ++ written.text)) ∧
      NumberToken written.text ∧ written.text.length ≤ 340 ∧
      (0x2E ∈ written.text ∨ 0x65 ∈ written.text) ∧
      (written.Valid ∧ written.negative = found.negative ∧ written.value = found.value) ∧
      (parse L (some written.text)).ok = .ok (.double d) := by
  obtain ⟨p, D, X, n, hfound, hsearch, hn, htext, hvalue⟩ := exists_doubleNumeral hL hfin
  have hlt := hfound.shortened.lt
  have hle := hfound.le
  obtain ⟨q, -, hq, hformat, hread, hleast⟩ := searchPrecision_least hsearch
  have hlength : n.text.length ≤ maxNumberChars := by
    rw [hn.text]
    refine length_scientificText_le ?_ (hfound.shortened.natAbs_lt ((Double.isFinite_iff d).mp hfin))
    have := length_stripZeros_le (@padded_ne_nil (p + 1) D)
    rw [length_padded hlt] at this
    exact le_trans this (by omega)
  obtain ⟨htoken, hliteral, hstrtod⟩ := recoverable_double hL hfin
  rw [← htext] at htoken hliteral hstrtod
  refine ⟨q, formatNumeral d.signBit p D X, n, ⟨by omega, formatNumeral_valid hlt, ?_, ?_, ?_⟩, ?_,
    htoken, hlength, ?_, ⟨hn.valid, hn.negative, ?_⟩, ?_⟩
  · rw [hformat, text_formatNumeral]
  · rw [hformat]
    exact hread
  · intro r hr
    exact hleast r (Nat.zero_le r) hr
  · intro out c hout hroom
    rw [htext] at hroom ⊢
    exact writes_double L d False False out _ c hout id (by omega) (can_ok _)
  · rw [hn.text]
    exact mark_mem_scientificText
  · rw [hvalue, value_formatNumeral hlt]
  · rw [parse_numberToken (consumesNumbers hL) htoken hlength, numberValue, hliteral, hstrtod]

/-- One tenth, in a library whose conversions are exact. -/
theorem writeDouble_faithful_tenth :
    (⟨0x3FB999999999999A⟩ : Double).isFinite = true ∧
      doubleText exactLibc ⟨0x3FB999999999999A⟩ = ascii "0.1" ∧
      ∃ written : Numeral, NumberToken written.text ∧
        (parse exactLibc (some written.text)).ok = .ok (.double ⟨0x3FB999999999999A⟩) := by
  refine ⟨by decide, by decide +kernel, ?_⟩
  obtain ⟨_, _, written, _, _, htoken, _, _, _, hparse⟩ :=
    writeDouble_faithful exactLibc_correct (show (⟨0x3FB999999999999A⟩ : Double).isFinite = true by decide)
  exact ⟨written, htoken, hparse⟩

end Json

end Tamga
