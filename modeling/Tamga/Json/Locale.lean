import Tamga.Json.Exact
import Tamga.Json.Unambiguous

/-!
# `Json.Locale` — the characters of number tokens

A number is written in digits, signs and exponent letters, and at most one point.
-/

namespace Tamga

open Alloc

namespace Json

variable {c : UInt8}

/-- The characters of a number other than the point. -/
def isNumeral (c : UInt8) : Bool := Decimal.isDigit c || c = 0x2D || c = 0x2B || c = 0x65 || c = 0x45

theorem isNumeral_digit (h : Decimal.isDigit c = true) : isNumeral c = true := by
  simp [isNumeral, h]

/-! ## Number tokens -/

section Tokens

variable {token : Bytes}

theorem numeral_exponent {t : Bytes} (h : Exponent t) : ∀ c ∈ t, isNumeral c = true := by
  intro c hc
  rcases h with rfl | ⟨e, sign, digits, he, hsign, hdigits, rfl⟩
  · cases hc
  rw [List.cons_append] at hc
  rcases List.mem_cons.mp hc with rfl | hc
  · rcases he with rfl | rfl <;> decide
  rcases List.mem_append.mp hc with hc | hc
  · rcases hsign with rfl | rfl | rfl
    · cases hc
    · rw [List.mem_singleton.mp hc]; decide
    · rw [List.mem_singleton.mp hc]; decide
  · exact isNumeral_digit (hdigits.2 c hc)

/-- A token without a point, or one that `strtod` stops in under another point. -/
theorem token_cases (h : NumberToken token) :
    (∀ c ∈ token, isNumeral c = true) ∨
      ∃ (n : Numeral) (rest : Bytes), n.Valid ∧ (∀ c ∈ n.text ++ rest, isNumeral c = true) ∧
        token = n.text ++ 0x2E :: rest := by
  obtain @⟨minus, integer, fraction, exponent, hminus, hinteger, hfraction, hexponent⟩ := h
  have hfront : ∀ c ∈ minus ++ integer, isNumeral c = true := by
    intro c hc
    rcases List.mem_append.mp hc with hc | hc
    · rcases hminus with rfl | rfl
      · cases hc
      · rw [List.mem_singleton.mp hc]; decide
    · exact isNumeral_digit (hinteger.digits c hc)
  rcases hfraction with rfl | ⟨digits, hdigits, rfl⟩
  · left
    intro c hc
    rw [List.append_nil] at hc
    exact (List.mem_append.mp hc).elim (hfront c) (numeral_exponent hexponent c)
  · right
    have hvalid : ∀ negative, (Numeral.mk negative integer [] []).Valid :=
      fun _ => ⟨hinteger, Or.inl rfl, Or.inl rfl⟩
    have hall : ∀ c ∈ minus ++ integer ++ (digits ++ exponent), isNumeral c = true := by
      intro c hc
      rcases List.mem_append.mp hc with hc | hc
      · exact hfront c hc
      · exact (List.mem_append.mp hc).elim (fun hc => isNumeral_digit (hdigits.2 c hc))
          (numeral_exponent hexponent c)
    rcases hminus with rfl | rfl
    · refine ⟨⟨false, integer, [], []⟩, digits ++ exponent, hvalid false, ?_, ?_⟩
      · simpa [Numeral.text] using hall
      · simp [Numeral.text]
    · refine ⟨⟨true, integer, [], []⟩, digits ++ exponent, hvalid true, ?_, ?_⟩
      · simpa [Numeral.text] using hall
      · simp [Numeral.text]

theorem NumberToken.mem (h : NumberToken token) (hc : c ∈ token) :
    isNumeral c = true ∨ c = 0x2E := by
  rcases token_cases h with hplain | ⟨n, rest, -, hplain, rfl⟩
  · exact Or.inl (hplain c hc)
  · rcases List.mem_append.mp hc with hc | hc
    · exact Or.inl (hplain c (List.mem_append_left _ hc))
    · exact (List.mem_cons.mp hc).elim Or.inr fun hc => Or.inl (hplain c (List.mem_append_right _ hc))

end Tokens

end Json

end Tamga
