import Tamga.Json.Floating

/-!
# `Json.Exact` — a C library with exact conversions

`exactLibc` computes both conversions in integer arithmetic. It is what the results about
`Libc.Correct` are evaluated with, and it shows that there is such a library (`exactLibc_correct`).
-/

namespace Tamga

open Binary64 Json

/-- The number in front of `s`, in its parts. -/
def scanNumeral (s : Bytes) : Except String Numeral := do
  let (minus, s) := scanMinus s
  let (integer, s) ← scanInteger s
  let (fraction, s) ← scanFraction s
  let (exponent, _) ← scanExponent s
  return ⟨!minus.isEmpty, integer, fraction, exponent⟩

/-- The magnitude nearest to `m · 10 ^ e`. -/
def nearestDecimal (m : Nat) (e : Int) : Nat :=
  if 0 ≤ e then nearest (m * 10 ^ e.toNat) 1 else nearest m (10 ^ (-e).toNat)

def exactLibc : Libc where
  strtod s := match scanNumeral s with
    | .ok n => (Double.make n.negative (nearestDecimal (Decimal.value (n.whole ++ n.fraction.tail))
        ((readInteger n.exponent.tail).1 - n.fraction.tail.length)), n.text.length)
    | .error _ => (Double.make false 0, 0)
  formatE precision d :=
    formatText d.signBit precision (shorten precision (scaled d.magnitude) (2 ^ 1074)).1
      (shorten precision (scaled d.magnitude) (2 ^ 1074)).2

theorem nearestDecimal_spec (m : Nat) (e : Int) : Nearest (m * (10 : ℚ) ^ e) (nearestDecimal m e) := by
  unfold nearestDecimal
  by_cases he : 0 ≤ e
  · have h := nearest_spec (m * 10 ^ e.toNat) (d := 1) (by decide)
    have hcast : ((m * 10 ^ e.toNat : ℕ) : ℚ) / (1 : ℕ) = m * (10 : ℚ) ^ e := by
      rw [Nat.cast_one, div_one, Nat.cast_mul, Nat.cast_pow, Nat.cast_ofNat, ← zpow_natCast,
        Int.toNat_of_nonneg he]
    rw [if_pos he]
    rwa [hcast] at h
  · have h := nearest_spec m (d := 10 ^ (-e).toNat) (by positivity)
    have hcast : (m : ℚ) / (10 ^ (-e).toNat : ℕ) = m * (10 : ℚ) ^ e := by
      rw [Nat.cast_pow, Nat.cast_ofNat, ← zpow_natCast, Int.toNat_of_nonneg (by omega), zpow_neg,
        div_inv_eq_mul]
    rw [if_neg he]
    rwa [hcast] at h

theorem numberEnds_of_endsNumber {rest : Bytes} (h : ∀ c ∈ rest.head?, endsNumber c = true) :
    NumberEnds rest := by
  cases rest with
  | nil => exact numberEnds_nil
  | cons c rest =>
    have all : ∀ c : UInt8, endsNumber c = true →
        Decimal.isDigit c = false ∧ c ≠ 0x2E ∧ c ≠ 0x65 ∧ c ≠ 0x45 :=
      forall_byte (by decide +kernel)
    exact all c (h c rfl)

theorem scanNumeral_text {n : Numeral} (h : n.Valid) {rest : Bytes} (hrest : NumberEnds rest) :
    scanNumeral (n.text ++ rest) = .ok n := by
  obtain ⟨negative, whole, fraction, exponent⟩ := n
  have hminus : ∀ b : Bool, (if b then [0x2D] else []) = ([] : Bytes) ∨
      (if b then [0x2D] else []) = [(0x2D : UInt8)] := by decide
  obtain ⟨h1, h2, h3, h4⟩ := scan_parts (hminus negative) h.whole h.fraction h.exponent hrest
  unfold scanNumeral Numeral.text
  simp only [List.append_assoc, h1, h2, h3, h4, Except.ok_bind]
  cases negative <;> rfl

/-- **There is a correct C library.** -/
theorem exactLibc_correct : exactLibc.Correct where
  strtod n rest hn hrest := by
    refine ⟨_, nearestDecimal_spec _ _, ?_⟩
    show (match scanNumeral (n.text ++ rest) with
      | .ok n => _
      | .error _ => _) = _
    rw [scanNumeral_text hn (numberEnds_of_endsNumber hrest)]
  formatE precision d hfin := by
    refine ⟨_, _, ?_, rfl⟩
    have h := shorten_spec precision (n := scaled d.magnitude) (d := 2 ^ 1074) (by positivity) ?_
    · have hvalue : ((scaled d.magnitude : ℕ) : ℚ) / (2 ^ 1074 : ℕ) = Binary64.value d.magnitude := by
        rw [Binary64.value, tiny, Nat.cast_pow, Nat.cast_ofNat, mul_one_div]
      rwa [hvalue] at h
    · rcases Nat.eq_zero_or_pos (scaled d.magnitude) with h0 | hpos
      · exact Or.inl h0
      · right
        have hbig : 2 ^ 1074 ≤ 10 ^ 400 := by decide +kernel
        exact hbig.trans (Nat.le_mul_of_pos_left _ hpos)

end Tamga
