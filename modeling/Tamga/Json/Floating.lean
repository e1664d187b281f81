import Tamga.Json.CanonicalForm
import Tamga.Lib.Binary64

/-!
# `Json.Floating` — what the serializer makes of a double

`Libc.Correct` says what the two conversions of the C library are for: `strtod` reads the longest
number in front of it and rounds its exact value correctly, `"%.*e"` writes a value rounded to the
digits asked for. From this alone the text of a finite double is a JSON number of the same value as
the digits the precision search ended with, and `strtod` reads it back as the double it was written
from (`recoverable_double`).
-/

namespace Tamga

open Binary64 Decimal

/-! ## Sign and magnitude -/

namespace Double

def magnitude (d : Double) : Nat := d.bits.toNat % 2 ^ 63

def make (negative : Bool) (b : Nat) : Double :=
  ⟨UInt64.ofNat ((if negative then 2 ^ 63 else 0) + b)⟩

variable {negative : Bool} {b : Nat}

theorem toNat_make (hb : b < 2 ^ 63) :
    (make negative b).bits.toNat = (if negative then 2 ^ 63 else 0) + b := by
  unfold make
  rw [UInt64.toNat_ofNat']
  refine Nat.mod_eq_of_lt ?_
  split <;> omega

theorem magnitude_make (hb : b < 2 ^ 63) : (make negative b).magnitude = b := by
  unfold magnitude
  rw [toNat_make hb]
  split <;> omega

theorem make_signBit_magnitude (d : Double) : make d.signBit d.magnitude = d := by
  have hlt := d.bits.toNat_lt
  have hbits : (if d.signBit = true then 2 ^ 63 else 0) + d.magnitude = d.bits.toNat := by
    unfold signBit magnitude
    simp only [decide_eq_true_eq]
    split <;> omega
  unfold make
  rw [hbits, UInt64.ofNat_toNat]

theorem isFinite_iff (d : Double) : d.isFinite = true ↔ d.magnitude < infinity := by
  have hlt := d.bits.toNat_lt
  unfold isFinite biasedExponent magnitude infinity
  rw [decide_eq_true_eq]
  omega

theorem isZero_iff (d : Double) : d.isZero = true ↔ d.magnitude = 0 := by
  have hlt := d.bits.toNat_lt
  unfold isZero biasedExponent fraction magnitude
  rw [decide_eq_true_eq]
  omega

/-- Doubles that compare equal have the same magnitude. -/
theorem magnitude_eq_of_eq {d d' : Double} (h : d.eq d' = true) : d.magnitude = d'.magnitude := by
  unfold eq at h
  simp only [Bool.and_eq_true, Bool.or_eq_true, decide_eq_true_eq] at h
  rcases h.2 with rfl | ⟨hz, hz'⟩
  · rfl
  · rw [(isZero_iff d).mp hz, (isZero_iff d').mp hz']

theorem eq_self {d : Double} (h : d.isFinite = true) : d.eq d = true := by
  have hnan : d.isNaN = false := by
    unfold isNaN
    rw [decide_eq_false_iff_not]
    rintro ⟨he, -⟩
    unfold isFinite at h
    rw [decide_eq_true_eq] at h
    exact h he
  unfold eq
  simp [hnan]

end Double

namespace Json

/-! ## Numbers as texts -/

/-- The parts of `[-]ddd[.ddd][e[+-]ddd]`; the point and the mark belong to what they introduce. -/
structure Numeral where
  negative : Bool
  whole : Bytes
  fraction : Bytes
  exponent : Bytes

namespace Numeral

def text (n : Numeral) : Bytes :=
  (if n.negative then [0x2D] else []) ++ n.whole ++ n.fraction ++ n.exponent

structure Valid (n : Numeral) : Prop where
  whole : Decimal.Plain n.whole
  fraction : Fraction n.fraction
  exponent : Exponent n.exponent

/-- The magnitude the text denotes, exactly. -/
def value (n : Numeral) : ℚ :=
  Decimal.value (n.whole ++ n.fraction.tail) *
    (10 : ℚ) ^ ((readInteger n.exponent.tail).1 - n.fraction.tail.length)

theorem Valid.numberToken {n : Numeral} (h : n.Valid) : NumberToken n.text := by
  refine .mk ?_ h.whole h.fraction h.exponent
  cases n.negative
  · exact Or.inl rfl
  · exact Or.inr rfl

theorem Valid.literalInt_text {n : Numeral} (h : n.Valid)
    (hmore : n.fraction ≠ [] ∨ n.exponent ≠ []) : literalInt n.text = none := by
  unfold text
  rw [List.append_assoc]
  refine literalInt_eq_none ?_ h.whole ?_
  · cases n.negative
    · exact Or.inl rfl
    · exact Or.inr rfl
  · rcases h.fraction with hf | ⟨digits, -, hf⟩
    · rcases h.exponent with hx | ⟨e, sign, digits, he, -, -, hx⟩
      · exact (hmore.elim (· hf) (· hx)).elim
      · exact ⟨e, by rw [hf, hx]; simp, by rcases he with rfl | rfl <;> decide⟩
    · exact ⟨0x2E, by rw [hf]; simp, by decide⟩

end Numeral

/-- A JSON number is one of these. -/
theorem NumberToken.numeral {t : Bytes} (h : NumberToken t) :
    ∃ n : Numeral, n.Valid ∧ n.text = t := by
  obtain @⟨minus, integer, fraction, exponent, hminus, hinteger, hfraction, hexponent⟩ := h
  rcases hminus with rfl | rfl
  · exact ⟨⟨false, integer, fraction, exponent⟩, ⟨hinteger, hfraction, hexponent⟩, rfl⟩
  · exact ⟨⟨true, integer, fraction, exponent⟩, ⟨hinteger, hfraction, hexponent⟩, rfl⟩

/-- A byte that ends a number whatever comes after it. -/
def endsNumber (c : UInt8) : Bool :=
  !(Decimal.isDigit c || (0x41 ≤ c && c ≤ 0x5A) || (0x61 ≤ c && c ≤ 0x7A) || c = 0x2E)

/-! ## `"%.*e"` -/

/-- `D` with `count` digits. -/
def padded (count D : Nat) : Bytes :=
  List.replicate (count - (Decimal.encode D).length) 0x30 ++ Decimal.encode D

/-- The exponent with its sign and at least two digits. -/
def exponentText (X : Int) : Bytes := (if X < 0 then 0x2D else 0x2B) :: padded 2 X.natAbs

/-- What `"%.*e"` prints for the significand `D` of `precision + 1` digits at exponent `X`. -/
def formatText (negative : Bool) (precision D : Nat) (X : Int) : Bytes :=
  (if negative then [0x2D] else []) ++ (padded (precision + 1) D).take 1 ++
    (if precision = 0 then [] else 0x2E :: (padded (precision + 1) D).drop 1) ++
    0x65 :: exponentText X

section Padded

variable {count D p : Nat}

theorem isDigit_zero : isDigit 0x30 = true := by decide

theorem digits_padded : ∀ c ∈ padded count D, isDigit c = true := by
  intro c hc
  rcases List.mem_append.mp hc with hc | hc
  · rw [List.eq_of_mem_replicate hc]; exact isDigit_zero
  · exact (encode_plain D).digits c hc

theorem value_padded : value (padded count D) = D := by
  unfold padded
  rw [value_append, value_zeros, value_encode, zero_mul, zero_add]

theorem length_padded (hD : D < 10 ^ (p + 1)) : (padded (p + 1) D).length = p + 1 := by
  have := length_encode_le (Nat.succ_pos p) hD
  unfold padded
  rw [List.length_append, List.length_replicate]
  omega

theorem padded_ne_nil : padded count D ≠ [] := by
  intro h
  exact (encode_plain D).ne_nil (List.append_eq_nil_iff.mp h).2

/-- `strtol` reads the exponent of `"%.*e"`. -/
theorem readInteger_exponentText (X : Int) : (readInteger (exponentText X)).1 = X := by
  have hrun : (padded 2 X.natAbs).takeWhile isDigit = padded 2 X.natAbs :=
    List.takeWhile_eq_self_iff.mpr digits_padded
  unfold readInteger exponentText
  by_cases hX : X < 0
  · simp only [if_pos hX, List.head?_cons, decide_true, Bool.true_or, if_true, List.tail_cons, hrun,
      value_padded]
    omega
  · simp only [if_neg hX, List.head?_cons, List.tail_cons]
    rw [if_neg (by decide), if_pos (by decide), hrun, value_padded]
    omega

end Padded

theorem plain_digit {c : UInt8} (h : isDigit c = true) : Decimal.Plain [c] := by
  refine ⟨by simp, fun x hx => ?_, fun hzero => ?_⟩
  · rw [List.mem_singleton.mp hx]; exact h
  · injection hzero with hzero; rw [hzero]

/-- The parts of `formatText`. -/
def formatNumeral (negative : Bool) (precision D : Nat) (X : Int) : Numeral where
  negative := negative
  whole := (padded (precision + 1) D).take 1
  fraction := if precision = 0 then [] else 0x2E :: (padded (precision + 1) D).drop 1
  exponent := 0x65 :: exponentText X

section Format

variable {negative : Bool} {p D : Nat} {X : Int}

theorem text_formatNumeral : (formatNumeral negative p D X).text = formatText negative p D X := rfl

theorem formatNumeral_valid (hD : D < 10 ^ (p + 1)) : (formatNumeral negative p D X).Valid := by
  have hlen := length_padded hD
  refine ⟨?_, ?_, ?_⟩
  · show Decimal.Plain ((padded (p + 1) D).take 1)
    obtain ⟨c, rest, h⟩ := List.exists_cons_of_ne_nil (@padded_ne_nil (p + 1) D)
    rw [h]
    exact plain_digit (@digits_padded (p + 1) D c (by rw [h]; exact List.mem_cons_self))
  · show Fraction (if p = 0 then [] else 0x2E :: (padded (p + 1) D).drop 1)
    by_cases hp : p = 0
    · rw [if_pos hp]; exact Or.inl rfl
    · rw [if_neg hp]
      refine Or.inr ⟨_, ⟨?_, fun c hc => digits_padded c (List.mem_of_mem_drop hc)⟩, rfl⟩
      intro h
      have := congrArg List.length h
      rw [List.length_drop, hlen, List.length_nil] at this
      omega
  · refine Or.inr ⟨0x65, [if X < 0 then 0x2D else 0x2B], padded 2 X.natAbs, Or.inl rfl, ?_,
      ⟨padded_ne_nil, digits_padded⟩, rfl⟩
    by_cases hX : X < 0
    · rw [if_pos hX]; exact Or.inr (Or.inr rfl)
    · rw [if_neg hX]; exact Or.inr (Or.inl rfl)

/-- The digits, with or without a point among them. -/
theorem whole_append_fraction (hD : D < 10 ^ (p + 1)) :
    (formatNumeral negative p D X).whole ++ (formatNumeral negative p D X).fraction.tail =
        padded (p + 1) D ∧
      (formatNumeral negative p D X).fraction.tail.length = p := by
  have hlen := length_padded hD
  unfold formatNumeral
  dsimp only
  by_cases hp : p = 0
  · subst hp
    rw [if_pos rfl, List.tail_nil, List.append_nil]
    exact ⟨List.take_of_length_le hlen.le, rfl⟩
  · rw [if_neg hp, List.tail_cons, List.take_append_drop, List.length_drop, hlen]
    exact ⟨rfl, rfl⟩

theorem value_formatNumeral (hD : D < 10 ^ (p + 1)) :
    (formatNumeral negative p D X).value = D * (10 : ℚ) ^ (X - p) := by
  obtain ⟨hdigits, hlen⟩ := @whole_append_fraction negative p D X hD
  unfold Numeral.value
  rw [hdigits, hlen, value_padded]
  show (D : ℚ) * (10 : ℚ) ^ ((readInteger (exponentText X)).1 - (p : ℤ)) = _
  rw [readInteger_exponentText]

theorem length_formatText_lt (negative : Bool) (hp : p < 18) (hD : D < 10 ^ (p + 1)) (hX : X.natAbs < 1000) :
    (formatText negative p D X).length < 64 := by
  have hlen := length_padded hD
  have hexp : (padded 2 X.natAbs).length ≤ 3 := by
    have := length_encode_le (k := 3) (by decide) (show X.natAbs < 10 ^ 3 from hX)
    unfold padded
    rw [List.length_append, List.length_replicate]
    have hpos := List.length_pos_of_ne_nil (encode_plain X.natAbs).ne_nil
    omega
  have hsign : (if negative = true then [0x2D] else ([] : Bytes)).length ≤ 1 := by
    split
    · rfl
    · exact Nat.zero_le 1
  have hfrac : (if p = 0 then [] else (0x2E : UInt8) :: (padded (p + 1) D).drop 1).length ≤ p + 1 := by
    split
    · exact Nat.zero_le _
    · rw [List.length_cons, List.length_drop, hlen]; omega
  unfold formatText exponentText
  simp only [List.length_append, List.length_cons, List.length_take, hlen]
  omega

end Format

end Json

open Json

/-- The conversions are correct: `strtod` in the C numeric locale reads the longest number it can and
    rounds its exact value to the nearest double, ties to even and overflow to infinity; `"%.*e"`
    rounds a finite value to the digits asked for. -/
structure Libc.Correct (L : Libc) : Prop where
  strtod : ∀ (n : Numeral) (rest : Bytes), n.Valid → (∀ c ∈ rest.head?, endsNumber c = true) →
    ∃ b, Nearest n.value b ∧ L.strtod (n.text ++ rest) = (Double.make n.negative b, n.text.length)
  formatE : ∀ (precision : Nat) (d : Double), d.isFinite = true →
    ∃ D X, Shortened precision (Binary64.value d.magnitude) D X ∧
      L.formatE precision d = formatText d.signBit precision D X

namespace Json

variable {L : Libc} {d : Double}

/-! ## The precision search -/

/-- What the search ends with: the value to `p + 1` digits, enough of them to read it back. -/
structure Found (L : Libc) (d : Double) (p D : Nat) (X : Int) : Prop where
  shortened : Shortened p (Binary64.value d.magnitude) D X
  nearest : Nearest (D * (10 : ℚ) ^ (X - p)) d.magnitude
  le : p ≤ 16

/-- `strtod` on what `"%.*e"` printed. -/
theorem strtod_formatText (hL : L.Correct) (negative : Bool) {p D : Nat} (X : Int)
    (hD : D < 10 ^ (p + 1)) :
    ∃ b, Nearest (D * (10 : ℚ) ^ (X - p)) b ∧
      (L.strtod (formatText negative p D X)).1 = Double.make negative b := by
  obtain ⟨b, hb, hread⟩ := hL.strtod (formatNumeral negative p D X) [] (formatNumeral_valid hD) nofun
  rw [value_formatNumeral hD] at hb
  rw [List.append_nil, text_formatNumeral] at hread
  exact ⟨b, hb, by rw [hread]; rfl⟩

theorem infinity_lt : infinity < 2 ^ 63 := by decide

/-- The search succeeds, at seventeen digits if not before. -/
theorem searchPrecision_found (hL : L.Correct) (hfin : d.isFinite = true) :
    ∀ remaining precision, precision + remaining = 18 → precision ≤ 16 →
      ∃ p D X, precision ≤ p ∧ Found L d p D X ∧
        searchPrecision L d remaining precision = some (formatText d.signBit p D X) := by
  have hmag := (Double.isFinite_iff d).mp hfin
  intro remaining
  induction remaining with
  | zero => intro precision h _; omega
  | succ remaining ih =>
    intro precision hsum hle
    obtain ⟨D, X, hshort, hformat⟩ := hL.formatE precision d hfin
    obtain ⟨b, hnear, hread⟩ := strtod_formatText hL d.signBit X hshort.lt
    have hlen := length_formatText_lt d.signBit (by omega) hshort.lt (hshort.natAbs_lt hmag)
    have hb63 : b < 2 ^ 63 := lt_of_le_of_lt hnear.le_infinity infinity_lt
    unfold searchPrecision
    dsimp only
    rw [hformat, if_neg (by omega), hread]
    by_cases heq : (Double.make d.signBit b).eq d = true
    · -- reading back gives a double of the same magnitude
      have hbmag := Double.magnitude_eq_of_eq heq
      rw [Double.magnitude_make hb63] at hbmag
      exact ⟨precision, D, X, le_refl _, ⟨hshort, hbmag ▸ hnear, hle⟩, by rw [if_pos heq]⟩
    · rw [if_neg heq]
      have h16 : precision + 1 ≤ 16 := by
        by_contra h16
        have hp : precision = 16 := by omega
        subst hp
        have hbmag : b = d.magnitude := hnear.unique (hshort.nearest hmag)
        rw [hbmag, Double.make_signBit_magnitude] at heq
        exact heq (Double.eq_self hfin)
      obtain ⟨p, D, X, hp, hfound⟩ := ih (precision + 1) (by omega) h16
      exact ⟨p, D, X, by omega, hfound⟩

/-! ## Taking the text apart -/

theorem stripZeros_spec {digits : Bytes} (h : digits ≠ []) :
    stripZeros digits ≠ [] ∧
      ∃ k, digits = stripZeros digits ++ List.replicate k 0x30 ∧
        ((stripZeros digits).getLast? = some 0x30 → stripZeros digits = [0x30]) := by
  have hsplit : digits = (digits.reverse.dropWhile (· = 0x30)).reverse ++
      (digits.reverse.takeWhile (· = 0x30)).reverse := by
    rw [← List.reverse_append, List.takeWhile_append_dropWhile, List.reverse_reverse]
  have hzeros : (digits.reverse.takeWhile (· = 0x30)).reverse =
      List.replicate (digits.reverse.takeWhile (· = 0x30)).length 0x30 := by
    rw [← List.length_reverse]
    refine List.eq_replicate_of_mem fun c hc => ?_
    simpa using List.mem_takeWhile_imp (List.mem_reverse.mp hc)
  rw [hzeros] at hsplit
  generalize (digits.reverse.takeWhile (· = 0x30)).length = k at hsplit
  have hlast : (digits.reverse.dropWhile (· = 0x30)).reverse.getLast? ≠ some 0x30 := by
    rw [List.getLast?_reverse]
    intro h0
    have := List.head?_dropWhile_not (fun c : UInt8 => decide (c = 0x30)) digits.reverse
    rw [h0] at this
    simp at this
  unfold stripZeros
  generalize (digits.reverse.dropWhile (· = 0x30)).reverse = kept at hsplit hlast
  cases kept with
  | nil =>
    -- nothing but zeros: one of them stays
    obtain ⟨c, rest, rfl⟩ := List.exists_cons_of_ne_nil h
    cases k with
    | zero => cases hsplit
    | succ k =>
      injection hsplit with hc hrest
      rw [hc, hrest]
      exact ⟨by simp, k, rfl, fun _ => rfl⟩
  | cons c kept => exact ⟨by simp, k, hsplit, fun h0 => absurd h0 hlast⟩

/-- A text `[-]mantissa e exponent` falls into those parts. -/
theorem splitScientific_eq (negative : Bool) {mantissa : Bytes} (exponent : Bytes)
    (hhead : mantissa.head? ≠ some 0x2D) (hmark : ∀ c ∈ mantissa, isExponentMark c = false) :
    splitScientific ((if negative then [0x2D] else []) ++ mantissa ++ 0x65 :: exponent) =
      if (mantissa.filter (· ≠ 0x2E)).length > 32 ∨ (mantissa.filter (· ≠ 0x2E)).length = 0 then none
      else some ⟨negative, stripZeros (mantissa.filter (· ≠ 0x2E)), (readInteger exponent).1⟩ := by
  have hrun : (mantissa ++ 0x65 :: exponent).takeWhile (fun c => !isExponentMark c) = mantissa := by
    rw [List.takeWhile_append_of_pos fun c hc => by rw [hmark c hc]; rfl,
      List.takeWhile_cons_of_neg (by decide), List.append_nil]
  have hrest : (mantissa ++ 0x65 :: exponent).dropWhile (fun c => !isExponentMark c) =
      0x65 :: exponent := by
    rw [List.dropWhile_append_of_pos fun c hc => by rw [hmark c hc]; rfl,
      List.dropWhile_cons_of_neg (by decide)]
  have hfirst : (mantissa ++ 0x65 :: exponent).head? ≠ some 0x2D := by
    cases mantissa with
    | nil => show some (0x65 : UInt8) ≠ some 0x2D; decide
    | cons c mantissa => exact hhead
  unfold splitScientific
  cases negative with
  | true =>
    simp only [if_true, List.cons_append, List.nil_append, List.head?_cons, decide_true,
      List.tail_cons, hrun, hrest]
  | false =>
    simp only [Bool.false_eq_true, if_false, List.nil_append, hfirst, decide_false, hrun, hrest,
      List.tail_cons]

theorem isExponentMark_digit : ∀ c : UInt8, isDigit c = true → isExponentMark c = false :=
  forall_byte (by decide +kernel)

theorem ne_minus_of_digit {c : UInt8} (h : isDigit c = true) : c ≠ 0x2D ∧ c ≠ 0x2E := by
  constructor
  · rintro rfl; exact absurd h (by decide)
  · rintro rfl; exact absurd h (by decide)

section Split

variable {negative : Bool} {p D : Nat} {X : Int}

theorem head_mantissa_ne (rest : Bytes) :
    ((padded (p + 1) D).take 1 ++ rest).head? ≠ some 0x2D := by
  obtain ⟨c, digits, h⟩ := List.exists_cons_of_ne_nil (@padded_ne_nil (p + 1) D)
  have hc := ne_minus_of_digit (@digits_padded (p + 1) D c (by rw [h]; exact List.mem_cons_self))
  rw [h]
  show some c ≠ some 0x2D
  exact fun heq => hc.1 (Option.some.inj heq)

theorem splitScientific_formatText (hp : p < 32) (hD : D < 10 ^ (p + 1)) :
    splitScientific (formatText negative p D X) =
      some ⟨negative, stripZeros (padded (p + 1) D), X⟩ := by
  have hlen := length_padded hD
  have hall := @digits_padded (p + 1) D
  set fraction := if p = 0 then [] else (0x2E : UInt8) :: (padded (p + 1) D).drop 1 with hfraction
  have hmem : ∀ c ∈ (padded (p + 1) D).take 1 ++ fraction, isDigit c = true ∨ c = 0x2E := by
    intro c hc
    rcases List.mem_append.mp hc with hc | hc
    · exact Or.inl (hall c (List.mem_of_mem_take hc))
    · rw [hfraction] at hc
      split at hc
      · cases hc
      · exact (List.mem_cons.mp hc).elim Or.inr fun hc => Or.inl (hall c (List.mem_of_mem_drop hc))
  have hdigits : ((padded (p + 1) D).take 1 ++ fraction).filter (· ≠ 0x2E) = padded (p + 1) D := by
    have hkeep : ∀ {s : Bytes}, (∀ c ∈ s, isDigit c = true) → s.filter (· ≠ 0x2E) = s :=
      fun h => List.filter_eq_self.mpr fun c hc => decide_eq_true (ne_minus_of_digit (h c hc)).2
    rw [List.filter_append, hkeep fun c hc => hall c (List.mem_of_mem_take hc), hfraction]
    by_cases hp0 : p = 0
    · subst hp0
      rw [if_pos rfl, List.filter_nil, List.append_nil, List.take_of_length_le hlen.le]
    · rw [if_neg hp0, List.filter_cons_of_neg (by decide),
        hkeep fun c hc => hall c (List.mem_of_mem_drop hc), List.take_append_drop]
  have hsplit := splitScientific_eq negative (exponentText X)
    (@head_mantissa_ne p D fraction) (fun c hc => by
      rcases hmem c hc with hc | rfl
      · exact isExponentMark_digit c hc
      · rfl)
  rw [hdigits, hlen, if_neg (show ¬ (p + 1 > 32 ∨ p + 1 = 0) by omega),
    readInteger_exponentText] at hsplit
  rw [← hsplit]
  unfold formatText
  rw [← hfraction, List.append_assoc (if negative = true then [0x2D] else [])]

end Split

/-! ## The three notations -/

/-- The magnitude of the digits at their exponent. -/
def Scientific.value (s : Scientific) : ℚ :=
  Decimal.value s.digits * (10 : ℚ) ^ (s.kk - s.digits.length)

/-- `n` is a number with a fraction or an exponent that spells `s`. -/
structure Numeral.Spells (n : Numeral) (s : Scientific) : Prop where
  text : n.text = scientificText s
  negative : n.negative = s.negative
  valid : n.Valid
  more : n.fraction ≠ [] ∨ n.exponent ≠ []
  value : n.value = s.value

section Notation

variable {s : Scientific} {digits : Bytes}

theorem Plain.take (h : Decimal.Plain digits) {k : Nat} (hk : 0 < k) : Decimal.Plain (digits.take k) := by
  obtain ⟨c, rest, rfl⟩ := List.exists_cons_of_ne_nil h.ne_nil
  obtain ⟨k, rfl⟩ := Nat.exists_eq_succ_of_ne_zero hk.ne'
  refine ⟨by simp, fun c hc => h.digits c (List.mem_of_mem_take hc), fun hzero => ?_⟩
  have := h.no_lead hzero
  injection this with hc hrest
  rw [hc, hrest, List.take_succ_cons, List.take_nil]

theorem Plain.append_zeros (h : Decimal.Plain digits) (hlead : digits ≠ [0x30]) (k : Nat) :
    Decimal.Plain (digits ++ List.replicate k 0x30) := by
  obtain ⟨c, rest, rfl⟩ := List.exists_cons_of_ne_nil h.ne_nil
  refine ⟨by simp, fun c hc => ?_, fun hzero => absurd (h.no_lead hzero) hlead⟩
  rcases List.mem_append.mp hc with hc | hc
  · exact h.digits c hc
  · rw [List.eq_of_mem_replicate hc]; exact isDigit_zero

theorem isDigit_replicate {k : Nat} : ∀ c ∈ List.replicate k (0x30 : UInt8), isDigit c = true :=
  fun c hc => by rw [List.eq_of_mem_replicate hc]; exact isDigit_zero

theorem plain_zero : Decimal.Plain [0x30] := plain_digit isDigit_zero

theorem readInteger_printSigned (e : Int) : (readInteger (printSigned e)).1 = e := by
  have hrun : ∀ n : Nat, (encode n).takeWhile isDigit = encode n :=
    fun n => List.takeWhile_eq_self_iff.mpr (encode_plain n).digits
  unfold readInteger printSigned printInt
  by_cases he : e < 0
  · simp only [if_pos he, List.head?_cons, decide_true, Bool.true_or, if_true, List.tail_cons, hrun,
      value_encode]
    omega
  · simp only [if_neg he, List.head?_cons, List.tail_cons]
    rw [if_neg (by decide), if_pos (by decide), hrun, value_encode]
    omega

theorem exponent_printSigned (e : Int) : Exponent (0x65 :: printSigned e) := by
  have hdigits : Digits (encode e.natAbs) :=
    ⟨(encode_plain _).ne_nil, (encode_plain _).digits⟩
  unfold printSigned printInt
  by_cases he : e < 0
  · rw [if_pos he, if_pos he]
    exact Or.inr ⟨0x65, [0x2D], _, Or.inl rfl, Or.inr (Or.inr rfl), hdigits, rfl⟩
  · rw [if_neg he, if_neg he]
    exact Or.inr ⟨0x65, [0x2B], _, Or.inl rfl, Or.inr (Or.inl rfl), hdigits, rfl⟩

/-- The point stands behind the digits: `ddd00.0`. -/
theorem spells_integral (h : Decimal.Plain s.digits) (hzero : s.digits = [0x30] → s.kk = 1)
    (hdec : 0 < s.kk ∧ s.kk ≤ 16) (hlen : s.digits.length ≤ s.kk.toNat) :
    Numeral.Spells ⟨s.negative, s.digits ++ List.replicate (s.kk.toNat - s.digits.length) 0x30,
      ascii ".0", []⟩ s := by
  have hplain : Decimal.Plain (s.digits ++ List.replicate (s.kk.toNat - s.digits.length) 0x30) := by
    by_cases h0 : s.digits = [0x30]
    · rw [h0, hzero h0]
      exact plain_zero
    · exact Plain.append_zeros h h0 _
  refine ⟨?_, rfl, ⟨hplain, Or.inr ⟨[0x30], ⟨by simp, by decide +kernel⟩, rfl⟩, Or.inl rfl⟩,
    Or.inl (show ascii ".0" ≠ [] by decide), ?_⟩
  · unfold Numeral.text scientificText digitsText
    rw [if_pos hdec, if_pos hlen]
    simp only [List.append_assoc, List.append_nil]
  · unfold Numeral.value Scientific.value
    rw [show (ascii ".0").tail = [0x30] by decide, value_append, value_append,
      value_zeros, List.length_replicate, show value [0x30] = 0 by decide]
    show ((value s.digits * 10 ^ (s.kk.toNat - s.digits.length) + 0) * 10 ^ 1 + 0 : ℕ) *
      (10 : ℚ) ^ ((0 : ℤ) - 1) = _
    have hexp : s.kk - s.digits.length = ((s.kk.toNat - s.digits.length : ℕ) : ℤ) := by omega
    rw [hexp, zpow_natCast, zero_sub, zpow_neg_one]
    push_cast
    ring

/-- The point stands among the digits: `d.ddd`. -/
theorem spells_mixed (h : Decimal.Plain s.digits) (hdec : 0 < s.kk ∧ s.kk ≤ 16)
    (hlen : ¬ s.digits.length ≤ s.kk.toNat) :
    Numeral.Spells ⟨s.negative, s.digits.take s.kk.toNat, 0x2E :: s.digits.drop s.kk.toNat, []⟩ s := by
  have hplain := Plain.take h (k := s.kk.toNat) (by omega)
  refine ⟨?_, rfl, ⟨hplain, Or.inr ⟨_, ⟨?_, ?_⟩, rfl⟩, Or.inl rfl⟩, Or.inl (by simp), ?_⟩
  · unfold Numeral.text scientificText digitsText
    rw [if_pos hdec, if_neg hlen]
    simp only [List.append_assoc, List.append_nil]
  · intro hnil
    have := congrArg List.length hnil
    rw [List.length_drop, List.length_nil] at this
    omega
  · exact fun c hc => h.digits c (List.mem_of_mem_drop hc)
  · unfold Numeral.value Scientific.value
    rw [List.tail_cons, List.take_append_drop, List.length_drop]
    show (value s.digits : ℚ) * (10 : ℚ) ^ ((0 : ℤ) - _) = _
    congr 2
    omega

/-- The digits stand behind the point: `0.00ddd`. -/
theorem spells_small (h : Decimal.Plain s.digits) (hdec : ¬ (0 < s.kk ∧ s.kk ≤ 16))
    (hsmall : -5 < s.kk ∧ s.kk ≤ 0) :
    Numeral.Spells ⟨s.negative, [0x30], 0x2E :: (List.replicate (-s.kk).toNat 0x30 ++ s.digits), []⟩
      s := by
  refine ⟨?_, rfl, ⟨plain_zero, Or.inr ⟨_, ⟨?_, ?_⟩, rfl⟩, Or.inl rfl⟩, Or.inl (by simp), ?_⟩
  · unfold Numeral.text scientificText digitsText
    rw [if_neg hdec, if_pos hsmall]
    simp only [List.append_assoc, List.append_nil]
    rfl
  · intro hnil
    exact h.ne_nil (List.append_eq_nil_iff.mp hnil).2
  · intro c hc
    exact (List.mem_append.mp hc).elim (isDigit_replicate c) (h.digits c)
  · unfold Numeral.value Scientific.value
    rw [List.tail_cons, value_append, value_append, value_zeros,
      show value [0x30] = 0 by decide, List.length_append, List.length_replicate]
    show ((0 * _ + (0 * _ + value s.digits) : ℕ) : ℚ) * (10 : ℚ) ^ ((0 : ℤ) - _) = _
    rw [zero_mul, zero_mul, zero_add, zero_add]
    congr 2
    push_cast
    omega

/-- Exponential notation: `d[.ddd]e±x`. -/
theorem spells_exponential (h : Decimal.Plain s.digits) (hdec : ¬ (0 < s.kk ∧ s.kk ≤ 16))
    (hsmall : ¬ (-5 < s.kk ∧ s.kk ≤ 0)) :
    Numeral.Spells ⟨s.negative, s.digits.take 1,
      if 1 < s.digits.length then 0x2E :: s.digits.drop 1 else [], 0x65 :: printSigned (s.kk - 1)⟩
      s := by
  have hplain := Plain.take h (k := 1) (by decide)
  have hpos := List.length_pos_of_ne_nil h.ne_nil
  refine ⟨?_, rfl, ⟨hplain, ?_, exponent_printSigned _⟩, Or.inr (by simp), ?_⟩
  · unfold Numeral.text scientificText digitsText
    rw [if_neg hdec, if_neg hsmall]
    simp only [List.append_assoc]
  · show Fraction (if 1 < s.digits.length then 0x2E :: s.digits.drop 1 else [])
    by_cases hlen : 1 < s.digits.length
    · rw [if_pos hlen]
      refine Or.inr ⟨_, ⟨?_, fun c hc => h.digits c (List.mem_of_mem_drop hc)⟩, rfl⟩
      intro hnil
      have := congrArg List.length hnil
      rw [List.length_drop, List.length_nil] at this
      omega
    · rw [if_neg hlen]; exact Or.inl rfl
  · unfold Numeral.value Scientific.value
    rw [List.tail_cons, readInteger_printSigned]
    by_cases hlen : 1 < s.digits.length
    · rw [if_pos hlen, List.tail_cons, List.take_append_drop, List.length_drop]
      congr 2
      omega
    · rw [if_neg hlen, List.tail_nil, List.append_nil, List.take_of_length_le (by omega),
        List.length_nil]
      congr 2
      omega

/-- **The notations agree** on the value. -/
theorem exists_spells (h : Decimal.Plain s.digits) (hzero : s.digits = [0x30] → s.kk = 1) :
    ∃ n, Numeral.Spells n s := by
  by_cases hdec : 0 < s.kk ∧ s.kk ≤ 16
  · by_cases hlen : s.digits.length ≤ s.kk.toNat
    · exact ⟨_, spells_integral h hzero hdec hlen⟩
    · exact ⟨_, spells_mixed h hdec hlen⟩
  · by_cases hsmall : -5 < s.kk ∧ s.kk ≤ 0
    · exact ⟨_, spells_small h hdec hsmall⟩
    · exact ⟨_, spells_exponential h hdec hsmall⟩

end Notation

theorem consumesNumbers (hL : L.Correct) : ConsumesNumbers L := by
  intro t ht
  obtain ⟨n, hn, rfl⟩ := ht.numeral
  obtain ⟨b, -, hread⟩ := hL.strtod n [] hn nofun
  rw [List.append_nil] at hread
  rw [hread]

/-! ## What is written is read back -/

/-- The digits of a value are written without a leading zero, except for zero itself. -/
theorem plain_digits {p D : Nat} (hD : D = 0 ∨ 10 ^ p ≤ D) (hlt : D < 10 ^ (p + 1)) :
    Decimal.Plain (stripZeros (padded (p + 1) D)) ∧
      (stripZeros (padded (p + 1) D) = [0x30] → D = 0) := by
  obtain ⟨hne, k, hsplit, hlast⟩ := stripZeros_spec (@padded_ne_nil (p + 1) D)
  have hlen := length_padded hlt
  have hall := @digits_padded (p + 1) D
  have hvalue := @value_padded (p + 1) D
  generalize padded (p + 1) D = digits at hsplit hlen hall hvalue hne hlast ⊢
  generalize stripZeros digits = kept at hsplit hne hlast ⊢
  subst hsplit
  have hkept : ∀ c ∈ kept, Decimal.isDigit c = true := fun c hc => hall c (List.mem_append_left _ hc)
  obtain ⟨c, rest, rfl⟩ := List.exists_cons_of_ne_nil hne
  -- a leading zero leaves too few digits for anything but zero
  have hlead : c = 0x30 → D = 0 := by
    rintro rfl
    have hrest : Decimal.value (rest ++ List.replicate k 0x30) <
        10 ^ (rest ++ List.replicate k 0x30).length :=
      Decimal.value_lt fun x hx => hall x (List.mem_cons_of_mem _ hx)
    rw [List.cons_append, List.length_cons] at hlen
    rw [show Decimal.value ((0x30 :: rest) ++ List.replicate k 0x30) =
      Decimal.value (rest ++ List.replicate k 0x30) from rfl] at hvalue
    have hp : (rest ++ List.replicate k (0x30 : UInt8)).length = p := Nat.succ.inj hlen
    rw [hvalue, hp] at hrest
    omega
  refine ⟨⟨hne, hkept, fun hzero => ?_⟩, fun h => hlead (by injection h)⟩
  have hD0 := hlead (by injection hzero)
  refine hlast ?_
  -- zero has no digit but zero, in particular not the last
  rw [Decimal.value_append, Decimal.value_zeros, List.length_replicate, hD0, add_zero,
    Nat.mul_eq_zero] at hvalue
  have hzero' : Decimal.value (c :: rest) = 0 := hvalue.resolve_right (by positivity)
  rcases List.eq_nil_or_concat (c :: rest) with hnil | ⟨init, x, hconcat⟩
  · cases hnil
  · rw [List.concat_eq_append] at hconcat
    rw [hconcat] at hzero' hkept ⊢
    rw [Decimal.value_append] at hzero'
    have hx : Decimal.digitValue x = 0 := by
      have : Decimal.value [x] = Decimal.digitValue x := by simp [Decimal.value]
      omega
    have := Decimal.digitByte_digitValue (hkept x (by simp))
    rw [hx] at this
    rw [List.getLast?_concat, ← this]
    rfl

/-- Trailing zeros do not change the value. -/
theorem value_stripped {negative : Bool} {p D : Nat} {X : Int} (hlt : D < 10 ^ (p + 1)) :
    (Scientific.mk negative (stripZeros (padded (p + 1) D)) X).value = D * (10 : ℚ) ^ (X - p) := by
  obtain ⟨-, k, hsplit, -⟩ := stripZeros_spec (@padded_ne_nil (p + 1) D)
  have hlen := length_padded hlt
  have hvalue := @value_padded (p + 1) D
  unfold Scientific.value Scientific.kk
  dsimp only
  generalize padded (p + 1) D = digits at hsplit hlen hvalue ⊢
  generalize stripZeros digits = kept at hsplit ⊢
  subst hsplit
  rw [List.length_append, List.length_replicate] at hlen
  rw [value_append, value_zeros, List.length_replicate, add_zero] at hvalue
  rw [← hvalue, Nat.cast_mul, Nat.cast_pow, Nat.cast_ofNat, mul_assoc, ← zpow_natCast,
    ← zpow_add₀ (by norm_num)]
  congr 2
  omega

/-- The text of a finite double is a number that spells the digits the search ended with. -/
theorem exists_doubleNumeral (hL : L.Correct) (hfin : d.isFinite = true) :
    ∃ (p D : Nat) (X : Int) (n : Numeral), Found L d p D X ∧
      searchPrecision L d 18 0 = some (formatText d.signBit p D X) ∧
      n.Spells ⟨d.signBit, stripZeros (padded (p + 1) D), X⟩ ∧ n.text = doubleText L d ∧
      n.value = D * (10 : ℚ) ^ (X - p) := by
  obtain ⟨p, D, X, -, hfound, hsearch⟩ := searchPrecision_found hL hfin 18 0 rfl (by decide)
  have hlt := hfound.shortened.lt
  have hple := hfound.le
  have hD : D = 0 ∨ 10 ^ p ≤ D := by
    by_cases h0 : Binary64.value d.magnitude = 0
    · exact Or.inl (hfound.shortened.zero h0).1
    · exact Or.inr (hfound.shortened.lead h0)
  obtain ⟨hplain, hzero⟩ := plain_digits hD hlt
  have hX : D = 0 → X = 0 := by
    intro h0
    by_contra hne
    have hvalue : Binary64.value d.magnitude ≠ 0 := fun h => hne (hfound.shortened.zero h).2
    have := hfound.shortened.lead hvalue
    have : 0 < 10 ^ p := by positivity
    omega
  set s : Scientific := ⟨d.signBit, stripZeros (padded (p + 1) D), X⟩ with hs
  have htext : doubleText L d = scientificText s := by
    unfold doubleText
    rw [if_neg (by simpa using hfin), hsearch, Option.bind_some,
      splitScientific_formatText (by omega) hlt]
  obtain ⟨n, hn⟩ := exists_spells (s := s) hplain (fun h => by rw [hs, Scientific.kk, hX (hzero h)]; rfl)
  exact ⟨p, D, X, n, hfound, hsearch, hn, hn.text.trans htext.symm,
    hn.value.trans (value_stripped hlt)⟩

/-- **Reading back.** -/
theorem recoverable_double (hL : L.Correct) (hfin : d.isFinite = true) :
    Recoverable L (.double d) := by
  obtain ⟨p, D, X, n, hfound, -, hn, htext, hvalue⟩ := exists_doubleNumeral hL hfin
  obtain ⟨b, hb, hread⟩ := hL.strtod n [] hn.valid nofun
  rw [hvalue] at hb
  obtain rfl : b = d.magnitude := hb.unique hfound.nearest
  rw [List.append_nil, htext, hn.negative] at hread
  show NumberToken (doubleText L d) ∧ literalInt (doubleText L d) = none ∧
    (L.strtod (doubleText L d)).1 = d
  refine ⟨htext ▸ hn.valid.numberToken, htext ▸ hn.valid.literalInt_text hn.more, ?_⟩
  rw [hread]
  exact Double.make_signBit_magnitude d

end Json

end Tamga
