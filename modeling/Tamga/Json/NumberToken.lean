import Tamga.Json.Grammar

/-!
# `Json.NumberToken` — number tokens, scanner against grammar

The four parts of a token (sign, integer, fraction, exponent) are scanned one after the other, each
as far as it goes; a token of the grammar is found whole when nothing after it could continue it
(`NumberEnds`). `readNumber_some` then says what the token means.
-/

namespace Tamga

open Decimal

namespace Json

/-! ## Scanning -/

/-- What follows a number token: nothing the token could go on with. -/
def NumberEnds (rest : Bytes) : Prop :=
  Decimal.isDigit (peek rest) = false ∧ peek rest ≠ 0x2E ∧ peek rest ≠ 0x65 ∧ peek rest ≠ 0x45

@[simp] theorem peek_cons (c : UInt8) (s : Bytes) : peek (c :: s) = c := rfl

theorem eq_cons_of_peek {s : Bytes} {c : UInt8} (h : peek s = c) (hc : c ≠ 0) :
    s = c :: s.tail := by
  cases s with
  | nil => exact absurd h.symm hc
  | cons d s => rw [← h]; rfl

theorem digitRun_append {digits rest : Bytes} (hd : ∀ c ∈ digits, isDigit c = true)
    (hrest : isDigit (peek rest) = false) : digitRun (digits ++ rest) = (digits, rest) := by
  have hstop : rest.takeWhile isDigit = [] ∧ rest.dropWhile isDigit = rest := by
    cases rest with
    | nil => exact ⟨rfl, rfl⟩
    | cons c rest => rw [peek_cons] at hrest; simp [hrest]
  unfold digitRun
  rw [List.takeWhile_append_of_pos hd, List.dropWhile_append_of_pos hd, hstop.1, hstop.2,
    List.append_nil]

theorem digitRun_sound {s : Bytes} (h : isDigit (peek s) = true) :
    Digits (digitRun s).1 ∧ s = (digitRun s).1 ++ (digitRun s).2 := by
  refine ⟨⟨?_, fun c hc => List.mem_takeWhile_imp hc⟩, List.takeWhile_append_dropWhile.symm⟩
  cases s with
  | nil => simp [peek, isDigit] at h
  | cons c s => rw [peek_cons] at h; simp [digitRun, h]

theorem Digits.peek_append {digits rest : Bytes} (h : Digits digits) :
    isDigit (peek (digits ++ rest)) = true := by
  obtain ⟨c, t, rfl⟩ := List.exists_cons_of_ne_nil h.1
  exact h.2 c List.mem_cons_self

theorem scanMinus_sound {s : Bytes} :
    ((scanMinus s).1 = [] ∨ (scanMinus s).1 = [0x2D]) ∧ s = (scanMinus s).1 ++ (scanMinus s).2 := by
  unfold scanMinus
  split
  · rename_i h
    exact ⟨Or.inr rfl, eq_cons_of_peek h (by decide)⟩
  · exact ⟨Or.inl rfl, rfl⟩

theorem scanInteger_sound {s integer rest : Bytes} (h : scanInteger s = .ok (integer, rest)) :
    Decimal.Plain integer ∧ s = integer ++ rest := by
  unfold scanInteger at h
  split at h
  · rename_i h0
    injection h with h; injection h with hi hr; subst hi hr
    exact ⟨⟨by simp, by decide +kernel, fun _ => rfl⟩, eq_cons_of_peek h0 (by decide)⟩
  · split at h
    · rename_i h0 h1
      injection h with h
      have hdigit : isDigit (peek s) = true := by
        rw [isDigit_iff]
        have := UInt8.le_iff_toNat_le.mp h1.1
        have := UInt8.le_iff_toNat_le.mp h1.2
        simp at *; omega
      obtain ⟨hdigits, hs⟩ := digitRun_sound hdigit
      rw [h] at hdigits hs
      refine ⟨⟨hdigits.1, hdigits.2, fun hlead => absurd ?_ h0⟩, hs⟩
      obtain ⟨c, t, rfl⟩ := List.exists_cons_of_ne_nil hdigits.1
      rw [hs]
      simpa using hlead
    · cases h

theorem scanInteger_complete {integer rest : Bytes} (hi : Decimal.Plain integer)
    (hrest : isDigit (peek rest) = false) :
    scanInteger (integer ++ rest) = .ok (integer, rest) := by
  obtain ⟨c, t, rfl⟩ := List.exists_cons_of_ne_nil hi.ne_nil
  unfold scanInteger
  by_cases hc : c = 0x30
  · -- a leading zero is the whole integer part
    have := hi.no_lead (by rw [hc]; rfl)
    injection this with hc' ht
    subst hc ht
    simp
  · have hdigit := isDigit_iff.1 (hi.digits c List.mem_cons_self)
    have hne : c.toNat ≠ 48 := fun e => hc (UInt8.toNat_inj.mp e)
    rw [if_neg (by simpa using hc), if_pos, digitRun_append hi.digits hrest]
    simp only [List.cons_append, peek_cons, UInt8.le_iff_toNat_le]
    simp; omega

theorem scanFraction_sound {s fraction rest : Bytes} (h : scanFraction s = .ok (fraction, rest)) :
    Fraction fraction ∧ s = fraction ++ rest := by
  unfold scanFraction at h
  split at h
  · rename_i hdot
    split at h
    · rename_i hdigit
      injection h with h; injection h with hf hr; subst hf hr
      obtain ⟨hdigits, hs⟩ := digitRun_sound hdigit
      refine ⟨Or.inr ⟨_, hdigits, rfl⟩, ?_⟩
      rw [List.cons_append, ← hs]
      exact eq_cons_of_peek hdot (by decide)
    · cases h
  · injection h with h; injection h with hf hr; subst hf hr
    exact ⟨Or.inl rfl, rfl⟩

theorem scanFraction_complete {fraction rest : Bytes} (hf : Fraction fraction)
    (hdigit : isDigit (peek rest) = false) (hdot : peek rest ≠ 0x2E) :
    scanFraction (fraction ++ rest) = .ok (fraction, rest) := by
  unfold scanFraction
  rcases hf with rfl | ⟨digits, hdigits, rfl⟩
  · rw [List.nil_append, if_neg hdot]
  · rw [List.cons_append, peek_cons, if_pos rfl, List.tail_cons, if_pos hdigits.peek_append,
      digitRun_append hdigits.2 hdigit]

theorem scanExponent_sound {s exponent rest : Bytes} (h : scanExponent s = .ok (exponent, rest)) :
    Exponent exponent ∧ s = exponent ++ rest := by
  unfold scanExponent at h
  split at h
  · rename_i he
    have hs0 : s = peek s :: s.tail := eq_cons_of_peek rfl (by rcases he with h | h <;> rw [h] <;> decide)
    have hsign : ((scanSign s.tail).1 = [] ∨ (scanSign s.tail).1 = [0x2B] ∨
        (scanSign s.tail).1 = [0x2D]) ∧ s.tail = (scanSign s.tail).1 ++ (scanSign s.tail).2 := by
      unfold scanSign
      split
      · rename_i hp
        refine ⟨Or.inr (by simpa using hp), eq_cons_of_peek rfl ?_⟩
        rcases hp with h | h <;> rw [h] <;> decide
      · exact ⟨Or.inl rfl, rfl⟩
    dsimp only at h
    split at h
    · rename_i hdigit
      injection h with h; injection h with hx hr; subst hx hr
      obtain ⟨hdigits, hs⟩ := digitRun_sound hdigit
      refine ⟨Or.inr ⟨_, _, _, he, hsign.1, hdigits, rfl⟩, ?_⟩
      rw [List.cons_append, List.cons_append, List.append_assoc, ← hs, ← hsign.2]
      exact hs0
    · cases h
  · injection h with h; injection h with hx hr; subst hx hr
    exact ⟨Or.inl rfl, rfl⟩

theorem scanExponent_complete {exponent rest : Bytes} (hx : Exponent exponent)
    (hrest : NumberEnds rest) : scanExponent (exponent ++ rest) = .ok (exponent, rest) := by
  unfold scanExponent
  rcases hx with rfl | ⟨e, sign, digits, he, hsign, hdigits, rfl⟩
  · rw [List.nil_append, if_neg (by rintro (h | h); exacts [hrest.2.2.1 h, hrest.2.2.2 h])]
  · have hscan : scanSign (sign ++ (digits ++ rest)) = (sign, digits ++ rest) := by
      unfold scanSign
      rcases hsign with rfl | rfl | rfl
      · have hd := isDigit_iff.1 (@Digits.peek_append digits rest hdigits)
        rw [List.nil_append, if_neg]
        rintro (h | h) <;> rw [h] at hd <;> simp at hd
      · rfl
      · rfl
    simp only [List.cons_append, peek_cons, List.append_assoc, List.tail_cons, hscan]
    rw [if_pos he, if_pos hdigits.peek_append, digitRun_append hdigits.2 hrest.1]

/-! ## Meaning -/

/-- A byte that is no digit after the integer part: the token does not spell an integer. -/
theorem literalInt_eq_none {minus integer tail : Bytes} (hminus : minus = [] ∨ minus = [0x2D])
    (hinteger : Decimal.Plain integer) (htail : ∃ c ∈ tail, isDigit c = false) :
    literalInt (minus ++ integer ++ tail) = none := by
  obtain ⟨c, hc, hdigit⟩ := htail
  have hall : (integer ++ tail).all isDigit = false := by
    rw [List.all_eq_false]
    exact ⟨c, List.mem_append_right _ hc, by simp [hdigit]⟩
  unfold literalInt
  rcases hminus with rfl | rfl
  · rw [List.nil_append]
    split
    · rename_i digits hd
      have hmem := hinteger.digits
      obtain ⟨d, t, rfl⟩ := List.exists_cons_of_ne_nil hinteger.ne_nil
      injection hd with hd
      have := hmem d List.mem_cons_self
      rw [hd] at this
      exact absurd this (by decide)
    · rw [if_neg (by simp [hall])]
  · show (if (integer ++ tail).all isDigit = true then _ else _) = _
    rw [if_neg (by simp [hall])]

/-- No fraction and no exponent. -/
def IntegerToken (token : Bytes) : Prop :=
  ∃ minus integer, (minus = [] ∨ minus = [0x2D]) ∧ Decimal.Plain integer ∧ token = minus ++ integer

/-- The token a scan returns, with its kind: `isInteger` says that `literalInt` reads it. -/
theorem scanNumber_sound {s : Bytes} {n : Scanned} (h : scanNumber s = .ok n) :
    NumberToken n.token ∧ s = n.token ++ n.rest ∧
      (n.isInteger = true ∧ IntegerToken n.token ∨
        n.isInteger = false ∧ literalInt n.token = none) := by
  unfold scanNumber at h
  obtain ⟨hminus, hs⟩ := scanMinus_sound (s := s)
  generalize scanMinus s = minus at h hminus hs
  obtain ⟨minus, s0⟩ := minus
  obtain ⟨⟨integer, s1⟩, h1, h⟩ := Except.bind_eq_ok_iff.1 h
  obtain ⟨⟨fraction, s2⟩, h2, h⟩ := Except.bind_eq_ok_iff.1 h
  obtain ⟨⟨exponent, s3⟩, h3, h⟩ := Except.bind_eq_ok_iff.1 h
  injection h with h
  subst h
  obtain ⟨hinteger, hs1⟩ := scanInteger_sound h1
  obtain ⟨hfraction, hs2⟩ := scanFraction_sound h2
  obtain ⟨hexponent, hs3⟩ := scanExponent_sound h3
  refine ⟨.mk hminus hinteger hfraction hexponent, ?_, ?_⟩
  · dsimp only
    rw [List.append_assoc, List.append_assoc, List.append_assoc, ← hs3, ← hs2, ← hs1]
    exact hs
  · dsimp only
    cases hx : (fraction.isEmpty && exponent.isEmpty) with
    | true =>
      rw [Bool.and_eq_true, List.isEmpty_iff, List.isEmpty_iff] at hx
      obtain ⟨rfl, rfl⟩ := hx
      exact Or.inl ⟨rfl, _, _, hminus, hinteger, by simp⟩
    | false =>
      refine Or.inr ⟨rfl, ?_⟩
      rw [List.append_assoc (minus ++ integer)]
      refine literalInt_eq_none hminus hinteger ?_
      -- the part that is there starts with a dot or an `e`
      rcases hfraction with rfl | ⟨digits, -, rfl⟩
      · rcases hexponent with rfl | ⟨e, sign, digits, he, -, -, rfl⟩
        · simp at hx
        · exact ⟨e, by simp, by rcases he with rfl | rfl <;> decide⟩
      · exact ⟨0x2E, by simp, by decide⟩

/-- Each part of a number is scanned to its end: what follows it does not continue it. -/
theorem scan_parts {minus integer fraction exponent rest : Bytes} (hminus : minus = [] ∨ minus = [0x2D])
    (hinteger : Decimal.Plain integer) (hfraction : Fraction fraction) (hexponent : Exponent exponent)
    (hrest : NumberEnds rest) :
    scanMinus (minus ++ (integer ++ (fraction ++ (exponent ++ rest)))) =
        (minus, integer ++ (fraction ++ (exponent ++ rest))) ∧
      scanInteger (integer ++ (fraction ++ (exponent ++ rest))) =
        .ok (integer, fraction ++ (exponent ++ rest)) ∧
      scanFraction (fraction ++ (exponent ++ rest)) = .ok (fraction, exponent ++ rest) ∧
      scanExponent (exponent ++ rest) = .ok (exponent, rest) := by
  have hexp : isDigit (peek (exponent ++ rest)) = false ∧
      peek (exponent ++ rest) ≠ 0x2E := by
    rcases hexponent with rfl | ⟨e, sign, digits, he, -, -, rfl⟩
    · exact ⟨hrest.1, hrest.2.1⟩
    · rcases he with rfl | rfl <;> simp [isDigit]
  have hfrac : isDigit (peek (fraction ++ (exponent ++ rest))) = false := by
    rcases hfraction with rfl | ⟨digits, -, rfl⟩
    · exact hexp.1
    · rfl
  refine ⟨?_, scanInteger_complete hinteger hfrac, scanFraction_complete hfraction hexp.1 hexp.2,
    scanExponent_complete hexponent hrest⟩
  unfold scanMinus
  rcases hminus with rfl | rfl
  · obtain ⟨c, t, rfl⟩ := List.exists_cons_of_ne_nil hinteger.ne_nil
    have := isDigit_iff.1 (hinteger.digits c List.mem_cons_self)
    rw [List.nil_append, if_neg]
    rintro h
    rw [List.cons_append, peek_cons] at h
    rw [h] at this
    simp at this
  · rfl

theorem scanNumber_complete {token rest : Bytes} (ht : NumberToken token)
    (hrest : NumberEnds rest) :
    ∃ isInteger, scanNumber (token ++ rest) = .ok ⟨token, isInteger, rest⟩ := by
  obtain @⟨minus, integer, fraction, exponent, hminus, hinteger, hfraction, hexponent⟩ := ht
  obtain ⟨h1, h2, h3, h4⟩ := scan_parts hminus hinteger hfraction hexponent hrest
  refine ⟨fraction.isEmpty && exponent.isEmpty, ?_⟩
  unfold scanNumber
  simp only [List.append_assoc, h1, h2, h3, h4, Except.ok_bind]
  rfl

/-- `strtoll` on an integer token: the literal, and the whole token consumed. -/
theorem readInteger_eq {token : Bytes} (h : IntegerToken token) :
    ∃ n, literalInt token = some n ∧ readInteger token = (n, token.length) := by
  obtain ⟨minus, integer, hminus, hinteger, rfl⟩ := h
  have hall : integer.all isDigit = true := List.all_eq_true.mpr hinteger.digits
  have htake : integer.takeWhile isDigit = integer :=
    List.takeWhile_eq_self_iff.mpr hinteger.digits
  have hne : integer.isEmpty = false := by
    cases integer with
    | nil => exact absurd rfl hinteger.ne_nil
    | cons c t => rfl
  rcases hminus with rfl | rfl
  · obtain ⟨c, t, rfl⟩ := List.exists_cons_of_ne_nil hinteger.ne_nil
    have hc := isDigit_iff.1 (hinteger.digits c List.mem_cons_self)
    have hminus : c ≠ 0x2D := by rintro rfl; simp at hc
    have hplus : c ≠ 0x2B := by rintro rfl; simp at hc
    refine ⟨value (c :: t), ?_, ?_⟩
    · unfold literalInt
      split
      · rename_i digits hd
        injection hd with hd
        exact absurd hd hminus
      · rw [List.nil_append, if_pos hall]
    · unfold readInteger
      simp only [List.nil_append, List.head?_cons, Option.some.injEq, hminus, hplus, decide_false,
        Bool.or_self, Bool.false_eq_true, if_false, htake, hne, Nat.add_zero]
  · refine ⟨-(value integer : Int), ?_, ?_⟩
    · show (if integer.all isDigit = true then _ else _) = _
      rw [if_pos hall]; rfl
    · unfold readInteger
      simp only [List.singleton_append, List.head?_cons, List.tail_cons, decide_true, Bool.true_or,
        if_true, htake, hne, List.length_cons]
      rfl

theorem strtoll_eq {token : Bytes} (h : IntegerToken token) :
    ∃ n, literalInt token = some n ∧
      strtoll token = if fitsInt64 n then some (Int64.ofInt n, token.length) else none := by
  obtain ⟨n, hn, hread⟩ := readInteger_eq h
  refine ⟨n, hn, ?_⟩
  have hmin : Int64.minValue.toInt = -2 ^ 63 := by decide
  have hmax : Int64.maxValue.toInt = 2 ^ 63 - 1 := by decide
  unfold strtoll fitsInt64
  rw [hread]
  simp only [hmin, hmax, Int.le_sub_one_iff]
  rfl

section ReadNumber

variable {L : Libc} {token : Bytes} {isInteger : Bool}

theorem readNumber_integer (h : IntegerToken token) :
    (∃ n, literalInt token = some n ∧ fitsInt64 n ∧
      readNumber L token true = some (.int (Int64.ofInt n))) ∨
    (∀ n, literalInt token = some n → ¬ fitsInt64 n) ∧
      readNumber L token true =
        if (L.strtod token).2 ≠ token.length then none else some (.double (L.strtod token).1) := by
  obtain ⟨n, hn, hs⟩ := strtoll_eq h
  unfold readNumber
  by_cases hfit : fitsInt64 n
  · left
    rw [if_pos hfit] at hs
    exact ⟨n, hn, hfit, by simp [hs]⟩
  · right
    rw [if_neg hfit] at hs
    refine ⟨fun m hm => ?_, by simp [hs]⟩
    rw [hn] at hm
    injection hm with hm
    rw [← hm]; exact hfit

theorem readNumber_some {v : Json}
    (hkind : isInteger = true ∧ IntegerToken token ∨ isInteger = false ∧ literalInt token = none)
    (h : readNumber L token isInteger = some v) : v = numberValue L token := by
  unfold numberValue
  rcases hkind with ⟨rfl, hint⟩ | ⟨rfl, hnone⟩
  · rcases readNumber_integer hint with ⟨n, hn, hfit, hr⟩ | ⟨hfit, hr⟩
    · rw [hr] at h; injection h with h
      simp only [hn, if_pos hfit, h]
    · obtain ⟨n, hn, -⟩ := strtoll_eq hint
      rw [hr] at h
      split at h
      · cases h
      · injection h with h
        simp only [hn, if_neg (hfit n hn), h]
  · unfold readNumber at h
    simp only [Bool.false_eq_true, if_false] at h
    split at h
    · cases h
    · injection h with h
      simp only [hnone, h]

/-- The token is an `int64_t`, or `strtod` read it to its end. -/
def TokenRead (L : Libc) (token : Bytes) : Prop :=
  (∃ n, literalInt token = some n ∧ fitsInt64 n) ∨ (L.strtod token).2 = token.length

theorem tokenRead_of_some {v : Json}
    (hkind : isInteger = true ∧ IntegerToken token ∨ isInteger = false ∧ literalInt token = none)
    (h : readNumber L token isInteger = some v) : TokenRead L token := by
  rcases hkind with ⟨rfl, hint⟩ | ⟨rfl, -⟩
  · rcases @readNumber_integer L token hint with ⟨n, hn, hfit, -⟩ | ⟨-, hr⟩
    · exact Or.inl ⟨n, hn, hfit⟩
    · rw [hr] at h
      split at h
      · cases h
      · rename_i hused
        exact Or.inr (not_not.mp hused)
  · unfold readNumber at h
    simp only [Bool.false_eq_true, if_false] at h
    split at h
    · cases h
    · rename_i hused
      exact Or.inr (not_not.mp hused)

theorem readNumber_isSome (hread : TokenRead L token)
    (hkind : isInteger = true ∧ IntegerToken token ∨ isInteger = false ∧ literalInt token = none) :
    ∃ v, readNumber L token isInteger = some v := by
  rcases hkind with ⟨rfl, hint⟩ | ⟨rfl, hnone⟩
  · rcases @readNumber_integer L token hint with ⟨n, -, -, hr⟩ | ⟨hfit, hr⟩
    · exact ⟨_, hr⟩
    · rcases hread with ⟨n, hn, hfits⟩ | hused
      · exact absurd hfits (hfit n hn)
      · exact ⟨_, by rw [hr, if_neg (by simp [hused])]⟩
  · rcases hread with ⟨n, hn, -⟩ | hused
    · rw [hnone] at hn; cases hn
    · exact ⟨.double (L.strtod token).1, by simp [readNumber, hused]⟩

end ReadNumber

end Json

end Tamga
