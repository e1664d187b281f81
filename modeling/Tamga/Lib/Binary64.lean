import Mathlib.Data.Nat.Digits.Lemmas
import Mathlib.Tactic

/-!
# `Lib.Binary64` — correctly rounded conversion between decimal and binary64

A magnitude is a bit pattern without its sign: the patterns `0, 1, 2, …` denote increasing values, a
step of one pattern is one unit in the last place (`value_succ`), and `2 ^ 52` consecutive patterns
share a unit. The pattern `infinity` stands for the first power of two that does not fit, which is
how IEEE 754 rounds an overflow.

* `Nearest x b` is round-to-nearest, ties to even: `b` is the pattern a correct conversion of the
  exact value `x` ends in. It is unique (`Nearest.unique`), and `nearest` computes it
  (`nearest_spec`).
* `Shortened p x D X` is the same in the other direction: `D · 10 ^ (X - p)` is `x` to `p + 1`
  significant digits. `shorten` computes it (`shorten_spec`).
* Seventeen significant digits are enough (`Shortened.nearest`): read back, they are the magnitude
  they were written from.
-/

namespace Binary64

/-! ## Rounding a quotient -/

/-- `q` is `y` rounded to an integer, ties to even. -/
structure Rounded (y : ℚ) (q : ℕ) : Prop where
  close : |(q : ℚ) - y| ≤ 1 / 2
  even : |(q : ℚ) - y| = 1 / 2 → q % 2 = 0

/-- The quotient `n / d` rounded to an integer, ties to even. -/
def roundDiv (n d : ℕ) : ℕ :=
  if d < 2 * (n % d) ∨ 2 * (n % d) = d ∧ n / d % 2 = 1 then n / d + 1 else n / d

theorem roundDiv_rounded (n : ℕ) {d : ℕ} (hd : 0 < d) : Rounded (n / d : ℚ) (roundDiv n d) := by
  have hdq : (0 : ℚ) < d := by exact_mod_cast hd
  have hlt : n % d < d := Nat.mod_lt n hd
  -- the error, in units of `1 / d`, is the remainder or what it lacks of `d`
  have hsplit : (n : ℚ) = d * (n / d : ℕ) + (n % d : ℕ) := by exact_mod_cast (Nat.div_add_mod n d).symm
  have hdown : ((n / d : ℕ) : ℚ) - n / d = -((n % d : ℕ) / d) := by
    rw [hsplit]; field_simp; ring
  have hup : ((n / d + 1 : ℕ) : ℚ) - n / d = (d - (n % d : ℕ)) / d := by
    push_cast
    rw [add_sub_right_comm, hdown]; field_simp; ring
  have hr : (0 : ℚ) ≤ (n % d : ℕ) / d := by positivity
  unfold roundDiv
  split
  · rename_i h
    have h2 : (d : ℚ) ≤ 2 * (n % d : ℕ) := by
      have : d ≤ 2 * (n % d) := by omega
      exact_mod_cast this
    have hle : ((n % d : ℕ) : ℚ) ≤ d := by exact_mod_cast hlt.le
    have habs : |((n / d + 1 : ℕ) : ℚ) - n / d| = (d - (n % d : ℕ)) / d := by
      rw [hup, abs_of_nonneg (div_nonneg (by linarith) hdq.le)]
    constructor
    · rw [habs, div_le_iff₀ hdq]; linarith
    · intro heq
      rw [habs, div_eq_iff hdq.ne'] at heq
      have : 2 * (n % d) = d := by
        have : (2 * (n % d : ℕ) : ℚ) = d := by linarith
        exact_mod_cast this
      omega
  · rename_i h
    have h2 : (2 * (n % d : ℕ) : ℚ) ≤ d := by
      have : 2 * (n % d) ≤ d := by omega
      exact_mod_cast this
    have habs : |((n / d : ℕ) : ℚ) - n / d| = (n % d : ℕ) / d := by
      rw [hdown, abs_neg, abs_of_nonneg hr]
    constructor
    · rw [habs, div_le_iff₀ hdq]; linarith
    · intro heq
      rw [habs, div_eq_iff hdq.ne'] at heq
      have : 2 * (n % d) = d := by
        have : (2 * (n % d : ℕ) : ℚ) = d := by linarith
        exact_mod_cast this
      omega

/-- Half a step is as close as any integer comes. -/
theorem Rounded.nearest {y : ℚ} {q : ℕ} (h : Rounded y q) (k : ℕ) :
    |(q : ℚ) - y| ≤ |(k : ℚ) - y| ∧ (|(q : ℚ) - y| = |(k : ℚ) - y| → k = q ∨ q % 2 = 0) := by
  by_cases hk : k = q
  · subst hk; exact ⟨le_rfl, fun _ => Or.inl rfl⟩
  -- another integer is a whole step away from `q`
  have hstep : (1 : ℚ) ≤ |(k : ℚ) - q| := by
    rcases lt_or_gt_of_ne hk with hlt | hgt
    · have : (k : ℚ) + 1 ≤ q := by exact_mod_cast hlt
      linarith [neg_abs_le ((k : ℚ) - q)]
    · have : (q : ℚ) + 1 ≤ k := by exact_mod_cast hgt
      linarith [le_abs_self ((k : ℚ) - q)]
  have htri : |(k : ℚ) - q| ≤ |(k : ℚ) - y| + |(q : ℚ) - y| := by
    rw [abs_sub_comm (q : ℚ) y]; exact abs_sub_le _ _ _
  have hclose := h.close
  refine ⟨by linarith, fun heq => Or.inr (h.even (by linarith))⟩

/-- A value that is at least an integer is not rounded below it. -/
theorem Rounded.le_of_le {y : ℚ} {q k : ℕ} (h : Rounded y q) (hk : (k : ℚ) ≤ y) : k ≤ q := by
  by_contra hlt
  have hstep : (q : ℚ) + 1 ≤ k := by exact_mod_cast Nat.lt_of_not_le hlt
  have := (abs_le.mp h.close).1
  linarith

theorem Rounded.le_of_lt {y : ℚ} {q k : ℕ} (h : Rounded y q) (hk : y < k) : q ≤ k := by
  by_contra hlt
  have hstep : (k : ℚ) + 1 ≤ q := by exact_mod_cast Nat.lt_of_not_le hlt
  have := (abs_le.mp h.close).2
  linarith

/-! ## Magnitudes -/

/-- Exponent of the unit in the last place, counted from that of the smallest magnitude. -/
def unitExp (b : ℕ) : ℕ := b / 2 ^ 52 - 1

def significand (b : ℕ) : ℕ := if b / 2 ^ 52 = 0 then b else 2 ^ 52 + b % 2 ^ 52

/-- The magnitude of a pattern, in units of `2 ^ (-1074)`. -/
def scaled (b : ℕ) : ℕ := significand b * 2 ^ unitExp b

/-- That unit, the smallest positive magnitude. -/
def tiny : ℚ := 1 / 2 ^ 1074

def value (b : ℕ) : ℚ := scaled b * tiny

/-- One unit in the last place. -/
def ulp (b : ℕ) : ℚ := 2 ^ unitExp b * tiny

/-- The pattern after the largest finite magnitude. -/
def infinity : ℕ := 2047 * 2 ^ 52

theorem tiny_pos : 0 < tiny := by unfold tiny; positivity

theorem ulp_pos (b : ℕ) : 0 < ulp b := mul_pos (by positivity) tiny_pos

@[simp] theorem value_zero : value 0 = 0 := by
  have : scaled 0 = 0 := by decide
  rw [value, this, Nat.cast_zero, zero_mul]

variable {a b : ℕ}

theorem unitExp_mono (h : a ≤ b) : unitExp a ≤ unitExp b :=
  Nat.sub_le_sub_right (Nat.div_le_div_right h) 1

theorem ulp_mono (h : a ≤ b) : ulp a ≤ ulp b := by
  unfold ulp
  exact mul_le_mul_of_nonneg_right (pow_le_pow_right₀ one_le_two (unitExp_mono h)) tiny_pos.le

/-- The significand of a pattern written with exponent `e`. -/
theorem scaled_pack {e sig : ℕ} (hlo : e = 0 ∨ 2 ^ 52 ≤ sig) (hhi : sig ≤ 2 ^ 53) :
    scaled (e * 2 ^ 52 + sig) = sig * 2 ^ e := by
  have hpack : ∀ k < 2 ^ 52, ∀ e, scaled ((e + 1) * 2 ^ 52 + k) = (2 ^ 52 + k) * 2 ^ e := by
    intro k hk e
    have hdiv : ((e + 1) * 2 ^ 52 + k) / 2 ^ 52 = e + 1 := by omega
    have hmod : ((e + 1) * 2 ^ 52 + k) % 2 ^ 52 = k := by omega
    unfold scaled significand unitExp
    rw [hdiv, hmod, if_neg (Nat.succ_ne_zero e), Nat.add_sub_cancel]
  rcases Nat.lt_or_ge sig (2 ^ 52) with hlt | hge
  · have he : e = 0 := by omega
    subst he
    have hdiv : (0 * 2 ^ 52 + sig) / 2 ^ 52 = 0 := by omega
    unfold scaled significand unitExp
    rw [hdiv, if_pos rfl]; simp
  · rcases Nat.lt_or_ge sig (2 ^ 53) with hlt | hge'
    · have := hpack (sig - 2 ^ 52) (by omega) e
      rw [show (e + 1) * 2 ^ 52 + (sig - 2 ^ 52) = e * 2 ^ 52 + sig by omega,
        show 2 ^ 52 + (sig - 2 ^ 52) = sig by omega] at this
      exact this
    · -- the carry out of the significand lands in the exponent
      have hsig : sig = 2 ^ 53 := by omega
      have := hpack 0 (by decide) (e + 1)
      rw [show (e + 1 + 1) * 2 ^ 52 + 0 = e * 2 ^ 52 + sig by omega] at this
      rw [this, hsig, pow_succ 2 e]
      ring

/-- A pattern in those terms. -/
theorem unpack (b : ℕ) :
    b = unitExp b * 2 ^ 52 + significand b ∧ (unitExp b = 0 ∨ 2 ^ 52 ≤ significand b) ∧
      significand b < 2 ^ 53 := by
  unfold unitExp significand
  have := Nat.div_add_mod b (2 ^ 52)
  have := Nat.mod_lt b (show 0 < 2 ^ 52 by decide)
  split
  · omega
  · omega

/-- **Neighbours** are one unit in the last place apart. -/
theorem value_succ (b : ℕ) : value (b + 1) = value b + ulp b := by
  obtain ⟨hb, hlo, hhi⟩ := unpack b
  have h : scaled (b + 1) = scaled b + 2 ^ unitExp b := by
    have hpack : scaled (unitExp b * 2 ^ 52 + (significand b + 1)) =
        (significand b + 1) * 2 ^ unitExp b := scaled_pack (by omega) (by omega)
    rw [← add_assoc, ← hb] at hpack
    rw [hpack, scaled]; ring
  unfold value ulp
  rw [h]; push_cast; ring

theorem value_strictMono : StrictMono value :=
  strictMono_nat_of_lt_succ fun b => by rw [value_succ]; linarith [ulp_pos b]

theorem ulp_le_sub (h : a < b) : ulp a ≤ value b - value a := by
  have := value_strictMono.monotone (show a + 1 ≤ b by omega)
  rw [value_succ] at this
  linarith

/-- A magnitude is at most `2 ^ 53` units of the one below it. -/
theorem value_succ_le (b : ℕ) : value (b + 1) ≤ 2 ^ 53 * ulp b := by
  obtain ⟨-, -, hhi⟩ := unpack b
  have hsig : ((significand b : ℕ) : ℚ) + 1 ≤ 2 ^ 53 := by exact_mod_cast hhi
  have hvalue : value b = significand b * ulp b := by
    unfold value scaled ulp; push_cast; ring
  rw [value_succ, hvalue]
  nlinarith [ulp_pos b]

/-! ## From decimal to binary -/

/-- `b` is the magnitude nearest to `x`, ties to even; an overflow ends in `infinity`. -/
structure Nearest (x : ℚ) (b : ℕ) : Prop where
  le_infinity : b ≤ infinity
  close : ∀ b' ≤ infinity, |value b - x| ≤ |value b' - x|
  even : ∀ b' ≤ infinity, |value b - x| = |value b' - x| → b' = b ∨ b % 2 = 0

variable {x : ℚ}

/-- Two magnitudes are equally near a value only if it lies halfway between them. -/
theorem midpoint (hlt : a < b) (h : |value a - x| = |value b - x|) : 2 * x = value a + value b := by
  have := value_strictMono hlt
  rcases abs_eq_abs.mp h with h | h
  · linarith
  · linarith

theorem Nearest.not_lt (ha : Nearest x a) (hb : Nearest x b) : ¬ a < b := by
  intro hlt
  have heq : |value a - x| = |value b - x| :=
    le_antisymm (ha.close b hb.le_infinity) (hb.close a ha.le_infinity)
  have hmid := midpoint hlt heq
  -- both are even, so there is a pattern in between, and it is closer than either
  have haeven : a % 2 = 0 := (ha.even b hb.le_infinity heq).resolve_left (by omega)
  have hbeven : b % 2 = 0 := (hb.even a ha.le_infinity heq.symm).resolve_left (by omega)
  have hbetween : a + 1 < b := by omega
  have hlow := value_strictMono (show a < a + 1 by omega)
  have hhigh := value_strictMono hbetween
  have hcloser := ha.close (a + 1) (by have := hb.le_infinity; omega)
  rw [abs_of_nonpos (show value a - x ≤ 0 by linarith)] at hcloser
  rcases abs_cases (value (a + 1) - x) with ⟨h, -⟩ | ⟨h, -⟩
  · linarith
  · linarith

theorem Nearest.unique (ha : Nearest x a) (hb : Nearest x b) : a = b :=
  le_antisymm (Nat.le_of_not_lt (hb.not_lt ha)) (Nat.le_of_not_lt (ha.not_lt hb))

/-- A value within half a unit of a magnitude is nearest to it. -/
theorem nearest_of_close {b : ℕ} (hb : b + 1 ≤ infinity)
    (h : 2 * |value (b + 1) - x| < ulp b) : Nearest x (b + 1) := by
  have hgap : ∀ b', b' ≠ b + 1 → |value (b + 1) - x| < |value b' - x| := by
    intro b' hne
    have hsep : ulp b ≤ |value (b + 1) - value b'| := by
      rcases lt_or_gt_of_ne hne with hlt | hgt
      · have := value_strictMono.monotone (show b' ≤ b by omega)
        have := value_succ b
        linarith [le_abs_self (value (b + 1) - value b')]
      · have := ulp_le_sub hgt
        have := ulp_mono (Nat.le_succ b)
        linarith [neg_abs_le (value (b + 1) - value b')]
    have htri := abs_sub_le (value (b + 1)) x (value b')
    rw [abs_sub_comm x] at htri
    linarith
  refine ⟨hb, fun b' _ => ?_, fun b' _ heq => ?_⟩
  · by_cases hne : b' = b + 1
    · rw [hne]
    · exact (hgap b' hne).le
  · by_contra hcon
    rw [not_or] at hcon
    exact absurd heq (hgap b' hcon.1).ne

theorem nearest_zero : Nearest 0 0 := by
  refine ⟨Nat.zero_le _, fun b' _ => ?_, fun b' _ _ => Or.inr rfl⟩
  rw [value_zero, sub_zero, abs_zero]
  exact abs_nonneg _

/-- The unit exponent at which a value of `q` units has a full significand. -/
def scaleFor (q : ℕ) : ℕ := Nat.log2 q - 52

/-- The pattern of `m / d` units rounded at unit exponent `e`. -/
def roundAt (m d e : ℕ) : ℕ := min (e * 2 ^ 52 + roundDiv m (d * 2 ^ e)) infinity

/-- The magnitude nearest to `n / d`, ties to even. -/
def nearest (n d : ℕ) : ℕ := roundAt (n * 2 ^ 1074) d (scaleFor (n * 2 ^ 1074 / d))

/-- Rounding to the grid of one unit is rounding among all magnitudes: those the grid misses lie
    below it. -/
theorem rounded_nearest {y : ℚ} {e sig : ℕ} (hsig : Rounded y sig)
    (hlo : e = 0 ∨ (2 ^ 52 : ℚ) ≤ y) (hhi : y < 2 ^ 53) (b : ℕ) :
    |value (e * 2 ^ 52 + sig) - y * (2 ^ e * tiny)| ≤ |value b - y * (2 ^ e * tiny)| ∧
      (|value (e * 2 ^ 52 + sig) - y * (2 ^ e * tiny)| = |value b - y * (2 ^ e * tiny)| →
        b = e * 2 ^ 52 + sig ∨ (e * 2 ^ 52 + sig) % 2 = 0) := by
  have hstep : 0 < 2 ^ e * tiny := mul_pos (by positivity) tiny_pos
  have hsiglo : e = 0 ∨ 2 ^ 52 ≤ sig :=
    hlo.imp id fun h => hsig.le_of_le (by exact_mod_cast h)
  have hsighi : sig ≤ 2 ^ 53 := hsig.le_of_lt (by exact_mod_cast hhi)
  have hpack := scaled_pack hsiglo hsighi
  have hgrid : ∀ (a k : ℕ), scaled a = k * 2 ^ e →
      |value a - y * (2 ^ e * tiny)| = |(k : ℚ) - y| * (2 ^ e * tiny) := by
    intro a k hk
    rw [value, hk, ← abs_of_pos hstep, ← abs_mul, abs_of_pos hstep]
    push_cast
    congr 1
    ring
  rw [hgrid _ _ hpack]
  rcases Nat.lt_or_ge (unitExp b) e with hbelow | habove
  · -- a magnitude with a smaller unit is under the least full significand, which is on the grid
    obtain ⟨hb, -, hbsig⟩ := unpack b
    have h52 : (2 ^ 52 : ℚ) ≤ y := hlo.resolve_left (by omega)
    have hless : b < e * 2 ^ 52 + 2 ^ 52 := by
      have : (unitExp b + 1) * 2 ^ 52 ≤ e * 2 ^ 52 := Nat.mul_le_mul_right _ hbelow
      omega
    have hvalue := value_strictMono hless
    have hfull : scaled (e * 2 ^ 52 + 2 ^ 52) = 2 ^ 52 * 2 ^ e := scaled_pack (by omega) (by decide)
    rw [show value (e * 2 ^ 52 + 2 ^ 52) = 2 ^ 52 * (2 ^ e * tiny) by
      rw [value, hfull]; push_cast; ring] at hvalue
    have hle : 2 ^ 52 * (2 ^ e * tiny) ≤ y * (2 ^ e * tiny) :=
      mul_le_mul_of_nonneg_right h52 hstep.le
    have hnear := (hsig.nearest (2 ^ 52)).1
    rw [abs_of_nonpos (show ((2 ^ 52 : ℕ) : ℚ) - y ≤ 0 by push_cast; linarith)] at hnear
    push_cast at hnear
    have hscaled := mul_le_mul_of_nonneg_right hnear hstep.le
    have hlt : |(sig : ℚ) - y| * (2 ^ e * tiny) < |value b - y * (2 ^ e * tiny)| := by
      rw [abs_of_nonpos (show value b - y * (2 ^ e * tiny) ≤ 0 by linarith)]
      linarith
    exact ⟨hlt.le, fun heq => absurd heq hlt.ne⟩
  · have hmul : scaled b = significand b * 2 ^ (unitExp b - e) * 2 ^ e := by
      rw [scaled, mul_assoc, ← pow_add, Nat.sub_add_cancel habove]
    rw [hgrid _ _ hmul]
    obtain ⟨hclose, heven⟩ := hsig.nearest (significand b * 2 ^ (unitExp b - e))
    refine ⟨mul_le_mul_of_nonneg_right hclose hstep.le, fun heq => ?_⟩
    rcases heven (mul_right_cancel₀ hstep.ne' heq) with hk | hk
    · left
      refine value_strictMono.injective ?_
      rw [value, value, hmul, hk, hpack]
    · right; omega

/-- Cutting off at `infinity` keeps a nearest pattern nearest. -/
theorem nearest_min {b : ℕ} (hall : ∀ b', |value b - x| ≤ |value b' - x| ∧
    (|value b - x| = |value b' - x| → b' = b ∨ b % 2 = 0)) : Nearest x (min b infinity) := by
  rcases Nat.le_or_le b infinity with hle | hge
  · rw [min_eq_left hle]
    exact ⟨hle, fun b' _ => (hall b').1, fun b' _ => (hall b').2⟩
  · rw [min_eq_right hge]
    refine ⟨le_rfl, fun b' hb' => ?_, fun b' _ _ => Or.inr (by decide)⟩
    have hb := value_strictMono.monotone hge
    have hb'' := value_strictMono.monotone hb'
    -- `b' ≤ infinity ≤ b` and `b` is nearest, so `x` is not on the near side of `b'`
    have hclose := (hall b').1
    rcases abs_cases (value infinity - x) with ⟨h, -⟩ | ⟨h, hneg⟩
    · rcases abs_cases (value b - x) with ⟨h1, -⟩ | ⟨h1, hneg⟩
      · rcases abs_cases (value b' - x) with ⟨h2, -⟩ | ⟨h2, -⟩
        · linarith
        · linarith
      · linarith [abs_nonneg (value b' - x)]
    · rw [abs_of_nonpos (show value b' - x ≤ 0 by linarith)]
      linarith

section Scale

variable (m : ℕ) {d : ℕ}

theorem full_of_scaleFor (h : scaleFor (m / d) ≠ 0) : 2 ^ 52 * (d * 2 ^ scaleFor (m / d)) ≤ m := by
  have hlog : Nat.log2 (m / d) = scaleFor (m / d) + 52 := by unfold scaleFor at h ⊢; omega
  have hne : m / d ≠ 0 := by
    intro h0
    rw [h0] at h
    exact h rfl
  have hself := Nat.log2_self_le hne
  rw [hlog, pow_add] at hself
  calc 2 ^ 52 * (d * 2 ^ scaleFor (m / d)) = 2 ^ scaleFor (m / d) * 2 ^ 52 * d := by ring
    _ ≤ m / d * d := Nat.mul_le_mul_right d hself
    _ ≤ m := Nat.div_mul_le_self m d

theorem lt_of_scaleFor (hd : 0 < d) : m < 2 ^ 53 * (d * 2 ^ scaleFor (m / d)) := by
  have hlog : Nat.log2 (m / d) + 1 ≤ scaleFor (m / d) + 53 := by unfold scaleFor; omega
  have hself : m / d < 2 ^ (scaleFor (m / d) + 53) :=
    lt_of_lt_of_le Nat.lt_log2_self (Nat.pow_le_pow_right (by decide) hlog)
  rw [Nat.div_lt_iff_lt_mul hd, pow_add] at hself
  calc m < 2 ^ scaleFor (m / d) * 2 ^ 53 * d := hself
    _ = 2 ^ 53 * (d * 2 ^ scaleFor (m / d)) := by ring

end Scale

/-- **Correct rounding.** -/
theorem nearest_spec (n : ℕ) {d : ℕ} (hd : 0 < d) : Nearest (n / d) (nearest n d) := by
  unfold nearest
  have hm : ((n * 2 ^ 1074 : ℕ) : ℚ) * tiny = n := by
    rw [tiny, Nat.cast_mul, Nat.cast_pow, Nat.cast_ofNat, mul_one_div,
      mul_div_cancel_right₀ _ (by positivity)]
  generalize n * 2 ^ 1074 = m at hm ⊢
  have hfull := full_of_scaleFor m (d := d)
  have hless := lt_of_scaleFor m hd
  generalize scaleFor (m / d) = e at hfull hless ⊢
  have hpos : 0 < d * 2 ^ e := Nat.mul_pos hd (by positivity)
  have hposq : (0 : ℚ) < (d * 2 ^ e : ℕ) := by exact_mod_cast hpos
  have hx : (n / d : ℚ) = (m / (d * 2 ^ e : ℕ) : ℚ) * (2 ^ e * tiny) := by
    rw [← hm]
    push_cast
    field_simp
  rw [hx]
  refine nearest_min (rounded_nearest (roundDiv_rounded m hpos) ?_ ?_)
  · rcases Nat.eq_zero_or_pos e with h | h
    · exact Or.inl h
    · right
      rw [le_div_iff₀ hposq]
      exact_mod_cast hfull (by omega)
  · rw [div_lt_iff₀ hposq]
    exact_mod_cast hless

/-! ## From binary to decimal -/

/-- `D · 10 ^ (X - p)` is `x` to `p + 1` significant digits. -/
structure Shortened (p : ℕ) (x : ℚ) (D : ℕ) (X : ℤ) : Prop where
  zero : x = 0 → D = 0 ∧ X = 0
  lead : x ≠ 0 → 10 ^ p ≤ D
  lt : D < 10 ^ (p + 1)
  close : |D * (10 : ℚ) ^ (X - p) - x| ≤ (10 : ℚ) ^ (X - p) / 2

/-- **Seventeen digits** identify a magnitude: the decimal grid at its leading digit is finer than
    the unit below it. -/
theorem Shortened.nearest {b D : ℕ} {X : ℤ} (hb : b < infinity) (h : Shortened 16 (value b) D X) :
    Nearest (D * (10 : ℚ) ^ (X - 16)) b := by
  cases b with
  | zero =>
    rw [(h.zero value_zero).1, Nat.cast_zero, zero_mul]
    exact nearest_zero
  | succ b =>
    have hpos : 0 < value (b + 1) := by
      have := value_strictMono (Nat.succ_pos b)
      rwa [value_zero] at this
    have hclose := h.close
    push_cast at hclose
    generalize htdef : (10 : ℚ) ^ (X - 16) = t at hclose ⊢
    have ht : 0 < t := by rw [← htdef]; positivity
    have hlead : (10 ^ 16 : ℚ) * t ≤ D * t :=
      mul_le_mul_of_nonneg_right (by exact_mod_cast h.lead hpos.ne') ht.le
    have hbound := value_succ_le b
    have htu : t < ulp b := by
      by_contra hcon
      have := (abs_le.mp hclose).2
      linarith
    refine nearest_of_close hb.le ?_
    rw [abs_sub_comm]
    linarith

/-- A shortened value has the order of magnitude its exponent says. -/
theorem Shortened.exponent_bounds {p D : ℕ} {X K : ℤ} (h : Shortened p x D X)
    (hlow : (10 : ℚ) ^ (-K) ≤ x) (hhigh : x ≤ (10 : ℚ) ^ K) : -K - 1 ≤ X ∧ X ≤ K := by
  have hten : (1 : ℚ) < 10 := by norm_num
  have hx : x ≠ 0 := (lt_of_lt_of_le (by positivity) hlow).ne'
  have hstep : (10 : ℚ) ^ p * (10 : ℚ) ^ (X - p) = (10 : ℚ) ^ X := by
    rw [← zpow_natCast, ← zpow_add₀ (by norm_num)]
    congr 1
    ring
  have hunit : (0 : ℚ) < (10 : ℚ) ^ (X - p) := by positivity
  have hp : (1 : ℚ) ≤ (10 : ℚ) ^ p := one_le_pow₀ hten.le
  obtain ⟨hlo, hhi⟩ := abs_le.mp h.close
  have hlead : (10 : ℚ) ^ p * (10 : ℚ) ^ (X - p) ≤ D * (10 : ℚ) ^ (X - p) :=
    mul_le_mul_of_nonneg_right (by exact_mod_cast h.lead hx) hunit.le
  have hlt : ((D : ℚ) + 1) * (10 : ℚ) ^ (X - p) ≤ 10 * (10 : ℚ) ^ p * (10 : ℚ) ^ (X - p) := by
    have := h.lt
    rw [pow_succ, mul_comm] at this
    exact mul_le_mul_of_nonneg_right (by exact_mod_cast this) hunit.le
  have hfloor : (10 : ℚ) ^ (X - p) ≤ (10 : ℚ) ^ X := by
    rw [← hstep]; exact le_mul_of_one_le_left hunit.le hp
  -- the value is within a factor of ten of `10 ^ X` on either side
  have hlower : (10 : ℚ) ^ (-K) < (10 : ℚ) ^ (X + 1) := by
    rw [zpow_add_one₀ (by norm_num)]
    linarith
  have hupper : (10 : ℚ) ^ X < (10 : ℚ) ^ (K + 1) := by
    rw [zpow_add_one₀ (by norm_num)]
    have : (0 : ℚ) < (10 : ℚ) ^ K := by positivity
    linarith
  rw [zpow_lt_zpow_iff_right₀ hten] at hupper hlower
  omega

theorem value_infinity_le : value infinity ≤ (10 : ℚ) ^ ((500 : ℕ) : ℤ) := by
  have hscaled : scaled infinity ≤ 10 ^ 500 * 2 ^ 1074 := by decide +kernel
  rw [value, tiny, mul_one_div, div_le_iff₀ (by positivity), zpow_natCast]
  generalize 500 = K at hscaled ⊢
  generalize 1074 = E at hscaled ⊢
  exact_mod_cast hscaled

theorem le_value {b : ℕ} (hb : 0 < b) : (10 : ℚ) ^ (-((500 : ℕ) : ℤ)) ≤ value b := by
  have hscaled : 2 ^ 1074 ≤ 10 ^ 500 := by decide +kernel
  have hone : value 1 = tiny := by
    have : scaled 1 = 1 := by decide
    rw [value, this, Nat.cast_one, one_mul]
  have hmono := value_strictMono.monotone (show 1 ≤ b from hb)
  rw [hone, tiny] at hmono
  refine le_trans ?_ hmono
  rw [zpow_neg, zpow_natCast, ← one_div]
  refine one_div_le_one_div_of_le (by positivity) ?_
  generalize 500 = K at hscaled ⊢
  generalize 1074 = E at hscaled ⊢
  exact_mod_cast hscaled

/-- The exponent of a magnitude has three digits. -/
theorem Shortened.natAbs_lt {b p D : ℕ} {X : ℤ} (hb : b < infinity)
    (h : Shortened p (value b) D X) : X.natAbs < 1000 := by
  rcases Nat.eq_zero_or_pos b with rfl | hpos
  · rw [(h.zero value_zero).2]; decide
  · have := h.exponent_bounds (le_value hpos) ((value_strictMono hb).le.trans value_infinity_le)
    omega

/-- The decimal exponent of the leading digit of `n / d`, counted from `10 ^ (-shift)`. -/
def leadExp (n d shift : ℕ) : ℕ := Nat.log 10 (n * 10 ^ shift / d)

/-- A significand that was rounded up to one digit more. -/
def normalize (p D : ℕ) (X : ℤ) : ℕ × ℤ := if D = 10 ^ (p + 1) then (10 ^ p, X + 1) else (D, X)

/-- `n / d` to `p + 1` significant digits, for a value not below `10 ^ (-400)`. -/
def shorten (p n d : ℕ) : ℕ × ℤ :=
  if n = 0 then (0, 0)
  else
    let l := leadExp n d (p + 400)
    normalize p (roundDiv (n * 10 ^ (p + 400)) (d * 10 ^ (l - p))) (l - (p + 400 : ℕ))

theorem shortened_normalize {p D : ℕ} {X : ℤ} (hx : x ≠ 0) (hlo : 10 ^ p ≤ D)
    (hhi : D ≤ 10 ^ (p + 1)) (hclose : |D * (10 : ℚ) ^ (X - p) - x| ≤ (10 : ℚ) ^ (X - p) / 2) :
    Shortened p x (normalize p D X).1 (normalize p D X).2 := by
  unfold normalize
  split
  · rename_i hD
    have hstep : (10 : ℚ) ^ (X + 1 - p) = 10 * (10 : ℚ) ^ (X - p) := by
      rw [show X + 1 - (p : ℤ) = X - p + 1 by ring, zpow_add_one₀ (by norm_num), mul_comm]
    have hpos : (0 : ℚ) < (10 : ℚ) ^ (X - p) := by positivity
    refine ⟨fun h => absurd h hx, fun _ => le_rfl, Nat.pow_lt_pow_right (by decide) (by omega), ?_⟩
    -- the same number, written on a grid ten times as coarse
    rw [hstep, show ((10 ^ p : ℕ) : ℚ) * (10 * (10 : ℚ) ^ (X - p)) = D * (10 : ℚ) ^ (X - p) by
      rw [hD]; push_cast; ring]
    linarith
  · exact ⟨fun h => absurd h hx, fun _ => hlo, by omega, hclose⟩

/-- Rounding at the `k`-th decimal place of a number whose leading digit is `p` places above it. -/
theorem shortened_roundDiv {p k Y d : ℕ} (s : ℤ) (hd : 0 < d) (hlow : 10 ^ (p + k) ≤ Y / d)
    (hhigh : Y / d < 10 ^ (p + k + 1)) :
    Shortened p ((Y / d : ℚ) * (10 : ℚ) ^ (-s))
      (normalize p (roundDiv Y (d * 10 ^ k)) (p + k - s)).1
      (normalize p (roundDiv Y (d * 10 ^ k)) (p + k - s)).2 := by
  have hdq : (0 : ℚ) < d := by exact_mod_cast hd
  have hpos : 0 < d * 10 ^ k := Nat.mul_pos hd (by positivity)
  have hposq : (0 : ℚ) < (d * 10 ^ k : ℕ) := by exact_mod_cast hpos
  have hY : 0 < Y := by
    by_contra h0
    rw [Nat.eq_zero_of_not_pos h0, Nat.zero_div] at hlow
    have : 0 < 10 ^ (p + k) := by positivity
    omega
  have hYq : (0 : ℚ) < Y := by exact_mod_cast hY
  have hD := roundDiv_rounded Y hpos
  have hgrid : (10 : ℚ) ^ ((p + k - s : ℤ) - p) = 10 ^ k * (10 : ℚ) ^ (-s) := by
    rw [show (p + k - s : ℤ) - p = k + -s by ring, zpow_add₀ (by norm_num), zpow_natCast]
  have hx : (Y / d : ℚ) * (10 : ℚ) ^ (-s) =
      (Y / (d * 10 ^ k : ℕ) : ℚ) * (10 : ℚ) ^ ((p + k - s : ℤ) - p) := by
    rw [hgrid]; push_cast; field_simp
  refine shortened_normalize (by positivity) ?_ ?_ ?_
  · refine hD.le_of_le ?_
    rw [le_div_iff₀ hposq]
    rw [Nat.le_div_iff_mul_le hd, pow_add] at hlow
    have : 10 ^ p * (d * 10 ^ k) ≤ Y := by rw [mul_left_comm, mul_comm]; exact hlow
    exact_mod_cast this
  · refine hD.le_of_lt ?_
    rw [div_lt_iff₀ hposq]
    rw [Nat.div_lt_iff_lt_mul hd, Nat.add_right_comm, pow_add] at hhigh
    have : Y < 10 ^ (p + 1) * (d * 10 ^ k) := by rw [mul_left_comm, mul_comm]; exact hhigh
    exact_mod_cast this
  · have hstep : (0 : ℚ) < (10 : ℚ) ^ ((p + k - s : ℤ) - p) := by positivity
    rw [hx, ← sub_mul, abs_mul, abs_of_pos hstep]
    have := mul_le_mul_of_nonneg_right hD.close hstep.le
    linarith

theorem shorten_spec (p : ℕ) {n d : ℕ} (hd : 0 < d) (hn : n = 0 ∨ d ≤ n * 10 ^ 400) :
    Shortened p (n / d) (shorten p n d).1 (shorten p n d).2 := by
  unfold shorten
  split
  · rename_i h0
    subst h0
    have hzero : (((0 : ℕ) : ℚ) / d) = 0 := by rw [Nat.cast_zero, zero_div]
    refine ⟨fun _ => ⟨rfl, rfl⟩, fun h => absurd hzero h, by positivity, ?_⟩
    rw [hzero, Nat.cast_zero, zero_mul, sub_zero, abs_zero]
    positivity
  · rename_i h0
    dsimp only
    have hquot : 10 ^ p ≤ n * 10 ^ (p + 400) / d := by
      rw [Nat.le_div_iff_mul_le hd, pow_add, mul_left_comm]
      exact Nat.mul_le_mul_left _ (hn.resolve_left h0)
    have hcast : ((n * 10 ^ (p + 400) : ℕ) / d : ℚ) * (10 : ℚ) ^ (-((p + 400 : ℕ) : ℤ)) = n / d := by
      rw [zpow_neg, zpow_natCast, Nat.cast_mul, Nat.cast_pow, Nat.cast_ofNat]
      field_simp
    unfold leadExp
    generalize p + 400 = s at hquot hcast ⊢
    generalize n * 10 ^ s = Y at hquot hcast ⊢
    have hne : Y / d ≠ 0 := by
      have : 0 < 10 ^ p := by positivity
      omega
    have hlow : 10 ^ Nat.log 10 (Y / d) ≤ Y / d := Nat.pow_log_le_self 10 hne
    have hhigh : Y / d < 10 ^ (Nat.log 10 (Y / d) + 1) := Nat.lt_pow_succ_log_self (by decide) _
    obtain ⟨k, hk⟩ : ∃ k, Nat.log 10 (Y / d) = p + k := by
      have := (Nat.pow_lt_pow_iff_right (a := 10) (by decide)).mp (lt_of_le_of_lt hquot hhigh)
      exact ⟨Nat.log 10 (Y / d) - p, by omega⟩
    rw [hk] at hlow hhigh ⊢
    rw [← hcast, Nat.add_sub_cancel_left]
    exact_mod_cast shortened_roundDiv s hd hlow hhigh

end Binary64
