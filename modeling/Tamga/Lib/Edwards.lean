import Mathlib.Algebra.Field.Basic
import Mathlib.Algebra.Group.Even
import Mathlib.Tactic

/-!
# `Lib.Edwards` — the group of a twisted Edwards curve

The curve `-x² + y² = 1 + d x² y²` over a field where `-1` is a square and `d` is not. Then no denominator
of the addition law vanishes (`one_add_ne_zero`, `one_sub_ne_zero`), so that one formula adds any two points
and the points are a commutative group. Every identity below is the law with `d x² y²` replaced by
`y² - x² - 1`; in extended coordinates the same law needs no division (`Represents.add`).
-/

namespace Edwards

/-- The coefficient of a curve, with the square root of `-1`. -/
structure Curve (K : Type*) [Field K] where
  d : K
  i : K
  i_sq : i ^ 2 = -1
  not_isSquare : ¬ IsSquare d
  two_ne_zero : (2 : K) ≠ 0

variable {K : Type*} [Field K]

/-- A point of the curve. -/
@[ext] structure Curve.Point (C : Curve K) where
  x : K
  y : K
  on : C.d * (x * y) ^ 2 = y ^ 2 - x ^ 2 - 1

namespace Curve

variable {C : Curve K}

/-! ## The denominators -/

/-- `d x₁ x₂ y₁ y₂`. -/
def Point.cross (P Q : C.Point) : K := C.d * (P.x * P.y) * (Q.x * Q.y)

theorem cross_comm (P Q : C.Point) : P.cross Q = Q.cross P := by
  rw [Point.cross, Point.cross]
  ring

/-- Were the cross term a square root of one, `d` would be a square. -/
theorem cross_sq_ne_one (P Q : C.Point) : P.cross Q ^ 2 ≠ 1 := by
  intro ht
  have hne : P.x * P.y ≠ 0 := by
    intro hzero
    rw [Point.cross, hzero, mul_zero, zero_mul] at ht
    norm_num at ht
  have hplus : (C.i * P.x + P.cross Q * P.y) ^ 2 = C.d * (P.x * P.y * (C.i * Q.x + Q.y)) ^ 2 := by
    rw [Point.cross] at ht ⊢
    linear_combination (P.x ^ 2 - C.d * (P.x * P.y) ^ 2 * Q.x ^ 2) * C.i_sq + (P.y ^ 2 - 1) * ht - P.on +
      C.d * (P.x * P.y) ^ 2 * Q.on
  have hminus : (C.i * P.x - P.cross Q * P.y) ^ 2 = C.d * (P.x * P.y * (C.i * Q.x - Q.y)) ^ 2 := by
    rw [Point.cross] at ht ⊢
    linear_combination (P.x ^ 2 - C.d * (P.x * P.y) ^ 2 * Q.x ^ 2) * C.i_sq + (P.y ^ 2 - 1) * ht - P.on +
      C.d * (P.x * P.y) ^ 2 * Q.on
  have hsquare : ∀ {a b : K}, a ^ 2 = C.d * b ^ 2 → b = 0 := by
    intro a b h
    by_contra hb
    exact C.not_isSquare ⟨a / b, by field_simp; linear_combination -h⟩
  have hsum := (mul_eq_zero.mp (hsquare hplus)).resolve_left hne
  have hdiff := (mul_eq_zero.mp (hsquare hminus)).resolve_left hne
  have hi : C.i ≠ 0 := by
    intro hzero
    have h := C.i_sq
    rw [hzero] at h
    norm_num at h
  have hx : 2 * C.i * Q.x = 0 := by linear_combination hsum + hdiff
  have hx : Q.x = 0 := (mul_eq_zero.mp hx).resolve_left (mul_ne_zero C.two_ne_zero hi)
  rw [Point.cross, hx, zero_mul, mul_zero] at ht
  norm_num at ht

theorem one_add_ne_zero (P Q : C.Point) : 1 + P.cross Q ≠ 0 := by
  intro h
  exact cross_sq_ne_one P Q (by linear_combination (P.cross Q - 1) * h)

theorem one_sub_ne_zero (P Q : C.Point) : 1 - P.cross Q ≠ 0 := by
  intro h
  exact cross_sq_ne_one P Q (by linear_combination -(P.cross Q + 1) * h)

/-! ## Addition -/

/-- The numerators of the sum. -/
def Point.sumX (P Q : C.Point) : K := P.x * Q.y + P.y * Q.x

def Point.sumY (P Q : C.Point) : K := P.y * Q.y + P.x * Q.x

instance : Add C.Point where
  add P Q := {
    x := P.sumX Q / (1 + P.cross Q)
    y := P.sumY Q / (1 - P.cross Q)
    on := by
      have hp := one_add_ne_zero P Q
      have hm := one_sub_ne_zero P Q
      have key : C.d * (P.sumX Q * P.sumY Q) ^ 2 = (P.sumY Q * (1 + P.cross Q)) ^ 2 -
          (P.sumX Q * (1 - P.cross Q)) ^ 2 - ((1 + P.cross Q) * (1 - P.cross Q)) ^ 2 := by
        rw [Point.sumX, Point.sumY, Point.cross]
        linear_combination
          -((P.y ^ 2 - P.x ^ 2) * (Q.y ^ 2 - Q.x ^ 2) * (C.d * (Q.x * Q.y) ^ 2) + 4 * (Q.x * Q.y) ^ 2 +
            2 * (C.d * (Q.x * Q.y) ^ 2) -
            (C.d * (P.x * P.y) ^ 2 + P.y ^ 2 - P.x ^ 2 - 1) * (C.d * (Q.x * Q.y) ^ 2) ^ 2 -
            (Q.x ^ 2 + Q.y ^ 2) ^ 2) * P.on -
          ((P.y ^ 2 - P.x ^ 2) * (Q.y ^ 2 - Q.x ^ 2) * (P.y ^ 2 - P.x ^ 2 - 1) + 4 * (P.x * P.y) ^ 2 +
            2 * (P.y ^ 2 - P.x ^ 2 - 1) -
            (P.y ^ 2 - P.x ^ 2 - 1) ^ 2 * (C.d * (Q.x * Q.y) ^ 2 + Q.y ^ 2 - Q.x ^ 2 - 1) -
            (P.x ^ 2 + P.y ^ 2) ^ 2) * Q.on
      rw [div_mul_div_comm, div_pow, div_pow, div_pow]
      field_simp
      linear_combination key }

theorem add_x (P Q : C.Point) : (P + Q).x = P.sumX Q / (1 + P.cross Q) := rfl

theorem add_y (P Q : C.Point) : (P + Q).y = P.sumY Q / (1 - P.cross Q) := rfl

theorem sum_comm (P Q : C.Point) : P + Q = Q + P := by
  have hx : P.sumX Q = Q.sumX P := by
    rw [Point.sumX, Point.sumX]
    ring
  have hy : P.sumY Q = Q.sumY P := by
    rw [Point.sumY, Point.sumY]
    ring
  ext
  · rw [add_x, add_x, hx, cross_comm]
  · rw [add_y, add_y, hy, cross_comm]

/-! ## Three points -/

/-- The sum of three points over one denominator for each coordinate. -/
def Point.tripleX (P Q R : C.Point) : K := P.sumX Q * (1 - P.cross Q) * R.y + P.sumY Q * (1 + P.cross Q) * R.x

def Point.tripleY (P Q R : C.Point) : K := P.sumY Q * (1 + P.cross Q) * R.y + P.sumX Q * (1 - P.cross Q) * R.x

def Point.tripleDen (P Q R : C.Point) (sign : K) : K :=
  (1 + P.cross Q) * (1 - P.cross Q) + sign * (C.d * (P.sumX Q * P.sumY Q) * (R.x * R.y))

theorem tripleDen_eq (P Q R : C.Point) (sign : K) :
    P.tripleDen Q R sign = (1 + P.cross Q) * (1 - P.cross Q) * (1 + sign * (P + Q).cross R) := by
  have hp := one_add_ne_zero P Q
  have hm := one_sub_ne_zero P Q
  have hcross : (P + Q).cross R = C.d * ((P + Q).x * (P + Q).y) * (R.x * R.y) := rfl
  rw [Point.tripleDen, hcross, add_x, add_y]
  field_simp

theorem tripleDen_ne_zero (P Q R : C.Point) : P.tripleDen Q R 1 ≠ 0 ∧ P.tripleDen Q R (-1) ≠ 0 := by
  have h := mul_ne_zero (one_add_ne_zero P Q) (one_sub_ne_zero P Q)
  rw [tripleDen_eq, tripleDen_eq, one_mul, neg_one_mul, ← sub_eq_add_neg]
  exact ⟨mul_ne_zero h (one_add_ne_zero (P + Q) R), mul_ne_zero h (one_sub_ne_zero (P + Q) R)⟩

theorem add_add_x (P Q R : C.Point) : (P + Q + R).x = P.tripleX Q R / P.tripleDen Q R 1 := by
  have hp := one_add_ne_zero P Q
  have hm := one_sub_ne_zero P Q
  have hden := one_add_ne_zero (P + Q) R
  rw [tripleDen_eq, one_mul, add_x (P + Q), Point.sumX, add_x P, add_y P, Point.tripleX]
  field_simp

theorem add_add_y (P Q R : C.Point) : (P + Q + R).y = P.tripleY Q R / P.tripleDen Q R (-1) := by
  have hp := one_add_ne_zero P Q
  have hm := one_sub_ne_zero P Q
  have hden := one_sub_ne_zero (P + Q) R
  rw [tripleDen_eq, neg_one_mul, ← sub_eq_add_neg, add_y (P + Q), Point.sumY, add_x P, add_y P, Point.tripleY]
  field_simp

/-- The first and the last of three points change places, with `d x² y²` replaced throughout. -/
theorem add_rotate (P Q R : C.Point) : P + Q + R = R + Q + P := by
  have hden := tripleDen_ne_zero P Q R
  have hden' := tripleDen_ne_zero R Q P
  ext
  · rw [add_add_x, add_add_x, div_eq_div_iff hden.1 hden'.1]
    obtain ⟨x₁, y₁, h₁⟩ := P
    obtain ⟨x₂, y₂, h₂⟩ := Q
    obtain ⟨x₃, y₃, h₃⟩ := R
    simp only [Point.tripleX, Point.tripleDen, Point.sumX, Point.sumY, Point.cross]
    linear_combination C.d * (x₂ * y₂) *
      (((x₁ * y₂ * y₃ + y₁ * x₂ * y₃ + y₁ * y₂ * x₃ + x₁ * x₂ * x₃) * (x₂ * y₂) +
          (y₁ * y₂ * x₃ + x₁ * x₂ * x₃ - x₁ * y₂ * y₃ - y₁ * x₂ * y₃) *
            (x₃ * y₃ * (x₂ ^ 2 + y₂ ^ 2) + x₂ * y₂ * (x₃ ^ 2 + y₃ ^ 2)) +
          x₃ * y₃ * (x₁ * y₂ * y₃ + x₁ * x₂ * x₃ - y₁ * y₂ * x₃ - y₁ * x₂ * y₃) *
            (C.d * (x₂ * y₂) ^ 2)) * h₁ +
        (x₃ * y₃ * (x₁ * y₂ * y₃ + x₁ * x₂ * x₃ - y₁ * y₂ * x₃ - y₁ * x₂ * y₃) * (y₁ ^ 2 - x₁ ^ 2 - 1) -
          x₁ * y₁ * (y₁ * y₂ * x₃ + x₁ * x₂ * x₃ - x₁ * y₂ * y₃ - y₁ * x₂ * y₃) *
            (C.d * (x₃ * y₃) ^ 2)) * h₂ -
        ((x₁ * y₂ * y₃ + y₁ * x₂ * y₃ + y₁ * y₂ * x₃ + x₁ * x₂ * x₃) * (x₂ * y₂) +
          x₁ * y₁ * (y₁ * y₂ * x₃ + x₁ * x₂ * x₃ - x₁ * y₂ * y₃ - y₁ * x₂ * y₃) * (y₂ ^ 2 - x₂ ^ 2 - 1) +
          (x₁ * y₂ * y₃ + x₁ * x₂ * x₃ - y₁ * y₂ * x₃ - y₁ * x₂ * y₃) *
            (x₁ * y₁ * (x₂ ^ 2 + y₂ ^ 2) + x₂ * y₂ * (x₁ ^ 2 + y₁ ^ 2))) * h₃)
  · rw [add_add_y, add_add_y, div_eq_div_iff hden.2 hden'.2]
    obtain ⟨x₁, y₁, h₁⟩ := P
    obtain ⟨x₂, y₂, h₂⟩ := Q
    obtain ⟨x₃, y₃, h₃⟩ := R
    simp only [Point.tripleY, Point.tripleDen, Point.sumX, Point.sumY, Point.cross]
    linear_combination C.d * (x₂ * y₂) *
      (((y₁ * y₂ * y₃ + x₁ * x₂ * y₃ + x₁ * y₂ * x₃ + y₁ * x₂ * x₃) * (x₂ * y₂) -
          (y₁ * y₂ * y₃ + x₁ * x₂ * y₃ - x₁ * y₂ * x₃ - y₁ * x₂ * x₃) *
            (x₃ * y₃ * (x₂ ^ 2 + y₂ ^ 2) + x₂ * y₂ * (x₃ ^ 2 + y₃ ^ 2)) +
          x₃ * y₃ * (y₁ * y₂ * y₃ + y₁ * x₂ * x₃ - x₁ * y₂ * x₃ - x₁ * x₂ * y₃) *
            (C.d * (x₂ * y₂) ^ 2)) * h₁ +
        (x₃ * y₃ * (y₁ * y₂ * y₃ + y₁ * x₂ * x₃ - x₁ * y₂ * x₃ - x₁ * x₂ * y₃) * (y₁ ^ 2 - x₁ ^ 2 - 1) -
          x₁ * y₁ * (y₁ * y₂ * y₃ + x₁ * x₂ * y₃ - x₁ * y₂ * x₃ - y₁ * x₂ * x₃) *
            (C.d * (x₃ * y₃) ^ 2)) * h₂ -
        ((y₁ * y₂ * y₃ + x₁ * x₂ * y₃ + x₁ * y₂ * x₃ + y₁ * x₂ * x₃) * (x₂ * y₂) +
          x₁ * y₁ * (y₁ * y₂ * y₃ + x₁ * x₂ * y₃ - x₁ * y₂ * x₃ - y₁ * x₂ * x₃) * (y₂ ^ 2 - x₂ ^ 2 - 1) -
          (y₁ * y₂ * y₃ + y₁ * x₂ * x₃ - x₁ * y₂ * x₃ - x₁ * x₂ * y₃) *
            (x₁ * y₁ * (x₂ ^ 2 + y₂ ^ 2) + x₂ * y₂ * (x₁ ^ 2 + y₁ ^ 2))) * h₃)

/-! ## The group -/

instance : Zero C.Point := ⟨⟨0, 1, by ring⟩⟩

instance : Neg C.Point := ⟨fun P => ⟨-P.x, P.y, by linear_combination P.on⟩⟩

theorem zero_sum (P : C.Point) : 0 + P = P := by
  have hx : (0 : C.Point).x = 0 := rfl
  have hy : (0 : C.Point).y = 1 := rfl
  ext
  · rw [add_x, Point.sumX, Point.cross, hx, hy]
    ring
  · rw [add_y, Point.sumY, Point.cross, hx, hy]
    ring

theorem neg_sum (P : C.Point) : -P + P = 0 := by
  have hx : (-P).x = -P.x := rfl
  have hy : (-P).y = P.y := rfl
  have hden := one_sub_ne_zero (-P) P
  ext
  · rw [add_x, Point.sumX, hx, hy, neg_mul, mul_comm, neg_add_cancel, zero_div]
    rfl
  · rw [add_y, Point.sumY]
    refine (div_eq_one_iff_eq hden).mpr ?_
    rw [Point.cross, hx, hy]
    linear_combination -P.on

instance : AddCommGroup C.Point where
  add_assoc P Q R := by rw [add_rotate, sum_comm, sum_comm R]
  zero_add := zero_sum
  add_zero P := by rw [sum_comm, zero_sum]
  add_comm := sum_comm
  neg_add_cancel := neg_sum
  nsmul := nsmulRec
  zsmul := zsmulRec

/-! ## Extended coordinates -/

/-- `(X : Y : Z : T)` with `x = X / Z`, `y = Y / Z` and `x y = T / Z`. -/
structure Represents (P : C.Point) (X Y Z T : K) : Prop where
  ne_zero : Z ≠ 0
  x_eq : X = P.x * Z
  y_eq : Y = P.y * Z
  t_eq : T * Z = X * Y

theorem Represents.t_eq' {P : C.Point} {X Y Z T : K} (h : Represents P X Y Z T) : T = P.x * P.y * Z := by
  apply mul_right_cancel₀ h.ne_zero
  rw [h.t_eq, h.x_eq, h.y_eq]
  ring

/-- **Unified addition**: one formula without division for every pair of points. -/
theorem Represents.add {P Q : C.Point} {X₁ Y₁ Z₁ T₁ X₂ Y₂ Z₂ T₂ : K} (hP : Represents P X₁ Y₁ Z₁ T₁)
    (hQ : Represents Q X₂ Y₂ Z₂ T₂) {A B E F G H c D : K} (hA : A = (Y₁ - X₁) * (Y₂ - X₂))
    (hB : B = (Y₁ + X₁) * (Y₂ + X₂)) (hC : c = T₁ * T₂ * (C.d + C.d)) (hD : D = Z₁ * Z₂ + Z₁ * Z₂)
    (hE : E = B - A) (hF : F = D - c) (hG : G = D + c) (hH : H = B + A) :
    Represents (P + Q) (E * F) (G * H) (F * G) (E * H) := by
  have hp := one_add_ne_zero P Q
  have hm := one_sub_ne_zero P Q
  have hscale : 2 * (Z₁ * Z₂) ≠ 0 := mul_ne_zero C.two_ne_zero (mul_ne_zero hP.ne_zero hQ.ne_zero)
  have hc : c = 2 * (Z₁ * Z₂) * P.cross Q := by
    rw [hC, hP.t_eq', hQ.t_eq', Point.cross]
    ring
  have hF' : F = 2 * (Z₁ * Z₂) * (1 - P.cross Q) := by
    rw [hF, hD, hc]
    ring
  have hG' : G = 2 * (Z₁ * Z₂) * (1 + P.cross Q) := by
    rw [hG, hD, hc]
    ring
  have hE' : E = 2 * (Z₁ * Z₂) * P.sumX Q := by
    rw [hE, hA, hB, hP.x_eq, hP.y_eq, hQ.x_eq, hQ.y_eq, Point.sumX]
    ring
  have hH' : H = 2 * (Z₁ * Z₂) * P.sumY Q := by
    rw [hH, hA, hB, hP.x_eq, hP.y_eq, hQ.x_eq, hQ.y_eq, Point.sumY]
    ring
  refine ⟨?_, ?_, ?_, by ring⟩
  · rw [hF', hG']
    exact mul_ne_zero (mul_ne_zero hscale hm) (mul_ne_zero hscale hp)
  · rw [add_x, hE', hG']
    field_simp
  · rw [add_y, hH', hF']
    field_simp

theorem Represents.zero : Represents (0 : C.Point) 0 1 1 0 :=
  ⟨one_ne_zero, by rw [mul_one]; rfl, by rw [mul_one]; rfl, by ring⟩

end Curve

end Edwards
