import Mathlib.FieldTheory.Finite.Extension
import Mathlib.RingTheory.AdjoinRoot
import Mathlib.Tactic

/-!
# `Lib.BinaryField` — polynomials over `GF(2)` as numbers, highest bit first

The top bit of a `w`-bit number is the constant coefficient, so that multiplying by `x` is a shift to the
right and the bit that falls out is folded back (`halve`). `elt` reads such a number in any ring of
characteristic two; where `x ^ w` is the constant that is folded back, `mul` is multiplication (`elt_mul`).
In the quotient by a polynomial of degree `w` no two numbers are one element (`elt_injective`), and that
quotient is a field when `x` passes a test on its Frobenius powers (`irreducible_of_frobenius`).
-/

namespace BinaryField

open Polynomial Finset

/-! ## Arithmetic on numbers -/

/-- Multiplication by `x`. -/
def halve (r v : Nat) : Nat := v / 2 ^^^ (if v % 2 = 1 then r else 0)

/-- One bit of the multiplier: the sum so far, and the shifted multiple. -/
def mulStep (w r a : Nat) (zv : Nat × Nat) (i : Nat) : Nat × Nat :=
  (zv.1 ^^^ (if a.testBit (w - 1 - i) then zv.2 else 0), halve r zv.2)

def mul (w r a b : Nat) : Nat := ((List.range w).foldl (mulStep w r a) (0, b)).1

variable {w r : Nat}

theorem halve_lt (hr : r < 2 ^ w) {v : Nat} (hv : v < 2 ^ w) : halve r v < 2 ^ w := by
  apply Nat.xor_lt_two_pow
  · omega
  · split
    · exact hr
    · exact Nat.two_pow_pos w

/-! ## The element of a number -/

section

variable {R : Type*} [CommRing R] {x : R}

/-- Bit `w - 1 - i` is the coefficient of `x ^ i`. -/
def elt (x : R) (w N : Nat) : R := ∑ i ∈ range w, if N.testBit (w - 1 - i) then x ^ i else 0

@[simp] theorem elt_zero : elt x w 0 = 0 := by simp [elt]

/-- A single bit. -/
theorem elt_two_pow {i : Nat} (hi : i < w) : elt x w (2 ^ (w - 1 - i)) = x ^ i := by
  rw [elt, sum_eq_single_of_mem i (mem_range.mpr hi)]
  · simp
  · intro j hj hne
    have hj := mem_range.mp hj
    rw [Nat.testBit_two_pow_of_ne (by omega), if_neg Bool.false_ne_true]

theorem elt_div_two (v : Nat) (hv : v < 2 ^ (w + 1)) :
    elt x (w + 1) (v / 2) + (if v % 2 = 1 then x ^ (w + 1) else 0) = x * elt x (w + 1) v := by
  have htop : (v / 2).testBit w = false := by
    apply Nat.testBit_lt_two_pow
    rw [Nat.div_lt_iff_lt_mul (by decide), ← pow_succ]
    exact hv
  have hlow : v.testBit 0 = decide (v % 2 = 1) := Nat.testBit_zero v
  rw [elt, sum_range_succ', elt, sum_range_succ]
  simp only [Nat.add_sub_cancel, Nat.sub_zero, Nat.sub_self, htop, hlow, decide_eq_true_eq]
  rw [mul_add, mul_sum, if_neg Bool.false_ne_true, add_zero]
  congr 1
  · apply sum_congr rfl
    intro i hi
    have hi := mem_range.mp hi
    have hplace : w - (i + 1) + 1 = w - i := by omega
    rw [Nat.testBit_div_two, hplace, mul_ite, mul_zero, pow_succ']
  · rw [mul_ite, mul_zero, pow_succ']

variable [CharP R 2]

theorem elt_xor (a b : Nat) : elt x w (a ^^^ b) = elt x w a + elt x w b := by
  rw [elt, elt, elt, ← sum_add_distrib]
  apply sum_congr rfl
  intro i _
  rw [Nat.testBit_xor]
  cases a.testBit (w - 1 - i) <;> cases b.testBit (w - 1 - i) <;> simp [CharTwo.add_self_eq_zero]

theorem elt_halve (hw : 0 < w) (hrel : x ^ w = elt x w r) {v : Nat} (hv : v < 2 ^ w) :
    elt x w (halve r v) = x * elt x w v := by
  obtain ⟨w, rfl⟩ := Nat.exists_eq_succ_of_ne_zero hw.ne'
  rw [halve, elt_xor, ← elt_div_two v hv, hrel]
  split <;> simp

/-- After `n` bits: the multiple is shifted `n` times, and the sum has the coefficients below `n`. -/
theorem mulStep_foldl (hw : 0 < w) (hrel : x ^ w = elt x w r) (hr : r < 2 ^ w) (a : Nat) {b : Nat}
    (hb : b < 2 ^ w)
    (n : Nat) : (((List.range n).foldl (mulStep w r a) (0, b)).1 < 2 ^ w ∧
        ((List.range n).foldl (mulStep w r a) (0, b)).2 < 2 ^ w) ∧
      elt x w ((List.range n).foldl (mulStep w r a) (0, b)).2 = x ^ n * elt x w b ∧
      elt x w ((List.range n).foldl (mulStep w r a) (0, b)).1 =
        (∑ i ∈ range n, if a.testBit (w - 1 - i) then x ^ i else 0) * elt x w b := by
  induction n with
  | zero => simp [hb]
  | succ n ih =>
    obtain ⟨⟨hz, hv⟩, hmultiple, hsum⟩ := ih
    rw [List.range_succ, List.foldl_append, List.foldl_cons, List.foldl_nil, mulStep]
    refine ⟨⟨?_, halve_lt hr hv⟩, ?_, ?_⟩
    · apply Nat.xor_lt_two_pow hz
      split
      · exact hv
      · exact Nat.two_pow_pos w
    · rw [elt_halve hw hrel hv, hmultiple, pow_succ']
      ring
    · rw [elt_xor, hsum, sum_range_succ, add_mul]
      congr 1
      split
      · exact hmultiple
      · simp

theorem mul_lt (hw : 0 < w) (hr : r < 2 ^ w) (a : Nat) {b : Nat} (hb : b < 2 ^ w) (hrel : x ^ w = elt x w r) :
    mul w r a b < 2 ^ w := (mulStep_foldl hw hrel hr a hb w).1.1

/-- **The product.** -/
theorem elt_mul (hw : 0 < w) (hrel : x ^ w = elt x w r) (hr : r < 2 ^ w) (a : Nat) {b : Nat}
    (hb : b < 2 ^ w) :
    elt x w (mul w r a b) = elt x w a * elt x w b := (mulStep_foldl hw hrel hr a hb w).2.2

/-- Repeated squaring. -/
theorem elt_iterate_sq (hw : 0 < w) (hrel : x ^ w = elt x w r) (hr : r < 2 ^ w) {a : Nat}
    (ha : a < 2 ^ w) (n : Nat) :
    (fun a => mul w r a a)^[n] a < 2 ^ w ∧ elt x w ((fun a => mul w r a a)^[n] a) = elt x w a ^ 2 ^ n := by
  induction n with
  | zero => simpa using ha
  | succ n ih =>
    obtain ⟨hlt, helt⟩ := ih
    rw [Function.iterate_succ_apply']
    refine ⟨mul_lt hw hr _ hlt hrel, ?_⟩
    rw [elt_mul hw hrel hr _ hlt, helt, ← pow_add, pow_succ, Nat.mul_two]

end

/-! ## The quotient -/

variable {f : (ZMod 2)[X]}

theorem elt_root (w N : Nat) : elt (AdjoinRoot.root f) w N = AdjoinRoot.mk f (elt X w N) := by
  simp only [elt, map_sum, apply_ite (AdjoinRoot.mk f), map_pow, AdjoinRoot.mk_X, map_zero]

theorem coeff_elt {N i : Nat} (hi : i < w) :
    (elt X w N : (ZMod 2)[X]).coeff i = if N.testBit (w - 1 - i) then 1 else 0 := by
  rw [elt, finsetSum_coeff, sum_eq_single_of_mem i (mem_range.mpr hi)]
  · split <;> simp
  · intro j _ hne
    split
    · rw [coeff_X_pow, if_neg hne.symm]
    · exact coeff_zero i

theorem elt_mem_degreeLT (N : Nat) : elt X w N ∈ degreeLT (ZMod 2) w := by
  refine Submodule.sum_mem _ ?_
  intro i hi
  split
  · rw [mem_degreeLT, degree_X_pow]
    exact_mod_cast mem_range.mp hi
  · exact Submodule.zero_mem _

/-- Numbers below `2 ^ w` are different elements. -/
theorem elt_injective (hf : f.degree = w) {a b : Nat} (ha : a < 2 ^ w) (hb : b < 2 ^ w)
    (h : elt (AdjoinRoot.root f) w a = elt (AdjoinRoot.root f) w b) : a = b := by
  rw [elt_root, elt_root, AdjoinRoot.mk_eq_mk] at h
  have hzero : (elt X w a - elt X w b : (ZMod 2)[X]) = 0 :=
    eq_zero_of_dvd_of_degree_lt h (hf ▸ mem_degreeLT.mp (Submodule.sub_mem _ (elt_mem_degreeLT a)
      (elt_mem_degreeLT b)))
  apply Nat.eq_of_testBit_eq
  intro i
  by_cases hi : i < w
  · have hcoeff := congrArg (fun q => coeff q (w - 1 - i)) (sub_eq_zero.mp hzero)
    have hplace : w - 1 - (w - 1 - i) = i := by omega
    simp only [coeff_elt (by omega : w - 1 - i < w), hplace] at hcoeff
    revert hcoeff
    cases a.testBit i <;> cases b.testBit i <;> simp
  · have hle : 2 ^ w ≤ 2 ^ i := Nat.pow_le_pow_right (by decide) (by omega)
    rw [Nat.testBit_lt_two_pow (by omega), Nat.testBit_lt_two_pow (by omega)]

/-- A polynomial of degree `2 * m` without proper divisors of its degree beside those of `m`, tested on the
Frobenius powers of `x`: the first says that every factor's degree divides `2 * m`, the second that no
factor's degree divides `m`. -/
theorem irreducible_of_frobenius {m : Nat} (hdegree : f.natDegree = 2 * m) (hm : 0 < m)
    (hdvd : ∀ d, d ∣ 2 * m → d ≠ 2 * m → d ∣ m)
    (hall : AdjoinRoot.root f ^ 2 ^ (2 * m) = AdjoinRoot.root f)
    (hhalf : IsUnit (AdjoinRoot.root f ^ 2 ^ m - AdjoinRoot.root f)) : Irreducible f := by
  have hcard : Nat.card (ZMod 2) = 2 := Nat.card_zmod 2
  have hne : f ≠ 0 := by
    rintro rfl
    rw [natDegree_zero] at hdegree
    omega
  obtain ⟨g, hg, hgf⟩ := exists_irreducible_of_natDegree_pos (by omega : 0 < f.natDegree)
  have hroot : f ∣ X ^ 2 ^ (2 * m) - X := by
    rw [← AdjoinRoot.mk_eq_zero, map_sub, map_pow, AdjoinRoot.mk_X, hall, sub_self]
  have hdeg : g.natDegree = 2 * m := by
    by_contra hproper
    have hdiv := hg.natDegree_dvd_of_dvd_X_pow_card_pow_sub_X (n := 2 * m)
        (by rw [hcard]; exact hgf.trans hroot)
    have hghalf : g ∣ X ^ 2 ^ m - X := by
      have h := hg.natDegree_dvd_iff_dvd_X_pow_card_pow_sub_X.mp (hdvd _ hdiv hproper)
      rwa [hcard] at h
    -- the unit stays one modulo `g`, where it is zero
    obtain ⟨u, hu⟩ := hhalf.exists_left_inv
    obtain ⟨U, rfl⟩ := AdjoinRoot.mk_surjective u
    have hone : f ∣ U * (X ^ 2 ^ m - X) - 1 := by
      rw [← AdjoinRoot.mk_eq_zero, map_sub, map_mul, map_sub, map_pow, AdjoinRoot.mk_X, hu, map_one, sub_self]
    exact hg.not_dvd_one ((dvd_sub_right (hghalf.mul_left U)).mp (hgf.trans hone))
  exact (associated_of_dvd_of_natDegree_le hgf hne (by omega)).irreducible hg

end BinaryField
