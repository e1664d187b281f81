import Mathlib.Algebra.Field.ZMod
import Mathlib.Data.List.GetD
import Mathlib.RingTheory.AdjoinRoot
import Mathlib.Tactic.LinearCombination
import Tamga.Lib.Octets

/-!
# `Lib.GF256` — the field of 256 elements on bytes

`Elt` is `GF(2)[x]` modulo `x^8 + x^4 + x^3 + x + 1`. A byte stands for the polynomial whose
coefficients are its bits (`ofByte`), exclusive or is addition, `timesX` and `mul` are multiplication by
`x` and multiplication (`ofByte_mul`), and every nonzero byte has an inverse (`mul_inv`). So the modulus
is irreducible, `Elt` is a field, and bytes are its elements (`ofByte_bijective`).
-/

namespace GF256

open Polynomial

/-! ## Arithmetic on bytes -/

/-- Multiplication by `x`. -/
def timesX (b : UInt8) : UInt8 := (b <<< 1) ^^^ (if 0x80 ≤ b then 0x1B else 0)

/-- Multiplication, from the highest bit of `b` down. -/
def mul (a b : UInt8) : UInt8 :=
  (List.range 8).foldl (fun acc i => timesX acc ^^^ (if b.toNat.testBit (7 - i) then a else 0)) 0

/-- The inverse of every byte, and zero for zero. -/
def inverses : List UInt8 :=
  [0, 1, 141, 246, 203, 82, 123, 209, 232, 79, 41, 192, 176, 225, 229, 199, 116, 180, 170, 75, 153,
    43, 96, 95, 88, 63, 253, 204, 255, 64, 238, 178, 58, 110, 90, 241, 85, 77, 168, 201, 193, 10,
    152, 21, 48, 68, 162, 194, 44, 69, 146, 108, 243, 57, 102, 66, 242, 53, 32, 111, 119, 187, 89,
    25, 29, 254, 55, 103, 45, 49, 245, 105, 167, 100, 171, 19, 84, 37, 233, 9, 237, 92, 5, 202, 76,
    36, 135, 191, 24, 62, 34, 240, 81, 236, 97, 23, 22, 94, 175, 211, 73, 166, 54, 67, 244, 71, 145,
    223, 51, 147, 33, 59, 121, 183, 151, 133, 16, 181, 186, 60, 182, 112, 208, 6, 161, 250, 129,
    130, 131, 126, 127, 128, 150, 115, 190, 86, 155, 158, 149, 217, 247, 2, 185, 164, 222, 106, 50,
    109, 216, 138, 132, 114, 42, 20, 159, 136, 249, 220, 137, 154, 251, 124, 46, 195, 143, 184, 101,
    72, 38, 200, 18, 74, 206, 231, 210, 98, 12, 224, 31, 239, 17, 117, 120, 113, 165, 142, 118, 61,
    189, 188, 134, 87, 11, 40, 47, 163, 218, 212, 228, 15, 169, 39, 83, 4, 27, 252, 172, 230, 122,
    7, 174, 99, 197, 219, 226, 234, 148, 139, 196, 213, 157, 248, 144, 107, 177, 13, 214, 235, 198,
    14, 207, 173, 8, 78, 215, 227, 93, 80, 30, 179, 91, 35, 56, 52, 104, 70, 3, 140, 221, 156, 125,
    160, 205, 26, 65, 28]

def inv (b : UInt8) : UInt8 := inverses.getD b.toNat 0

theorem mul_inv {b : UInt8} (h : b ≠ 0) : mul b (inv b) = 1 := by
  -- all products at once, byte `k + 1` with entry `k` behind the first
  have products : List.zipWith (fun k c => mul (UInt8.ofNat (k + 1)) c) (List.range 255) inverses.tail =
      List.replicate 255 1 := by
    decide +kernel
  have hlen : inverses.length = 256 := by decide +kernel
  have hb := b.toNat_lt
  have hpos : b.toNat ≠ 0 := fun hzero => h (UInt8.toNat_inj.mp hzero)
  have hentry : (List.zipWith (fun k c => mul (UInt8.ofNat (k + 1)) c) (List.range 255)
      inverses.tail)[b.toNat - 1]? = (List.replicate 255 1)[b.toNat - 1]? := by rw [products]
  have hi : b.toNat - 1 < 255 := by omega
  rw [List.getElem?_zipWith, List.getElem?_range hi, List.getElem?_tail, List.getElem?_replicate,
    if_pos hi, show b.toNat - 1 + 1 = b.toNat by omega,
    List.getElem?_eq_getElem (by rw [hlen]; exact hb)] at hentry
  dsimp only at hentry
  rw [show b.toNat - 1 + 1 = b.toNat by omega, UInt8.ofNat_toNat, Option.some.injEq] at hentry
  unfold inv
  rw [List.getD_eq_getElem _ _ (by rw [hlen]; exact hb)]
  exact hentry

theorem inv_zero : inv 0 = 0 := by decide

/-! ## The ring -/

/-- `x^8 + x^4 + x^3 + x + 1`. -/
noncomputable def modulus : (ZMod 2)[X] := X ^ 8 + X ^ 4 + X ^ 3 + X + 1

abbrev Elt : Type := AdjoinRoot modulus

/-- The class of `x`. -/
noncomputable def root : Elt := AdjoinRoot.root modulus

/-- Bit `i` of a byte, as a coefficient. -/
noncomputable def coeff (b : UInt8) (i : Nat) : Elt := if b.toNat.testBit i then 1 else 0

/-- The polynomial of a byte. -/
noncomputable def ofByte (b : UInt8) : Elt := ∑ i ∈ Finset.range 8, coeff b i * root ^ i

theorem two_eq_zero : (2 : Elt) = 0 := by
  have h : (2 : ZMod 2) = 0 := rfl
  have h' := congrArg (AdjoinRoot.of modulus) h
  rwa [map_ofNat, map_zero] at h'

theorem add_self (a : Elt) : a + a = 0 := by linear_combination a * two_eq_zero

theorem root_pow_eight : root ^ 8 = root ^ 4 + root ^ 3 + root + 1 := by
  have h : AdjoinRoot.mk modulus modulus = 0 := AdjoinRoot.mk_self
  have hroot : root ^ 8 + root ^ 4 + root ^ 3 + root + 1 = 0 := by
    have hmk : AdjoinRoot.mk modulus (X ^ 8 + X ^ 4 + X ^ 3 + X + 1) = 0 := h
    simpa [map_add, map_pow, AdjoinRoot.mk_X, root] using hmk
  linear_combination hroot - (root ^ 4 + root ^ 3 + root + 1) * two_eq_zero

theorem degree_modulus : modulus.degree = 8 := by
  unfold modulus
  compute_degree!

instance : Nontrivial Elt := AdjoinRoot.nontrivial modulus (by rw [degree_modulus]; decide)

theorem coeff_xor (a b : UInt8) (i : Nat) : coeff (a ^^^ b) i = coeff a i + coeff b i := by
  unfold coeff
  rw [UInt8.toNat_xor, Nat.testBit_xor]
  cases a.toNat.testBit i <;> cases b.toNat.testBit i <;> simp [add_self]

theorem ofByte_xor (a b : UInt8) : ofByte (a ^^^ b) = ofByte a + ofByte b := by
  unfold ofByte
  rw [← Finset.sum_add_distrib]
  apply Finset.sum_congr rfl
  intro i _
  rw [coeff_xor, add_mul]

@[simp] theorem ofByte_zero : ofByte 0 = 0 := by
  apply Finset.sum_eq_zero
  intro i _
  simp [coeff]

@[simp] theorem ofByte_one : ofByte 1 = 1 := by
  simp [ofByte, coeff, Finset.sum_range_succ, Nat.testBit]

/-- The bits of `timesX b`: shifted by one, and the highest one folded back. -/
theorem coeff_timesX (b : UInt8) :
    coeff (timesX b) 0 = coeff b 7 ∧ coeff (timesX b) 1 = coeff b 0 + coeff b 7 ∧
      coeff (timesX b) 2 = coeff b 1 ∧ coeff (timesX b) 3 = coeff b 2 + coeff b 7 ∧
      coeff (timesX b) 4 = coeff b 3 + coeff b 7 ∧ coeff (timesX b) 5 = coeff b 4 ∧
      coeff (timesX b) 6 = coeff b 5 ∧ coeff (timesX b) 7 = coeff b 6 := by
  have bits : ∀ k < 256, ∀ i < 8, (timesX (UInt8.ofNat k)).toNat.testBit i =
      ((decide (0 < i) && (UInt8.ofNat k).toNat.testBit (i - 1)) ^^
        ((UInt8.ofNat k).toNat.testBit 7 && Nat.testBit 0x1B i)) := by
    decide +kernel
  have bit := forall_byte (P := fun b => ∀ i < 8, (timesX b).toNat.testBit i =
      ((decide (0 < i) && b.toNat.testBit (i - 1)) ^^ (b.toNat.testBit 7 && Nat.testBit 0x1B i))) bits b
  have hcoeff : ∀ i < 8, coeff (timesX b) i =
      (if 0 < i then coeff b (i - 1) else 0) + (if Nat.testBit 0x1B i then coeff b 7 else 0) := by
    intro i hi
    unfold coeff
    rw [bit i hi]
    by_cases hpos : 0 < i <;> cases b.toNat.testBit (i - 1) <;> cases b.toNat.testBit 7 <;>
      cases Nat.testBit 0x1B i <;> simp [hpos, add_self]
  refine ⟨?_, ?_, ?_, ?_, ?_, ?_, ?_, ?_⟩
  all_goals
    rw [hcoeff _ (by decide)]
    simp [Nat.testBit]

theorem ofByte_timesX (b : UInt8) : ofByte (timesX b) = root * ofByte b := by
  obtain ⟨h0, h1, h2, h3, h4, h5, h6, h7⟩ := coeff_timesX b
  unfold ofByte
  simp only [Finset.sum_range_succ, Finset.sum_range_zero, h0, h1, h2, h3, h4, h5, h6, h7]
  linear_combination -coeff b 7 * root_pow_eight

theorem ofByte_mul (a b : UInt8) : ofByte (mul a b) = ofByte a * ofByte b := by
  have hbit : ∀ i, ofByte (if b.toNat.testBit i then a else 0) = coeff b i * ofByte a := by
    intro i
    unfold coeff
    cases b.toNat.testBit i <;> simp
  have hsum : ofByte b = coeff b 0 + coeff b 1 * root + coeff b 2 * root ^ 2 + coeff b 3 * root ^ 3 +
      coeff b 4 * root ^ 4 + coeff b 5 * root ^ 5 + coeff b 6 * root ^ 6 + coeff b 7 * root ^ 7 := by
    simp [ofByte, Finset.sum_range_succ]
  have hmul : mul a b = (List.range 8).foldl
      (fun acc i => timesX acc ^^^ (if b.toNat.testBit (7 - i) then a else 0)) 0 := rfl
  simp only [show List.range 8 = [0, 1, 2, 3, 4, 5, 6, 7] from rfl, List.foldl_cons,
    List.foldl_nil] at hmul
  rw [hmul, hsum]
  simp only [ofByte_xor, ofByte_timesX, hbit, ofByte_zero]
  ring

/-! ## The field -/

/-- A nonzero byte is a unit of the ring, so no two bytes are one element. -/
theorem ofByte_injective : Function.Injective ofByte := by
  intro a b h
  by_contra hne
  have hdiff : a ^^^ b ≠ 0 := by
    intro hzero
    exact hne (UInt8.xor_eq_zero_iff.mp hzero)
  have hzero : ofByte (a ^^^ b) = 0 := by rw [ofByte_xor, h, add_self]
  have hone := ofByte_mul (a ^^^ b) (inv (a ^^^ b))
  rw [mul_inv hdiff, ofByte_one, hzero, zero_mul] at hone
  exact one_ne_zero hone

/-- Sums and multiples by `x` of bytes are bytes, and there is nothing else. -/
theorem ofByte_surjective : Function.Surjective ofByte := by
  intro e
  induction e using AdjoinRoot.induction_on with
  | ih p =>
    induction p using Polynomial.induction_on with
    | C a =>
      rcases (show a = 0 ∨ a = 1 by revert a; decide) with rfl | rfl
      · exact ⟨0, by simp⟩
      · exact ⟨1, by simp⟩
    | add p q hp hq =>
      obtain ⟨a, ha⟩ := hp
      obtain ⟨b, hb⟩ := hq
      exact ⟨a ^^^ b, by rw [ofByte_xor, ha, hb, map_add]⟩
    | monomial n a h =>
      obtain ⟨b, hb⟩ := h
      refine ⟨timesX b, ?_⟩
      rw [ofByte_timesX, hb, pow_succ, ← mul_assoc, map_mul _ (C a * X ^ n), AdjoinRoot.mk_X,
        mul_comm]
      rfl

theorem ofByte_bijective : Function.Bijective ofByte := ⟨ofByte_injective, ofByte_surjective⟩

theorem isField_elt : IsField Elt where
  exists_pair_ne := ⟨0, 1, zero_ne_one⟩
  mul_comm := mul_comm
  mul_inv_cancel := by
    intro e he
    obtain ⟨b, rfl⟩ := ofByte_surjective e
    have hb : b ≠ 0 := by
      rintro rfl
      exact he ofByte_zero
    exact ⟨ofByte (inv b), by rw [← ofByte_mul, mul_inv hb, ofByte_one]⟩

/-- The modulus is irreducible, its quotient being a field. -/
theorem irreducible_modulus : Irreducible modulus := by
  have hne : modulus ≠ 0 := by
    intro hzero
    have hdegree := degree_modulus
    rw [hzero, degree_zero] at hdegree
    cases hdegree
  have hmax : (Ideal.span {modulus}).IsMaximal := Ideal.Quotient.maximal_of_isField _ isField_elt
  exact ((Ideal.span_singleton_prime hne).mp hmax.isPrime).irreducible

instance : Fact (Irreducible modulus) := ⟨irreducible_modulus⟩

/-- `inv` is the inverse of the field. -/
theorem ofByte_inv (b : UInt8) : ofByte (inv b) = (ofByte b)⁻¹ := by
  by_cases hb : b = 0
  · simp [hb, inv_zero]
  · apply eq_inv_of_mul_eq_one_right
    rw [← ofByte_mul, mul_inv hb, ofByte_one]

/-- The byte of an element. -/
noncomputable def toByte (e : Elt) : UInt8 := (Equiv.ofBijective ofByte ofByte_bijective).symm e

@[simp] theorem toByte_ofByte (b : UInt8) : toByte (ofByte b) = b :=
  (Equiv.ofBijective ofByte ofByte_bijective).symm_apply_apply b

@[simp] theorem ofByte_toByte (e : Elt) : ofByte (toByte e) = e :=
  (Equiv.ofBijective ofByte ofByte_bijective).apply_symm_apply e

end GF256
