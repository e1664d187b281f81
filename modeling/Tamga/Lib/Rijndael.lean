import Mathlib.Algebra.Polynomial.Div
import Mathlib.Data.Fin.VecNotation
import Mathlib.Tactic.FinCases
import Tamga.Lib.GF256

/-!
# `Lib.Rijndael` — the cipher of FIPS 197 over the field of 256 elements

The state is four rows and four columns of bytes. The substitution is inversion in the field followed by
an affine map of the bits, and a column is mixed by multiplying it, as a polynomial over the field, by
`{03}x^3 + {01}x^2 + {01}x + {02}` modulo `x^4 + 1`. `cipher_bijective` says that the rounds, under any
round keys, permute the states.
-/

namespace Rijndael

open GF256 Polynomial

abbrev Word : Type := Fin 4 → UInt8

/-- Row, then column. -/
abbrev State : Type := Fin 4 → Fin 4 → UInt8

/-! ## The four steps of a round -/

/-- A bit of the affine map. -/
def affineBit (c : UInt8) (i : Nat) : Bool :=
  c.toNat.testBit i ^^ c.toNat.testBit ((i + 4) % 8) ^^ c.toNat.testBit ((i + 5) % 8) ^^
    c.toNat.testBit ((i + 6) % 8) ^^ c.toNat.testBit ((i + 7) % 8) ^^ Nat.testBit 0x63 i

def affine (c : UInt8) : UInt8 :=
  UInt8.ofNat ((List.range 8).foldl (fun acc i => if affineBit c i then acc + 2 ^ i else acc) 0)

/-- The substitution: zero stands for its own inverse. -/
noncomputable def sBox (b : UInt8) : UInt8 := affine (toByte (ofByte b)⁻¹)

noncomputable def subBytes (s : State) : State := fun r c => sBox (s r c)

/-- Row `r` is rotated left by `r`. -/
def shiftRows (s : State) : State := fun r c => s r (c + r)

/-- `a_3 x^3 + a_2 x^2 + a_1 x + a_0`. -/
noncomputable def columnPoly (a : Word) : Elt[X] :=
  C (ofByte (a 0)) + C (ofByte (a 1)) * X + C (ofByte (a 2)) * X ^ 2 + C (ofByte (a 3)) * X ^ 3

/-- `{03}x^3 + {01}x^2 + {01}x + {02}`. -/
noncomputable def mixPoly : Elt[X] :=
  C (ofByte 2) + C (ofByte 1) * X + C (ofByte 1) * X ^ 2 + C (ofByte 3) * X ^ 3

noncomputable def mixColumn (a : Word) : Word := fun r =>
  toByte ((mixPoly * columnPoly a %ₘ (X ^ 4 + 1)).coeff r)

noncomputable def mixColumns (s : State) : State := fun r c => mixColumn (fun r => s r c) r

/-- Round `round` takes four words of the expanded key, one for each column. -/
def addRoundKey (w : Nat → Word) (round : Nat) (s : State) : State := fun r c =>
  s r c ^^^ w (4 * round + c) r

/-! ## The cipher -/

/-- The rounds before the last one. -/
noncomputable def fullRound (w : Nat → Word) (s : State) (round : Nat) : State :=
  addRoundKey w round (mixColumns (shiftRows (subBytes s)))

/-- `nr` rounds; the last one does not mix the columns. -/
noncomputable def cipher (nr : Nat) (w : Nat → Word) (s : State) : State :=
  addRoundKey w nr (shiftRows (subBytes
    ((List.range' 1 (nr - 1)).foldl (fullRound w) (addRoundKey w 0 s))))

/-! ## The key expansion -/

/-- `x^(j-1)`. -/
noncomputable def rcon (j : Nat) : UInt8 := toByte (root ^ (j - 1))

noncomputable def subWord (a : Word) : Word := fun r => sBox (a r)

def rotWord (a : Word) : Word := fun r => a (r + 1)

/-- What is added to the word `nk` places back. -/
noncomputable def keyTemp (nk i : Nat) (last : Word) : Word :=
  if i % nk = 0 then fun r => subWord (rotWord last) r ^^^ (if r = 0 then rcon (i / nk) else 0)
  else if 6 < nk ∧ i % nk = 4 then subWord last
  else last

/-- The expanded key of a key of `nk` words. -/
noncomputable def expandedKey (nk : Nat) (key : Nat → Word) (i : Nat) : Word :=
  if _h : i < nk ∨ nk = 0 then key i
  else fun r =>
    expandedKey nk key (i - nk) r ^^^ keyTemp nk i (expandedKey nk key (i - 1)) r
termination_by i
decreasing_by all_goals omega

/-! ## Bytes for field elements -/

theorem sBox_eq (b : UInt8) : sBox b = affine (inv b) := by
  rw [sBox, ← ofByte_inv, toByte_ofByte]

theorem ofByte_two : ofByte 2 = root := by
  have h := ofByte_timesX 1
  rwa [ofByte_one, mul_one] at h

theorem ofByte_three : ofByte 3 = root + 1 := by
  have h := ofByte_xor 2 1
  rwa [ofByte_one, ofByte_two] at h

theorem rcon_succ (j : Nat) : rcon (j + 2) = timesX (rcon (j + 1)) := by
  apply ofByte_injective
  rw [ofByte_timesX, rcon, rcon, ofByte_toByte, ofByte_toByte, ← pow_succ']
  rfl

theorem rcon_one : rcon 1 = 1 := by
  rw [rcon, Nat.sub_self, pow_zero, ← ofByte_one, toByte_ofByte]

theorem fin4_cases (r : Fin 4) : r = 0 ∨ r = 1 ∨ r = 2 ∨ r = 3 := by
  revert r
  decide

/-- A polynomial of degree at most three. -/
noncomputable def cubic (a b c d : Elt) : Elt[X] := C a + C b * X + C c * X ^ 2 + C d * X ^ 3

theorem coeff_cubic (a b c d : Elt) :
    (cubic a b c d).coeff 0 = a ∧ (cubic a b c d).coeff 1 = b ∧ (cubic a b c d).coeff 2 = c ∧
      (cubic a b c d).coeff 3 = d := by
  unfold cubic
  refine ⟨?_, ?_, ?_, ?_⟩ <;> simp [coeff_X, coeff_C, coeff_X_pow]

theorem degree_cubic_lt (a b c d : Elt) : (cubic a b c d).degree < 4 := by
  unfold cubic
  have h : (C a + C b * X + C c * X ^ 2 + C d * X ^ 3).degree ≤ 3 := by compute_degree
  exact lt_of_le_of_lt h (by decide)

/-- Multiplication modulo `x^4 + 1`: the coefficients from `x^4` on come back at the front. -/
theorem cubic_mul (a b c d e f g h : Elt) :
    cubic a b c d * cubic e f g h %ₘ (X ^ 4 + 1) =
      cubic (a * e + d * f + c * g + b * h) (b * e + a * f + d * g + c * h)
        (c * e + b * f + a * g + d * h) (d * e + c * f + b * g + a * h) := by
  have hmonic : (X ^ 4 + 1 : Elt[X]).Monic := by monicity!
  have hdegree : (X ^ 4 + 1 : Elt[X]).degree = 4 := by compute_degree!
  have htwo : (2 : Elt[X]) = 0 := by
    rw [← C_ofNat, two_eq_zero, C_0]
  refine (div_modByMonic_unique (cubic (b * h + c * g + d * f) (c * h + d * g) (d * h) 0) _ hmonic
    ⟨?_, ?_⟩).2
  · unfold cubic
    simp only [C_add, C_mul, C_0]
    linear_combination (C b * C h + C c * C g + C d * C f + (C c * C h + C d * C g) * X +
      C d * C h * X ^ 2) * htwo
  · rw [hdegree]
    exact degree_cubic_lt _ _ _ _

theorem ofByte_mixColumn (a : Word) (r : Fin 4) :
    ofByte (mixColumn a r) =
      root * ofByte (a r) + (root + 1) * ofByte (a (r + 1)) + ofByte (a (r + 2)) +
        ofByte (a (r + 3)) := by
  have hproduct : mixPoly * columnPoly a %ₘ (X ^ 4 + 1) = _ :=
    cubic_mul (ofByte 2) (ofByte 1) (ofByte 1) (ofByte 3) (ofByte (a 0)) (ofByte (a 1)) (ofByte (a 2))
      (ofByte (a 3))
  obtain ⟨h0, h1, h2, h3⟩ := coeff_cubic
    (ofByte 2 * ofByte (a 0) + ofByte 3 * ofByte (a 1) + ofByte 1 * ofByte (a 2) +
      ofByte 1 * ofByte (a 3))
    (ofByte 1 * ofByte (a 0) + ofByte 2 * ofByte (a 1) + ofByte 3 * ofByte (a 2) +
      ofByte 1 * ofByte (a 3))
    (ofByte 1 * ofByte (a 0) + ofByte 1 * ofByte (a 1) + ofByte 2 * ofByte (a 2) +
      ofByte 3 * ofByte (a 3))
    (ofByte 3 * ofByte (a 0) + ofByte 1 * ofByte (a 1) + ofByte 1 * ofByte (a 2) +
      ofByte 2 * ofByte (a 3))
  unfold mixColumn
  rw [ofByte_toByte, hproduct]
  rcases fin4_cases r with rfl | rfl | rfl | rfl
  · show (cubic _ _ _ _).coeff 0 = root * ofByte (a 0) + (root + 1) * ofByte (a 1) + ofByte (a 2) +
      ofByte (a 3)
    rw [h0, ofByte_one, ofByte_two, ofByte_three]
    ring
  · show (cubic _ _ _ _).coeff 1 = root * ofByte (a 1) + (root + 1) * ofByte (a 2) + ofByte (a 3) +
      ofByte (a 0)
    rw [h1, ofByte_one, ofByte_two, ofByte_three]
    ring
  · show (cubic _ _ _ _).coeff 2 = root * ofByte (a 2) + (root + 1) * ofByte (a 3) + ofByte (a 0) +
      ofByte (a 1)
    rw [h2, ofByte_one, ofByte_two, ofByte_three]
    ring
  · show (cubic _ _ _ _).coeff 3 = root * ofByte (a 3) + (root + 1) * ofByte (a 0) + ofByte (a 1) +
      ofByte (a 2)
    rw [h3, ofByte_one, ofByte_two, ofByte_three]
    ring

/-! ## The cipher permutes the states -/

theorem finite_uint8 : Finite UInt8 := by
  apply Finite.of_injective (fun b : UInt8 => (⟨b.toNat, b.toNat_lt⟩ : Fin 256))
  intro a b h
  exact UInt8.toNat_inj.mp (Fin.mk.inj h)

theorem affine_injective : Function.Injective affine := by
  -- the inverse map: bit `i` is the sum of bits `i + 2`, `i + 5` and `i + 7` and of bit `i` of `{05}`
  have all : ∀ k < 256, ∀ i < 8,
      ((affine (UInt8.ofNat k)).toNat.testBit ((i + 2) % 8) ^^
        (affine (UInt8.ofNat k)).toNat.testBit ((i + 5) % 8) ^^
        (affine (UInt8.ofNat k)).toNat.testBit ((i + 7) % 8) ^^ Nat.testBit 0x05 i) =
      (UInt8.ofNat k).toNat.testBit i := by
    decide +kernel
  have hbits := forall_byte (P := fun b => ∀ i < 8,
      ((affine b).toNat.testBit ((i + 2) % 8) ^^ (affine b).toNat.testBit ((i + 5) % 8) ^^
        (affine b).toNat.testBit ((i + 7) % 8) ^^ Nat.testBit 0x05 i) = b.toNat.testBit i) all
  intro a b h
  apply UInt8.toNat_inj.mp
  apply Nat.eq_of_testBit_eq
  intro i
  by_cases hi : i < 8
  · rw [← hbits a i hi, ← hbits b i hi, h]
  · have hpow : 2 ^ 8 ≤ 2 ^ i := Nat.pow_le_pow_right (by decide) (by omega)
    rw [Nat.testBit_lt_two_pow (lt_of_lt_of_le a.toNat_lt hpow),
      Nat.testBit_lt_two_pow (lt_of_lt_of_le b.toNat_lt hpow)]

theorem sBox_injective : Function.Injective sBox := by
  intro a b h
  have hinv := congrArg ofByte (affine_injective h)
  rw [ofByte_toByte, ofByte_toByte, inv_inj] at hinv
  exact ofByte_injective hinv

theorem subBytes_injective : Function.Injective subBytes := by
  intro s t h
  funext r c
  exact sBox_injective (congrFun (congrFun h r) c)

theorem shiftRows_injective : Function.Injective shiftRows := by
  intro s t h
  funext r c
  have hrc := congrFun (congrFun h r) (c - r)
  unfold shiftRows at hrc
  rwa [sub_add_cancel] at hrc

/-- The mixing of a column in the field. -/
noncomputable def mixElts (v : Fin 4 → Elt) : Fin 4 → Elt := fun r =>
  root * v r + (root + 1) * v (r + 1) + v (r + 2) + v (r + 3)

/-- Mixing twice, the characteristic being two. -/
theorem mixElts_mixElts (v : Fin 4 → Elt) (r : Fin 4) :
    mixElts (mixElts v) r = (root ^ 2 + 1) * v r + root ^ 2 * v (r + 2) := by
  have hadd : r + 1 + 1 = r + 2 ∧ r + 1 + 2 = r + 3 ∧ r + 1 + 3 = r ∧ r + 2 + 1 = r + 3 ∧
      r + 2 + 2 = r ∧ r + 2 + 3 = r + 1 ∧ r + 3 + 1 = r ∧ r + 3 + 2 = r + 1 ∧ r + 3 + 3 = r + 2 := by
    revert r
    decide
  obtain ⟨h11, h12, h13, h21, h22, h23, h31, h32, h33⟩ := hadd
  unfold mixElts
  rw [h11, h12, h13, h21, h22, h23, h31, h32, h33]
  linear_combination ((root + 1) * v r + (root ^ 2 + root + 1) * v (r + 1) +
    (2 * root + 1) * v (r + 2) + (2 * root + 1) * v (r + 3)) * two_eq_zero

/-- Mixing four times changes nothing. -/
theorem mixElts_injective : Function.Injective mixElts := by
  have hfour : ∀ v, mixElts (mixElts (mixElts (mixElts v))) = v := by
    intro v
    funext r
    have hback : r + 2 + 2 = r := by
      revert r
      decide
    rw [mixElts_mixElts, mixElts_mixElts, mixElts_mixElts, hback]
    linear_combination ((root ^ 4 + root ^ 2) * v r + (root ^ 4 + root ^ 2) * v (r + 2)) *
      two_eq_zero
  intro v u h
  rw [← hfour v, ← hfour u, h]

theorem mixColumns_injective : Function.Injective mixColumns := by
  intro s t h
  have hcolumn : ∀ c, (fun r => ofByte (s r c)) = fun r => ofByte (t r c) := by
    intro c
    apply mixElts_injective
    funext r
    have hmix := congrArg ofByte (congrFun (congrFun h r) c)
    unfold mixColumns at hmix
    rwa [ofByte_mixColumn, ofByte_mixColumn] at hmix
  funext r c
  exact ofByte_injective (congrFun (hcolumn c) r)

theorem addRoundKey_injective (w : Nat → Word) (round : Nat) :
    Function.Injective (addRoundKey w round) := by
  intro s t h
  funext r c
  have hxor := congrFun (congrFun h r) c
  unfold addRoundKey at hxor
  exact UInt8.xor_left_inj _ |>.mp hxor

theorem fullRound_injective (w : Nat → Word) (round : Nat) :
    Function.Injective fun s => fullRound w s round := by
  intro s t h
  exact subBytes_injective (shiftRows_injective (mixColumns_injective
    (addRoundKey_injective w round h)))

/-- **A permutation.** Under any round keys. -/
theorem cipher_injective (nr : Nat) (w : Nat → Word) : Function.Injective (cipher nr w) := by
  have hrounds : ∀ rounds : List Nat, Function.Injective fun s => rounds.foldl (fullRound w) s := by
    intro rounds
    induction rounds with
    | nil => exact fun _ _ h => h
    | cons round rounds ih => exact fun s t h => fullRound_injective w round (ih h)
  intro s t h
  exact addRoundKey_injective w 0 (hrounds _ (subBytes_injective (shiftRows_injective
    (addRoundKey_injective w nr h))))

theorem cipher_bijective (nr : Nat) (w : Nat → Word) : Function.Bijective (cipher nr w) := by
  have := finite_uint8
  exact Finite.injective_iff_bijective.mp (cipher_injective nr w)

end Rijndael
