import Mathlib.Data.Nat.Bitwise
import Mathlib.Data.Nat.Digits.Lemmas
import Mathlib.Tactic

/-!
# `Lib.Ladder` — the binary ladder

Double, and add where the bit is set, from the most significant bit down: powers by squaring and
multiples of a point are the same loop. What an accumulator stands for is a relation to a number, and
the ladder needs to know only that doubling doubles it and adding adds one (`ladder_rep`).
-/

namespace Ladder

variable {α : Type}

/-- `for (bit = n - 1; bit >= 0; bit--)`. -/
def ladder (double add : α → α) (bit : Nat → Bool) : (n : Nat) → α → α
  | 0, acc => acc
  | n + 1, acc =>
      let acc := double acc
      ladder double add bit n (if bit n then add acc else acc)

theorem mod_two_pow_succ (N n : Nat) : N % 2 ^ (n + 1) = (N.testBit n).toNat * 2 ^ n + N % 2 ^ n := by
  rw [Nat.mod_pow_succ, Nat.toNat_testBit]
  ring

variable {double add : α → α}

/-- The ladder over the bits of `N` appends them to what the accumulator stood for. -/
theorem ladder_rep {Rep : α → Nat → Prop}
    (hdouble : ∀ a k, Rep a k → Rep (double a) (2 * k)) (hadd : ∀ a k, Rep a k →
      Rep (add a) (k + 1)) (N : Nat) :
    ∀ (n : Nat) (acc : α) (k : Nat), Rep acc k →
      Rep (ladder double add N.testBit n acc) (k * 2 ^ n + N % 2 ^ n) := by
  intro n
  induction n with
  | zero =>
    intro acc k h
    simpa [ladder, Nat.mod_one] using h
  | succ n ih =>
    intro acc k h
    have hdoubled := hdouble acc k h
    rw [ladder]
    cases hbit : N.testBit n with
    | true =>
      have h' := ih _ _ (hadd _ _ hdoubled)
      have heq : k * 2 ^ (n + 1) + N % 2 ^ (n + 1) = (2 * k + 1) * 2 ^ n + N % 2 ^ n := by
        rw [mod_two_pow_succ, hbit, Bool.toNat_true, pow_succ]
        ring
      rw [heq]
      exact h'
    | false =>
      have h' := ih _ _ hdoubled
      have heq : k * 2 ^ (n + 1) + N % 2 ^ (n + 1) = 2 * k * 2 ^ n + N % 2 ^ n := by
        rw [mod_two_pow_succ, hbit, Bool.toNat_false, pow_succ]
        ring
      rw [heq]
      exact h'

/-- All the bits, from nothing. -/
theorem ladder_rep_zero {Rep : α → Nat → Prop}
    (hdouble : ∀ a k, Rep a k → Rep (double a) (2 * k)) (hadd : ∀ a k, Rep a k →
      Rep (add a) (k + 1)) {N n : Nat}
    (hN : N < 2 ^ n) {acc : α} (hacc : Rep acc 0) : Rep (ladder double add N.testBit n acc) N := by
  have h := ladder_rep hdouble hadd N n acc 0 hacc
  rwa [Nat.zero_mul, Nat.zero_add, Nat.mod_eq_of_lt hN] at h

/-- Only the bits that the ladder visits matter. -/
theorem ladder_congr {bit bit' : Nat → Bool} {n : Nat} (h : ∀ i, i < n → bit i = bit' i) :
    ∀ acc, ladder double add bit n acc = ladder double add bit' n acc := by
  induction n with
  | zero =>
    intro acc
    rfl
  | succ n ih =>
    intro acc
    rw [ladder, ladder, h n (Nat.lt_succ_self n), ih fun i hi => h i (Nat.lt_succ_of_lt hi)]

/-- The highest bit set below `n`. -/
def highest (bit : Nat → Bool) : (n : Nat) → Option Nat
  | 0 => none
  | n + 1 => if bit n then some n else highest bit n

theorem lt_of_testBit_false {N n : Nat} (hN : N < 2 ^ (n + 1)) (h : N.testBit n = false) : N < 2 ^ n := by
  have hmod := mod_two_pow_succ N n
  rw [Nat.mod_eq_of_lt hN, h, Bool.toNat_false, Nat.zero_mul, Nat.zero_add] at hmod
  rw [hmod]
  exact Nat.mod_lt _ (Nat.two_pow_pos n)

theorem highest_none {bit : Nat → Bool} {N n : Nat} (hbit : ∀ i, i < n → bit i = N.testBit i)
    (hN : N < 2 ^ n) :
    highest bit n = none ↔ N = 0 := by
  induction n with
  | zero => simpa [highest] using hN
  | succ n ih =>
    rw [highest, hbit n (Nat.lt_succ_self n)]
    cases hn : N.testBit n with
    | true =>
      have hne : N ≠ 0 := by
        rintro rfl
        simp at hn
      simp [hne]
    | false =>
      exact ih (fun i hi => hbit i (Nat.lt_succ_of_lt hi)) (lt_of_testBit_false hN hn)

theorem highest_some {bit : Nat → Bool} {N n : Nat} (hbit : ∀ i, i < n → bit i = N.testBit i) (hN : N < 2 ^ n)
    {top : Nat} (h : highest bit n = some top) : top < n ∧ N < 2 ^ (top + 1) := by
  induction n with
  | zero => exact absurd h (by simp [highest])
  | succ n ih =>
    rw [highest, hbit n (Nat.lt_succ_self n)] at h
    cases hn : N.testBit n with
    | true =>
      rw [hn, if_pos rfl] at h
      obtain rfl := Option.some.inj h
      exact ⟨Nat.lt_succ_self _, hN⟩
    | false =>
      rw [hn, if_neg Bool.false_ne_true] at h
      obtain ⟨htop, hN'⟩ := ih (fun i hi => hbit i (Nat.lt_succ_of_lt hi)) (lt_of_testBit_false hN hn) h
      exact ⟨Nat.lt_succ_of_lt htop, hN'⟩

/-- A bit of a number is a bit of one of its digits, in a base that is a power of two. -/
theorem testBit_ofDigits {w : Nat} (hw : 0 < w) : ∀ (digits : List Nat), (∀ d ∈ digits, d < 2 ^ w) → ∀ i,
    (Nat.ofDigits (2 ^ w) digits).testBit i = (digits.getD (i / w) 0).testBit (i % w) := by
  intro digits
  induction digits with
  | nil =>
    intro _ i
    simp
  | cons d digits ih =>
    intro hlt i
    have hd : d < 2 ^ w := hlt d (by simp)
    have hrest := ih (fun x hx => hlt x (by simp [hx]))
    rw [Nat.ofDigits_cons, Nat.add_comm, Nat.testBit_two_pow_mul_add _ hd]
    split
    · rename_i hi
      rw [Nat.div_eq_of_lt hi, Nat.mod_eq_of_lt hi]
      rfl
    · rename_i hi
      have hdiv : i / w = (i - w) / w + 1 := by
        rw [← Nat.add_div_right _ hw, Nat.sub_add_cancel (by omega)]
      have hmod : i % w = (i - w) % w := Nat.mod_eq_sub_mod (by omega)
      rw [hrest, hdiv, hmod]
      rfl

end Ladder
