import Mathlib.NumberTheory.LucasPrimality
import Tamga.Lib.Ladder

/-!
# `Lib.Pratt` — primality of large numbers by certificate

Lucas' criterion asks for an element whose order modulo `p` is `p - 1`, and that needs the prime factors
of `p - 1`. Given those, `lucasCheck` is a computation of a few thousand multiplications, so that a prime
of several hundred bits is proved by evaluating it (`prime_of_lucasCheck`).
-/

namespace Pratt

open Ladder

/-- `a ^ e % m`, by the binary ladder. -/
def powMod (m a e : Nat) : Nat :=
  ladder (fun x => x * x % m) (fun x => x * a % m) e.testBit (e.log2 + 1) (1 % m)

theorem powMod_eq (m a e : Nat) : powMod m a e = a ^ e % m := by
  refine @ladder_rep_zero Nat _ _ (fun x k => x = a ^ k % m) ?_ ?_ e _ Nat.lt_log2_self _ (by rw [pow_zero])
  · rintro x k rfl
    rw [← Nat.mul_mod, two_mul, pow_add]
  · rintro x k rfl
    rw [Nat.mod_mul_mod, pow_succ]

/-- `a` has order `p - 1` modulo `p`, where `factors` are the prime factors of `p - 1`. -/
def lucasCheck (p a : Nat) (factors : List Nat) : Bool :=
  decide (1 < p) && factors.prod == p - 1 && powMod p a (p - 1) == 1 &&
    factors.all fun q => powMod p a ((p - 1) / q) != 1

/-- **Lucas' criterion**, evaluated. -/
theorem prime_of_lucasCheck {p a : Nat} {factors : List Nat} (hprime : ∀ q ∈ factors, q.Prime)
    (hcheck : lucasCheck p a factors = true) : p.Prime := by
  simp only [lucasCheck, Bool.and_eq_true, decide_eq_true_eq, beq_iff_eq, List.all_eq_true, bne_iff_ne,
    powMod_eq] at hcheck
  obtain ⟨⟨⟨hp, hprod⟩, hone⟩, hne⟩ := hcheck
  have hcast : ∀ e : Nat, (a : ZMod p) ^ e = 1 ↔ a ^ e % p = 1 := by
    intro e
    have h := ZMod.natCast_eq_natCast_iff' (a ^ e) 1 p
    rw [Nat.cast_pow, Nat.cast_one, Nat.mod_eq_of_lt hp] at h
    exact h
  apply lucas_primality p (a : ZMod p) ((hcast _).mpr hone)
  intro q hq hdvd
  -- a prime that divides the product is one of the factors
  obtain ⟨r, hr, hqr⟩ := (hq.prime.dvd_prod_iff).mp (hprod ▸ hdvd)
  obtain rfl : q = r := (Nat.prime_dvd_prime_iff_eq hq (hprime r hr)).mp hqr
  rw [ne_eq, hcast]
  exact hne q hr

end Pratt
