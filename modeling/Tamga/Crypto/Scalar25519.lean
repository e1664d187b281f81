import Tamga.Lib.Limbs
import Tamga.Mem

/-!
# `Crypto.Scalar25519` — scalars modulo the group order (`crypto/ed25519.c`)

`tamga_sc_reduce512` is binary long division: after `k` steps the remainder is the residue of the top `k`
bits of the dividend (`value_scRemainder`), and that it stays below the order is what keeps the shift from
losing a bit.
-/

namespace Tamga.Ed25519

open Limbs Octets

/-! ## The program -/

/-- `TAMGA_SC_L`, least significant byte first. -/
def scL : Bytes :=
  [0xed, 0xd3, 0xf5, 0x5c, 0x1a, 0x63, 0x12, 0x58, 0xd6, 0x9c, 0xf7, 0xa2, 0xde, 0xf9, 0xde, 0x14,
    0x00, 0x00, 0x00,
    0x00, 0x00, 0x00, 0x00, 0x00, 0x00, 0x00, 0x00, 0x00, 0x00, 0x00, 0x00, 0x10]

/-- The loop of `tamga_sc_is_canonical`, from the most significant byte down. -/
def canonicalLoop : List (UInt8 × UInt8) → Bool
  | [] => false
  | (s, l) :: rest => if s < l then true else if s > l then false else canonicalLoop rest

/-- `tamga_sc_is_canonical`. -/
def scIsCanonical (s : Bytes) : Bool := canonicalLoop (List.zip s scL).reverse

/-- `tamga_sc_load_l`. -/
def scLoadL : Num 8 := ⟨loadLe 8 scL, length_loadLe 8 scL⟩

/-- The bit a step shifts in. -/
def nextBit (input : Bytes) (bit : Nat) : UInt32 :=
  ((input.getD (bit / 8) 0).toUInt32 >>> UInt32.ofNat (bit % 8)) &&& 1

/-- One step: shift the bit in, and subtract the order where that leaves no borrow. -/
def scStep (remainder : Num 8) (bit : UInt32) : Num 8 :=
  let shifted := (remainder.shiftLeft bit).1
  let candidate := shifted.sub scLoadL
  if candidate.2 = 0 then candidate.1 else shifted

/-- The remainder after `k` steps of the loop `for (bit = 511; bit >= 0; bit--)`. -/
def scRemainder (input : Bytes) : (k : Nat) → Num 8
  | 0 => Limbs.Num.zero 8
  | k + 1 => scStep (scRemainder input k) (nextBit input (511 - k))

/-- `tamga_sc_reduce512`. -/
def scReduce512 (input : Bytes) : Bytes := storeLe (scRemainder input 512).limbs

/-! ## The order -/

/-- The order of the prime-order subgroup. -/
def order : Nat := 2 ^ 252 + 27742317777372353535851937790883648493

theorem le_scL : le scL = order := by
  simp [scL, order]

theorem value_scLoadL : scLoadL.value = order := by
  rw [← le_scL]
  exact value_loadLe 8 scL rfl

/-! ## Comparison -/

/-- Where the bytes above agree, the first pair that differs decides. -/
theorem canonicalLoop_iff (pairs : List (UInt8 × UInt8)) :
    canonicalLoop pairs.reverse = true ↔ le (pairs.map Prod.fst) < le (pairs.map Prod.snd) := by
  induction pairs using List.reverseRecOn with
  | nil => simp [canonicalLoop]
  | append_singleton pairs pair ih =>
    obtain ⟨s, l⟩ := pair
    have hlow := le_lt (pairs.map Prod.fst)
    have hlow' := le_lt (pairs.map Prod.snd)
    rw [List.reverse_append, List.reverse_singleton, List.singleton_append, canonicalLoop, List.map_append,
      List.map_append, le_append, le_append, List.length_map, List.length_map]
    rw [List.length_map] at hlow hlow'
    simp only [List.map_cons, List.map_nil, le_cons, le_nil, Nat.mul_zero, Nat.add_zero]
    rcases Nat.lt_trichotomy s.toNat l.toNat with h | h | h
    · have hstep := Nat.mul_le_mul_left (256 ^ pairs.length) (by omega : s.toNat + 1 ≤ l.toNat)
      rw [Nat.mul_succ] at hstep
      rw [if_pos (UInt8.lt_iff_toNat_lt.mpr h)]
      simp only [true_iff]
      omega
    · rw [if_neg (fun hlt => by have := UInt8.lt_iff_toNat_lt.mp hlt; omega),
        if_neg (fun hlt => by have := UInt8.lt_iff_toNat_lt.mp hlt; omega), ih, h]
      omega
    · have hstep := Nat.mul_le_mul_left (256 ^ pairs.length) (by omega : l.toNat + 1 ≤ s.toNat)
      rw [Nat.mul_succ] at hstep
      rw [if_neg (fun hlt => by have := UInt8.lt_iff_toNat_lt.mp hlt; omega),
          if_pos (UInt8.lt_iff_toNat_lt.mpr h)]
      simp only [Bool.false_eq_true, false_iff]
      omega

/-- `tamga_sc_is_canonical` is the comparison with the order. -/
theorem scIsCanonical_iff {s : Bytes} (hlen : s.length = 32) : scIsCanonical s = true ↔ le s < order := by
  have hsame : s.length = scL.length := hlen
  rw [scIsCanonical, canonicalLoop_iff, List.map_fst_zip (by omega), List.map_snd_zip (by omega), le_scL]

/-! ## Division -/

theorem toNat_nextBit (input : Bytes) (bit : Nat) :
    (nextBit input bit).toNat = ((le input).testBit bit).toNat := by
  have hk : bit % 8 < 8 := Nat.mod_lt _ (by decide)
  have hshift : (UInt32.ofNat (bit % 8)).toNat % 32 = bit % 8 := by
    rw [UInt32.toNat_ofNat_of_lt' (lt_trans hk (by decide)), Nat.mod_eq_of_lt (by omega)]
  rw [← bitLe_eq, bitLe, shift_and_one _ hk, nextBit, UInt32.toNat_and, UInt32.toNat_shiftRight, hshift,
    UInt8.toNat_toUInt32, Nat.toNat_testBit, Nat.shiftRight_eq_div_pow]
  exact Nat.and_one_is_mod _

/-- A step appends a bit to a reduced remainder and reduces again. -/
theorem value_scStep {remainder : Num 8} {bit : UInt32} (hlt : remainder.value < order)
    (hbit : bit.toNat ≤ 1) :
    (scStep remainder bit).value = (2 * remainder.value + bit.toNat) % order := by
  have horder : order < 2 ^ 253 := by norm_num [order]
  obtain ⟨hshift, -⟩ := remainder.value_shiftLeft hbit
  have hvalue : (remainder.shiftLeft bit).1.value = 2 * remainder.value + bit.toNat := by omega
  have hload := value_scLoadL
  by_cases hle : scLoadL.value ≤ (remainder.shiftLeft bit).1.value
  · obtain ⟨hdiff, hborrow⟩ := Num.value_sub_of_le hle
    have heq : scStep remainder bit = ((remainder.shiftLeft bit).1.sub scLoadL).1 := if_pos hborrow
    rw [heq, hdiff, hload, hvalue, Nat.mod_eq_sub_mod (by omega), Nat.mod_eq_of_lt (by omega)]
  · obtain ⟨-, hborrow⟩ := Num.value_sub_of_lt (by omega : (remainder.shiftLeft bit).1.value < scLoadL.value)
    have heq : scStep remainder bit = (remainder.shiftLeft bit).1 := if_neg (by rw [hborrow]; decide)
    rw [heq, hvalue, Nat.mod_eq_of_lt (by omega)]

/-- After `k` steps the remainder is the residue of the top `k` bits. -/
theorem value_scRemainder {input : Bytes} (hlen : input.length = 64) : ∀ k ≤ 512,
    (scRemainder input k).value = le input / 2 ^ (512 - k) % order := by
  have hpos : 0 < order := by norm_num [order]
  intro k
  induction k with
  | zero =>
    intro _
    have hlt := le_lt input
    rw [hlen, show 256 = 2 ^ 8 from rfl, ← pow_mul] at hlt
    rw [scRemainder, Num.value_zero, show 512 - 0 = 8 * 64 from rfl, Nat.div_eq_of_lt hlt, Nat.zero_mod]
  | succ k ih =>
    intro hk
    have hprev := ih (by omega)
    have hbit := toNat_nextBit input (511 - k)
    have hle : (nextBit input (511 - k)).toNat ≤ 1 := by
      rw [hbit]
      exact Bool.toNat_le _
    have hsplit : le input / 2 ^ (512 - (k + 1)) =
        2 * (le input / 2 ^ (512 - k)) + ((le input).testBit (511 - k)).toNat := by
      rw [Nat.toNat_testBit, show 512 - k = 511 - k + 1 by omega, show 512 - (k + 1) =
          511 - k by omega, pow_succ,
        ← Nat.div_div_eq_div_mul]
      omega
    rw [scRemainder, value_scStep (by rw [hprev]; exact Nat.mod_lt _ hpos) hle, hprev, hbit, hsplit,
      Nat.add_mod, Nat.mul_mod, Nat.mod_mod, ← Nat.mul_mod, ← Nat.add_mod]

/-- **Scalar reduction is exact.** The bytes written spell the residue; no step leaves a remainder of the
    order or more; and a scalar is canonical exactly when it is below the order. -/
theorem scalar_exact {input s : Bytes} (hinput : input.length = 64) (hs : s.length = 32) :
    (scReduce512 input).length = 32 ∧ le (scReduce512 input) = le input % order ∧
      (∀ k ≤ 512, (scRemainder input k).value < order) ∧ (scIsCanonical s = true ↔ le s < order) := by
  refine ⟨?_, ?_, ?_, scIsCanonical_iff hs⟩
  · rw [scReduce512, length_storeLe, (scRemainder input 512).size]
  · rw [scReduce512, le_storeLe]
    have h := value_scRemainder hinput 512 (le_refl _)
    rwa [Nat.sub_self, pow_zero, Nat.div_one] at h
  · intro k hk
    rw [value_scRemainder hinput k hk]
    exact Nat.mod_lt _ (by norm_num [order])

/-- The largest dividend, and the order itself, which is not canonical. -/
theorem scalar_exact_max : le (scReduce512 (List.replicate 64 0xff)) = (2 ^ 512 - 1) % order ∧
    scIsCanonical scL = false := by
  obtain ⟨-, hvalue, -, hcanonical⟩ := @scalar_exact (List.replicate 64 0xff) scL rfl rfl
  have hall : le (List.replicate 64 0xff) = 2 ^ 512 - 1 := by decide +kernel
  refine ⟨by rw [hvalue, hall], ?_⟩
  rw [Bool.eq_false_iff, ne_eq, hcanonical, le_scL]
  exact lt_irrefl _

end Tamga.Ed25519
