import Mathlib.Data.Nat.Digits.Lemmas
import Mathlib.Tactic

/-!
# `Lib.Decimal` — plain decimal numerals as bytes

`encode` writes a natural number in ASCII decimal, most significant digit first and without leading
zeros; `value` reads any run of digits, and gives the number back (`value_encode`).
-/

namespace Decimal

def isDigit (c : UInt8) : Bool := 48 ≤ c && c ≤ 57

def digitByte (d : Nat) : UInt8 := UInt8.ofNat (48 + d)

def digitValue (c : UInt8) : Nat := c.toNat - 48

def encode (n : Nat) : List UInt8 := if n = 0 then [48] else (Nat.digits 10 n).reverse.map digitByte

def value (t : List UInt8) : Nat := t.foldl (fun acc c => 10 * acc + digitValue c) 0

/-- A non-empty run of digits that starts with `0` only if it is `0`. -/
structure Plain (t : List UInt8) : Prop where
  ne_nil : t ≠ []
  digits : ∀ c ∈ t, isDigit c = true
  no_lead : t.head? = some 48 → t = [48]

theorem isDigit_iff {c : UInt8} : isDigit c = true ↔ 48 ≤ c.toNat ∧ c.toNat ≤ 57 := by
  unfold isDigit
  rw [Bool.and_eq_true, decide_eq_true_eq, decide_eq_true_eq]
  rfl

theorem toNat_digitByte {d : Nat} (hd : d < 10) : (digitByte d).toNat = 48 + d := by
  unfold digitByte
  rw [UInt8.toNat_ofNat']
  omega

theorem isDigit_digitByte {d : Nat} (hd : d < 10) : isDigit (digitByte d) = true := by
  rw [isDigit_iff, toNat_digitByte hd]; omega

theorem digitValue_digitByte {d : Nat} (hd : d < 10) : digitValue (digitByte d) = d := by
  unfold digitValue
  rw [toNat_digitByte hd]; omega

theorem digitByte_digitValue {c : UInt8} (hc : isDigit c = true) : digitByte (digitValue c) = c := by
  rw [isDigit_iff] at hc
  refine UInt8.toNat_inj.mp ?_
  unfold digitValue
  rw [toNat_digitByte (by omega)]; omega

theorem value_eq_ofDigits (t : List UInt8) :
    value t = Nat.ofDigits 10 (t.reverse.map digitValue) := by
  unfold value
  induction t using List.reverseRecOn with
  | nil => rfl
  | append_singleton t c ih =>
    rw [List.foldl_append, ih]
    simp [Nat.ofDigits_cons]
    ring

theorem value_append (s t : List UInt8) : value (s ++ t) = value s * 10 ^ t.length + value t := by
  rw [value_eq_ofDigits, value_eq_ofDigits, value_eq_ofDigits, List.reverse_append, List.map_append,
    Nat.ofDigits_append, List.length_map, List.length_reverse]
  ring

theorem value_zeros (k : Nat) : value (List.replicate k 48) = 0 := by
  induction k with
  | zero => rfl
  | succ k ih => rw [List.replicate_succ', value_append, ih]; rfl

theorem value_lt {t : List UInt8} (h : ∀ c ∈ t, isDigit c = true) : value t < 10 ^ t.length := by
  rw [value_eq_ofDigits]
  have hlt : ∀ d ∈ t.reverse.map digitValue, d < 10 := by
    intro d hd
    obtain ⟨c, hc, rfl⟩ := List.mem_map.mp hd
    have := isDigit_iff.1 (h c (List.mem_reverse.mp hc))
    unfold digitValue
    omega
  have := Nat.ofDigits_lt_base_pow_length (b := 10) (by decide) hlt
  rwa [List.length_map, List.length_reverse] at this

theorem value_encode (n : Nat) : value (encode n) = n := by
  unfold encode
  split
  · subst n; rfl
  · rw [value_eq_ofDigits, ← List.map_reverse, List.reverse_reverse, List.map_map]
    have hid : (Nat.digits 10 n).map (digitValue ∘ digitByte) = Nat.digits 10 n := by
      refine (List.map_congr_left fun d hd => ?_).trans (List.map_id _)
      exact digitValue_digitByte (Nat.digits_lt_base (by decide) hd)
    rw [hid, Nat.ofDigits_digits]

theorem encode_plain (n : Nat) : Plain (encode n) := by
  unfold encode
  split
  · exact ⟨by simp, by decide +kernel, fun _ => rfl⟩
  · rename_i hn
    have hne : Nat.digits 10 n ≠ [] := Nat.digits_ne_nil_iff_ne_zero.mpr hn
    refine ⟨by simpa using hne, ?_, ?_⟩
    · intro c hc
      obtain ⟨d, hd, rfl⟩ := List.mem_map.mp hc
      exact isDigit_digitByte (Nat.digits_lt_base (by decide) (List.mem_reverse.mp hd))
    · -- the leading digit is the last of `digits`, which is not zero
      intro hhead
      exfalso
      rw [List.head?_map, List.head?_reverse, List.getLast?_eq_some_getLast hne] at hhead
      injection hhead with hhead
      have hlt := Nat.digits_lt_base (b := 10) (by decide) (List.getLast_mem hne)
      have h0 := congrArg UInt8.toNat hhead
      rw [toNat_digitByte hlt] at h0
      exact Nat.getLast_digit_ne_zero 10 hn (by simpa using h0)

theorem length_encode_le {n k : Nat} (hk : 0 < k) (h : n < 10 ^ k) : (encode n).length ≤ k := by
  unfold encode
  split
  · exact hk
  · rw [List.length_map, List.length_reverse]
    exact (Nat.digits_length_le_iff (by decide) n).mpr h

end Decimal
