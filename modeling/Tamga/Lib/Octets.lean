import Mathlib.Tactic
import Tamga.Lib.Ladder

/-!
# `Lib.Octets` — byte strings as numbers

`le` and `be` read a byte string in base 256, least or most significant byte first. Both are Mathlib's
`Nat.ofDigits`, so what is added here is how they meet `List` operations on bytes, and that a number
has exactly one spelling of a given length (`le_inj`, `be_inj`).
-/

/-- A property of every byte, from the 256 of them. -/
theorem forall_byte {P : UInt8 → Prop} (h : ∀ k < 256, P (UInt8.ofNat k)) (c : UInt8) : P c := by
  have hc := h c.toNat c.toNat_lt
  rwa [UInt8.ofNat_toNat] at hc

namespace Octets

/-- The value of a byte string, least significant byte first. -/
def le (bytes : List UInt8) : Nat := Nat.ofDigits 256 (bytes.map UInt8.toNat)

/-- The value of a byte string, most significant byte first. -/
def be (bytes : List UInt8) : Nat := le bytes.reverse

@[simp] theorem le_nil : le [] = 0 := rfl

@[simp] theorem le_cons (b : UInt8) (bytes : List UInt8) : le (b :: bytes) = b.toNat + 256 * le bytes := by
  simp [le, Nat.ofDigits_cons]

theorem le_append (a b : List UInt8) : le (a ++ b) = le a + 256 ^ a.length * le b := by
  simp [le, Nat.ofDigits_append]

theorem le_lt (bytes : List UInt8) : le bytes < 256 ^ bytes.length := by
  have h := @Nat.ofDigits_lt_base_pow_length 256 (bytes.map UInt8.toNat) (by decide) (by
    intro x hx
    obtain ⟨b, -, rfl⟩ := List.mem_map.mp hx
    exact b.toNat_lt)
  rwa [List.length_map] at h

theorem le_inj : ∀ {a b : List UInt8}, a.length = b.length → le a = le b → a = b
  | [], [], _, _ => rfl
  | x :: a, y :: b, hlen, h => by
    rw [le_cons, le_cons] at h
    have hx := x.toNat_lt
    have hy := y.toNat_lt
    have hhead : x = y := UInt8.toNat_inj.mp (by omega)
    have htail : a = b := le_inj (by simpa using hlen) (by omega)
    rw [hhead, htail]

theorem getD_reverse {bytes : List UInt8} {i : Nat} (hi : i < bytes.length) :
    bytes.reverse.getD i 0 = bytes.getD (bytes.length - 1 - i) 0 := by
  rw [List.getD_eq_getElem?_getD, List.getD_eq_getElem?_getD, List.getElem?_reverse hi]

@[simp] theorem be_nil : be [] = 0 := rfl

theorem be_append (a b : List UInt8) : be (a ++ b) = be a * 256 ^ b.length + be b := by
  rw [be, List.reverse_append, le_append, List.length_reverse, be, be]
  ring

theorem be_cons (b : UInt8) (bytes : List UInt8) :
    be (b :: bytes) = b.toNat * 256 ^ bytes.length + be bytes := by
  have h := be_append [b] bytes
  simpa [be] using h

theorem be_concat (bytes : List UInt8) (b : UInt8) : be (bytes ++ [b]) = be bytes * 256 + b.toNat := by
  rw [be_append]
  simp [be]

theorem be_lt (bytes : List UInt8) : be bytes < 256 ^ bytes.length := by
  have h := le_lt bytes.reverse
  rwa [List.length_reverse] at h

theorem be_inj {a b : List UInt8} (hlen : a.length = b.length) (h : be a = be b) : a = b :=
  List.reverse_injective (le_inj (by simpa using hlen) h)

/-- A leading byte other than zero is worth at least its place. -/
theorem pow_le_be {b : UInt8} (hb : b ≠ 0) (bytes : List UInt8) : 256 ^ bytes.length ≤ be (b :: bytes) := by
  have hpos : 0 < b.toNat := by
    apply Nat.pos_of_ne_zero
    intro h
    exact hb (UInt8.toNat_inj.mp h)
  rw [be_cons]
  calc 256 ^ bytes.length = 1 * 256 ^ bytes.length := (one_mul _).symm
    _ ≤ b.toNat * 256 ^ bytes.length := Nat.mul_le_mul_right _ hpos
    _ ≤ b.toNat * 256 ^ bytes.length + be bytes := Nat.le_add_right _ _

/-- A number without a leading zero byte is no longer than any other spelling of it. -/
theorem length_le_of_be_eq {b : UInt8} (hb : b ≠ 0) {bytes other : List UInt8}
    (h : be (b :: bytes) = be other) : bytes.length < other.length := by
  have hlow := pow_le_be hb bytes
  have hhigh := be_lt other
  rw [← h] at hhigh
  exact (Nat.pow_lt_pow_iff_right (by decide)).mp (lt_of_le_of_lt hlow hhigh)

/-- Every positive number has a spelling without a leading zero byte. -/
theorem exists_be {n : Nat} (hn : 0 < n) : ∃ (b : UInt8) (bytes : List UInt8), b ≠ 0 ∧
    be (b :: bytes) = n := by
  induction n using Nat.strongRecOn with
  | ind n ih =>
    by_cases hsmall : n < 256
    · refine ⟨UInt8.ofNat n, [], ?_, ?_⟩
      · intro h
        have h := congrArg UInt8.toNat h
        rw [UInt8.toNat_ofNat_of_lt' hsmall] at h
        exact absurd h (by simp; omega)
      · rw [be_cons, UInt8.toNat_ofNat_of_lt' hsmall]
        simp
    · obtain ⟨b, bytes, hb, hbe⟩ := ih (n / 256) (by omega) (by omega)
      refine ⟨b, bytes ++ [UInt8.ofNat (n % 256)], hb, ?_⟩
      rw [← List.cons_append, be_concat, hbe, UInt8.toNat_ofNat_of_lt' (by omega : n % 256 < 256)]
      omega

/-! ## Bits -/

/-- Bit `k` of a byte, as a shift and a mask find it. -/
theorem shift_and_one (b : UInt8) {k : Nat} (hk : k < 8) :
    ((b >>> UInt8.ofNat k) &&& 1 != 0) = b.toNat.testBit k := by
  have hshift : (b >>> UInt8.ofNat k).toNat = b.toNat >>> k := by
    rw [UInt8.toNat_shiftRight, UInt8.toNat_ofNat_of_lt' (lt_trans hk (by decide)), Nat.mod_eq_of_lt hk]
  have hand : ((b >>> UInt8.ofNat k) &&& 1).toNat = b.toNat >>> k &&& 1 := by
    rw [UInt8.toNat_and, hshift]
    rfl
  rw [Nat.testBit, Nat.and_comm, ← hand]
  by_cases hzero : (b >>> UInt8.ofNat k) &&& 1 = 0
  · rw [hzero]
    rfl
  · have hne : ((b >>> UInt8.ofNat k) &&& 1).toNat ≠ 0 := fun h => hzero (UInt8.toNat_inj.mp h)
    rw [bne_iff_ne.mpr hzero, bne_iff_ne.mpr hne]

/-- Bit `i` of a byte string, least significant byte first. -/
def bitLe (bytes : List UInt8) (i : Nat) : Bool :=
  (bytes.getD (i / 8) 0 >>> UInt8.ofNat (i % 8)) &&& 1 != 0

theorem bitLe_eq (bytes : List UInt8) : bitLe bytes = (le bytes).testBit := by
  funext i
  have hdigits : ∀ d ∈ bytes.map UInt8.toNat, d < 2 ^ 8 := by
    intro d hd
    obtain ⟨b, -, rfl⟩ := List.mem_map.mp hd
    exact b.toNat_lt
  have h := Ladder.testBit_ofDigits (by decide : 0 < 8) _ hdigits i
  have hget : (bytes.map UInt8.toNat).getD (i / 8) 0 = (bytes.getD (i / 8) 0).toNat := by
    simp only [List.getD_eq_getElem?_getD, List.getElem?_map]
    cases bytes[i / 8]? <;> rfl
  rw [hget] at h
  rw [bitLe, shift_and_one _ (Nat.mod_lt _ (by decide))]
  exact h.symm

/-- Bit `i` of a byte string, most significant byte first, counted from its last byte. -/
def bitBe (bytes : List UInt8) (i : Nat) : Bool :=
  (bytes.getD (bytes.length - 1 - i / 8) 0 >>> UInt8.ofNat (i % 8)) &&& 1 != 0

theorem bitBe_eq {bytes : List UInt8} {i : Nat} (hi : i < bytes.length * 8) :
    bitBe bytes i = (be bytes).testBit i := by
  rw [be, ← bitLe_eq, bitBe, bitLe, getD_reverse (by omega)]

/-! ## Bitwise operations -/

theorem or_shiftLeft {low i : Nat} (h : low < 2 ^ i) (high : Nat) :
    low ||| high <<< i = low + 2 ^ i * high := by
  rw [Nat.or_comm, ← Nat.shiftLeft_add_eq_or_of_lt h, Nat.shiftLeft_eq]
  ring

theorem xor_two_pow_mul_add {k a b : Nat} (ha : a < 2 ^ k) (hb : b < 2 ^ k) (x y : Nat) :
    (2 ^ k * x + a) ^^^ (2 ^ k * y + b) = 2 ^ k * (x ^^^ y) + (a ^^^ b) := by
  apply Nat.eq_of_testBit_eq
  intro i
  rw [Nat.testBit_xor, Nat.testBit_two_pow_mul_add _ ha, Nat.testBit_two_pow_mul_add _ hb,
    Nat.testBit_two_pow_mul_add _ (Nat.xor_lt_two_pow ha hb)]
  split <;> rw [Nat.testBit_xor]

/-- Exclusive or, byte by byte. -/
theorem be_xor {a : List UInt8} : ∀ {b : List UInt8}, a.length = b.length →
    be (List.zipWith (· ^^^ ·) a b) = be a ^^^ be b := by
  induction a with
  | nil =>
    intro b hlen
    obtain rfl := List.eq_nil_of_length_eq_zero hlen.symm
    rfl
  | cons x a ih =>
    intro b hlen
    obtain ⟨y, b, rfl⟩ := List.exists_cons_of_length_eq_add_one hlen.symm
    have hlen : a.length = b.length := by simpa using hlen
    have hpow : (256 : Nat) ^ b.length = 2 ^ (8 * b.length) := by
      rw [pow_mul]
      rfl
    have ha := be_lt a
    have hb := be_lt b
    rw [hlen, hpow] at ha
    rw [hpow] at hb
    rw [List.zipWith_cons_cons, be_cons, be_cons, be_cons, ih hlen, List.length_zipWith, hlen, Nat.min_self,
      UInt8.toNat_xor, hpow, Nat.mul_comm, Nat.mul_comm x.toNat, Nat.mul_comm y.toNat,
        xor_two_pow_mul_add ha hb]

@[simp] theorem be_replicate_zero (n : Nat) : be (List.replicate n 0) = 0 := by
  induction n with
  | zero => rfl
  | succ n ih => simp [List.replicate_succ, be_cons, ih]

/-- A shift by one bit to the right, with the low bit of `before` coming in at the top. -/
theorem be_shiftRight (v : List UInt8) : ∀ before : UInt8,
    be (List.zipWith (fun v before : UInt8 => (v >>> 1) ||| ((before &&& 1) <<< 7)) v (before :: v)) =
      (before.toNat % 2 * 256 ^ v.length + be v) / 2 := by
  induction v with
  | nil =>
    intro before
    simp [be]
  | cons x v ih =>
    intro before
    have hbyte : ((x >>> 1) ||| ((before &&& 1) <<< 7)).toNat = x.toNat / 2 + 128 * (before.toNat % 2) := by
      have hhalf : (x >>> 1).toNat = x.toNat / 2 := by
        rw [UInt8.toNat_shiftRight]
        exact Nat.shiftRight_eq_div_pow _ 1
      have hcarry : ((before &&& 1) <<< 7).toNat = (before.toNat % 2) <<< 7 := by
        have hone : (before &&& 1).toNat = before.toNat % 2 := by
          rw [UInt8.toNat_and]
          exact Nat.and_one_is_mod _
        have hfits : (before.toNat % 2) <<< 7 < 2 ^ 8 := by
          rw [Nat.shiftLeft_eq]
          omega
        rw [UInt8.toNat_shiftLeft, hone]
        exact Nat.mod_eq_of_lt hfits
      have hx := x.toNat_lt
      rw [UInt8.toNat_or, hhalf, hcarry, or_shiftLeft (by omega)]
      rfl
    rw [List.zipWith_cons_cons, be_cons, be_cons, ih, hbyte]
    have hsplit : x.toNat = 2 * (x.toNat / 2) + x.toNat % 2 := (Nat.div_add_mod _ _).symm
    have hlen : (List.zipWith
        (fun v before : UInt8 => (v >>> 1) ||| ((before &&& 1) <<< 7)) v (x :: v)).length =
        v.length := by simp
    rw [hlen, List.length_cons, pow_succ]
    generalize 256 ^ v.length = P
    have hsum : before.toNat % 2 * (P * 256) + (x.toNat * P + be v) =
        (x.toNat % 2 * P + be v) + (x.toNat / 2 + 128 * (before.toNat % 2)) * P * 2 := by
      nth_rewrite 1 [hsplit]
      ring
    rw [hsum, Nat.add_mul_div_right _ _ (by decide : 0 < 2), Nat.add_comm]

end Octets
