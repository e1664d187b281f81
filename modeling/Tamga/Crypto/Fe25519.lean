import Tamga.Lib.Limbs
import Tamga.Lib.Pratt
import Tamga.Mem

/-!
# `Crypto.Fe25519` — the field of `2 ^ 255 - 19` (`crypto/fe25519.c`)

A field element is eight limbs. Every operation ends in `tamga_fe_reduce`, which takes any 256-bit value
to its residue (`value_feReduce`); what the operations have to keep on the way there is the value modulo
`p`. Where bits above `2 ^ 256` are folded back in, one fold is not enough: `tamga_fe_fold_carry` is a
loop, and `foldLoop_isSome` says that it ends.
-/

namespace Tamga.Ed25519

open Limbs Octets Ladder Pratt

/-- `TamgaFe`, and any `uint32_t v[8]` on the way to one. -/
abbrev Fe : Type := Num 8

/-- `TAMGA_FE_P`. -/
def feP : Fe :=
  ⟨[0xffffffed, 0xffffffff, 0xffffffff, 0xffffffff, 0xffffffff, 0xffffffff, 0xffffffff, 0x7fffffff], rfl⟩

/-- The modulus. -/
def p : Nat := 2 ^ 255 - 19

theorem p_pos : 0 < p := by norm_num [p]

theorem two_pow_255 : (2 : Nat) ^ 255 = p + 19 := by norm_num [p]

theorem value_feP : feP.value = p := by
  simp [feP, Num.value, p]

/-! ## Folding back in -/

/-- The `for` loop of `tamga_fe_fold_carry`: it breaks where nothing is carried. -/
def foldInto : (v : List UInt32) → (c : UInt64) → List UInt32 × UInt64
  | x :: v, c =>
      let t := x.toUInt64 + c
      let (r, c) := carryUp v (t >>> 32)
      (t.toUInt32 :: r, c)
  | [], c => ([], c)

/-- The `while` loop of `tamga_fe_fold_carry`, for `fuel` rounds. -/
def foldLoop : (fuel : Nat) → (v : List UInt32) → (carry : UInt64) → Option (List UInt32)
  | 0, _, _ => none
  | fuel + 1, v, carry =>
      if carry = 0 then some v
      else
        let folded := foldInto v (38 * carry)
        foldLoop fuel folded.1 folded.2

theorem length_foldInto (v : List UInt32) (c : UInt64) : (foldInto v c).1.length = v.length := by
  cases v with
  | nil => rfl
  | cons x v => simp [foldInto]

theorem value_foldInto (v : List UInt32) {c : UInt64} (hc : c.toNat < 2 ^ 63) :
    value (foldInto v c).1 + 2 ^ (32 * v.length) * (foldInto v c).2.toNat = value v + c.toNat := by
  cases v with
  | nil => simp [foldInto]
  | cons x v =>
    have hx := x.toNat_lt
    have ht : (x.toUInt64 + c).toNat = x.toNat + c.toNat := by
      rw [UInt64.toNat_add, toNat_toUInt64, Nat.mod_eq_of_lt (by omega)]
    have hsplit := split (x.toUInt64 + c)
    have hcarry := carry_lt (x.toUInt64 + c)
    have h := @value_carryUp v ((x.toUInt64 + c) >>> 32) (by omega)
    rw [foldInto]
    dsimp only
    rw [value_cons, value_cons, List.length_cons, Nat.mul_succ, pow_add]
    linarith

theorem foldLoop_zero (fuel : Nat) (v : List UInt32) : foldLoop (fuel + 1) v 0 = some v := if_pos rfl

variable {carry : UInt64}

theorem foldLoop_succ (fuel : Nat) (v : List UInt32) (hne : carry ≠ 0) :
    foldLoop (fuel + 1) v carry =
      foldLoop fuel (foldInto v (38 * carry)).1 (foldInto v (38 * carry)).2 := if_neg hne

theorem length_foldLoop : ∀ {fuel : Nat} {v r : List UInt32} {carry : UInt64},
    foldLoop fuel v carry = some r →
    r.length = v.length := by
  intro fuel
  induction fuel with
  | zero =>
    intro v r carry h
    cases h
  | succ fuel ih =>
    intro v r carry h
    rw [foldLoop] at h
    split at h
    · cases h
      rfl
    · exact (ih h).trans (length_foldInto _ _)

theorem foldLoop_mono : ∀ {fuel : Nat} {v r : List UInt32} {carry : UInt64}, foldLoop fuel v carry = some r →
    foldLoop (fuel + 1) v carry = some r := by
  intro fuel
  induction fuel with
  | zero =>
    intro v r carry h
    cases h
  | succ fuel ih =>
    intro v r carry h
    rw [foldLoop] at h ⊢
    split at h
    · rename_i hzero
      rw [if_pos hzero]
      exact h
    · rename_i hne
      rw [if_neg hne]
      exact ih h

variable {v : List UInt32}

/-- Whatever the carry, one round leaves at most one bit of it. -/
theorem foldInto_carry_le (hv : v.length = 8) (c : UInt64) : (foldInto v c).2.toNat ≤ 1 := by
  obtain ⟨x, v, rfl⟩ := List.exists_cons_of_length_pos (by omega : 0 < v.length)
  have hcarry := carry_lt (x.toUInt64 + c)
  have h := @value_carryUp v ((x.toUInt64 + c) >>> 32) (by omega)
  have hlen : v.length = 7 := by simpa using hv
  have hlt := value_lt v
  rw [hlen] at h hlt
  exact carry_le_one_of_eq h (by omega)

/-- One round keeps the residue, and brings the value down when it carries out. -/
theorem foldInto_spec (hv : v.length = 8) (hc : carry.toNat < 2 ^ 32) :
    value (foldInto v (38 * carry)).1 + 2 ^ 256 * (foldInto v (38 * carry)).2.toNat = value v +
      38 * carry.toNat := by
  have h38 : (38 * carry).toNat = 38 * carry.toNat := by
    rw [UInt64.toNat_mul]
    exact Nat.mod_eq_of_lt (by simp; omega)
  have h := value_foldInto v (by omega : (38 * carry).toNat < 2 ^ 63)
  rwa [hv, h38] at h

/-- `2 ^ 256` is worth 38. -/
theorem mod_fold (value carry : Nat) : (value + 2 ^ 256 * carry) % p = (value + 38 * carry) % p := by
  have hfold : (2 : Nat) ^ 256 = 38 + p * 2 := by norm_num [p]
  rw [hfold, Nat.add_mul, ← Nat.add_assoc, Nat.mul_assoc, Nat.add_mul_mod_self_left]

/-- **Folding ends, and keeps the residue.** The first round carries out at most one bit, and then what is
    left of the value is too small for the second to carry out anything. -/
theorem foldLoop_spec (hv : v.length = 8) (hc : carry.toNat < 2 ^ 32) :
    ∃ r, foldLoop 3 v carry = some r ∧ value r % p = (value v + 2 ^ 256 * carry.toNat) % p := by
  by_cases hzero : carry = 0
  · subst hzero
    exact ⟨v, foldLoop_zero 2 v, by simp⟩
  rw [foldLoop_succ 2 v hzero, mod_fold]
  have hfirst := foldInto_spec hv hc
  have hcarry := foldInto_carry_le hv (38 * carry)
  have hlen := (length_foldInto v (38 * carry)).trans hv
  have hlt := value_lt v
  rw [hv] at hlt
  generalize foldInto v (38 * carry) = one at hfirst hcarry hlen ⊢
  by_cases hdone : one.2 = 0
  · rw [hdone, foldLoop_zero]
    rw [hdone] at hfirst
    exact ⟨one.1, rfl, congrArg (· % p) hfirst⟩
  rw [foldLoop_succ 1 one.1 hdone]
  have hone : one.2.toNat = 1 := by
    have : one.2.toNat ≠ 0 := fun h => hdone (UInt64.toNat_inj.mp h)
    omega
  have hsecond := foldInto_spec hlen (by omega : one.2.toNat < 2 ^ 32)
  generalize foldInto one.1 (38 * one.2) = two at hsecond ⊢
  have hlast : two.2 = 0 := by
    apply UInt64.toNat_inj.mp
    show two.2.toNat = 0
    omega
  rw [hlast, foldLoop_zero]
  rw [hlast] at hsecond
  refine ⟨two.1, rfl, ?_⟩
  calc value two.1 % p = (value one.1 + 38 * one.2.toNat) % p := congrArg (· % p) hsecond
    _ = (value v + 38 * carry.toNat) % p := by rw [← mod_fold, hfirst]

/-- Folding ends for every carry there is. -/
theorem foldLoop_isSome (hv : v.length = 8) (carry : UInt64) : (foldLoop 4 v carry).isSome := by
  by_cases hzero : carry = 0
  · rw [hzero, foldLoop_zero]
    rfl
  · have hcarry := foldInto_carry_le hv (38 * carry)
    obtain ⟨r, hr, -⟩ := foldLoop_spec ((length_foldInto v (38 * carry)).trans hv)
      (by omega : (foldInto v (38 * carry)).2.toNat < 2 ^ 32)
    rw [foldLoop_succ 3 v hzero, hr]
    rfl

/-- `tamga_fe_fold_carry`. -/
def feFoldCarry (v : Fe) (carry : UInt64) : Fe :=
  ⟨(foldLoop 4 v.limbs carry).get (foldLoop_isSome v.size carry),
    (length_foldLoop (Option.some_get _).symm).trans v.size⟩

theorem value_feFoldCarry (v : Fe) (hc : carry.toNat < 2 ^ 32) :
    (feFoldCarry v carry).value % p = (v.value + 2 ^ 256 * carry.toNat) % p := by
  obtain ⟨r, hr, hvalue⟩ := foldLoop_spec v.size hc
  have heq : (feFoldCarry v carry).limbs = r := Option.get_of_eq_some _ (foldLoop_mono hr)
  rw [Num.value, heq]
  exact hvalue

/-! ## Reduction -/

/-- `tamga_fe_conditional_sub_p`. -/
def feConditionalSubP (v : Fe) : Fe :=
  let candidate := v.sub feP
  if candidate.2 = 0 then candidate.1 else v

/-- `v[7]`. -/
def topLimb (v : Fe) : UInt32 := v.limbs.getD 7 0

/-- `v[7] &= 0x7fffffff`. -/
def clearTop (v : Fe) : Fe := ⟨v.limbs.set 7 (topLimb v &&& 0x7fffffff), List.length_set.trans v.size⟩

/-- The inner loop of `tamga_fe_reduce`. -/
def addCarry (v : Fe) (carry : UInt64) : Fe := ⟨(carryUp v.limbs carry).1, (length_carryUp _ _).trans v.size⟩

/-- The passes of `tamga_fe_reduce`. -/
def reduceLoop : (passes : Nat) → (v : Fe) → Fe
  | 0, v => v
  | passes + 1, v =>
      let carry := (19 : UInt64) * (topLimb v >>> 31).toUInt64
      if carry = 0 then v else reduceLoop passes (addCarry (clearTop v) carry)

/-- `tamga_fe_reduce`. -/
def feReduce (v : Fe) : Fe := feConditionalSubP (clearTop (reduceLoop 3 v))

/-- Eight limbs are seven and the one that holds bit 255. -/
theorem exists_top (v : Fe) : ∃ low : List UInt32, v.limbs = low ++ [topLimb v] ∧ low.length = 7 ∧
    v.value = Limbs.value low + 2 ^ 224 * (topLimb v).toNat := by
  obtain ⟨limbs, hv⟩ := v
  obtain ⟨low, top, rfl⟩ : ∃ low top, limbs = low ++ [top] := by
    rcases List.eq_nil_or_concat limbs with rfl | ⟨low, top, rfl⟩
    · simp at hv
    · exact ⟨low, top, List.concat_eq_append⟩
  have hlow : low.length = 7 := by simpa using hv
  have htop : topLimb ⟨low ++ [top], hv⟩ = top := by simp [topLimb, ← hlow]
  refine ⟨low, by rw [htop], hlow, ?_⟩
  rw [Num.value, value_append, hlow, htop]
  simp

theorem topBit_eq (v : Fe) : (topLimb v >>> 31).toNat = v.value / 2 ^ 255 := by
  obtain ⟨low, -, hlow, hvalue⟩ := exists_top v
  have hlt := value_lt low
  rw [hlow] at hlt
  rw [hvalue, UInt32.toNat_shiftRight]
  simp [Nat.shiftRight_eq_div_pow]
  omega

theorem value_clearTop (v : Fe) : (clearTop v).value = v.value % 2 ^ 255 := by
  obtain ⟨low, hlimbs, hlow, hvalue⟩ := exists_top v
  have hlt := value_lt low
  rw [hlow] at hlt
  have hand : (topLimb v &&& 0x7fffffff).toNat = (topLimb v).toNat % 2 ^ 31 := by
    rw [UInt32.toNat_and]
    exact Nat.and_two_pow_sub_one_eq_mod _ 31
  show Limbs.value (v.limbs.set 7 (topLimb v &&& 0x7fffffff)) = _
  rw [hvalue, hlimbs, List.set_append_right _ _ (by omega), hlow]
  simp [value_append, hlow, hand]
  omega

/-- What a pass adds: 19 where bit 255 is set. -/
theorem passCarry_eq (v : Fe) :
    ((19 : UInt64) * (topLimb v >>> 31).toUInt64).toNat = 19 * (v.value / 2 ^ 255) := by
  have hlt := v.lt
  rw [UInt64.toNat_mul, toNat_toUInt64, topBit_eq]
  exact Nat.mod_eq_of_lt (by simp; omega)

theorem reduceLoop_of_lt (passes : Nat) {v : Fe} (hlt : v.value < 2 ^ 255) :
    reduceLoop (passes + 1) v = v := by
  have h := passCarry_eq v
  rw [Nat.div_eq_of_lt hlt] at h
  exact if_pos (UInt64.toNat_inj.mp h)

/-- One pass moves bit 255 down: the value drops by `p`. -/
theorem reduceLoop_of_le (passes : Nat) {v : Fe} (hle : 2 ^ 255 ≤ v.value) :
    ∃ w : Fe, w.value + p = v.value ∧ reduceLoop (passes + 1) v = reduceLoop passes w := by
  have hlt := v.lt
  have hcarry := passCarry_eq v
  have hbit : v.value / 2 ^ 255 = 1 := by omega
  rw [hbit] at hcarry
  refine ⟨_, ?_, if_neg (fun hz => by rw [hz] at hcarry; simp at hcarry)⟩
  have h := @value_carryUp (clearTop v).limbs ((19 : UInt64) * (topLimb v >>> 31).toUInt64) (by omega)
  have hclear := value_clearTop v
  rw [(clearTop v).size, ← Num.value, hclear, hcarry] at h
  have hp := two_pow_255
  show Limbs.value (carryUp (clearTop v).limbs ((19 : UInt64) * (topLimb v >>> 31).toUInt64)).1 + p = v.value
  omega

theorem reduceLoop_spec (v : Fe) : (reduceLoop 3 v).value < 2 ^ 255 ∧
    (reduceLoop 3 v).value % p = v.value % p := by
  have hlt := v.lt
  have hp := two_pow_255
  by_cases hsmall : v.value < 2 ^ 255
  · rw [reduceLoop_of_lt 2 hsmall]
    exact ⟨hsmall, rfl⟩
  obtain ⟨w, hw, heq⟩ := reduceLoop_of_le 2 (by omega : 2 ^ 255 ≤ v.value)
  rw [heq, ← hw, Nat.add_mod_right]
  by_cases hsmall' : w.value < 2 ^ 255
  · rw [reduceLoop_of_lt 1 hsmall']
    exact ⟨hsmall', rfl⟩
  -- a second pass is needed just above `2 ^ 255`, and a third never
  obtain ⟨u, hu, heq'⟩ := reduceLoop_of_le 1 (by omega : 2 ^ 255 ≤ w.value)
  rw [heq', ← hu, Nat.add_mod_right, reduceLoop_of_lt 0 (by omega : u.value < 2 ^ 255)]
  exact ⟨by omega, rfl⟩

theorem value_feConditionalSubP {v : Fe} (hlt : v.value < 2 ^ 255) :
    (feConditionalSubP v).value = v.value % p := by
  have hp := two_pow_255
  have hp' : p = 2 ^ 255 - 19 := rfl
  by_cases hle : p ≤ v.value
  · obtain ⟨hvalue, hborrow⟩ := Num.value_sub_of_le (by rw [value_feP]; exact hle : feP.value ≤ v.value)
    have heq : feConditionalSubP v = (v.sub feP).1 := if_pos hborrow
    rw [heq, hvalue, value_feP, Nat.mod_eq_sub_mod hle, Nat.mod_eq_of_lt (by omega)]
  · obtain ⟨-, hborrow⟩ := Num.value_sub_of_lt (by rw [value_feP]; omega : v.value < feP.value)
    have heq : feConditionalSubP v = v := if_neg (by rw [hborrow]; decide)
    rw [heq, Nat.mod_eq_of_lt (by omega)]

/-- **Reduction.** Any 256-bit value is taken to its residue. -/
theorem value_feReduce (v : Fe) : (feReduce v).value = v.value % p := by
  obtain ⟨hlt, hmod⟩ := reduceLoop_spec v
  have hclear : (clearTop (reduceLoop 3 v)).value = (reduceLoop 3 v).value := by
    rw [value_clearTop, Nat.mod_eq_of_lt hlt]
  rw [feReduce, value_feConditionalSubP (by rw [hclear]; exact hlt), hclear, hmod]

/-! ## Sums and differences -/

/-- `tamga_fe_zero`. -/
def feZero : Fe := Limbs.Num.zero 8

/-- `tamga_fe_one`. -/
def feOne : Fe := ⟨(List.replicate 8 0).set 0 1, rfl⟩

theorem value_feOne : feOne.value = 1 := by
  simp [feOne, Num.value, List.replicate]

/-- `tamga_fe_add`. -/
def feAdd (a b : Fe) : Fe :=
  let sum := a.add b
  feReduce (feFoldCarry sum.1 sum.2)

/-- `tamga_fe_sub`. -/
def feSub (a b : Fe) : Fe :=
  let diff := a.sub b
  -- a borrow means that the difference is negative; its carry out is dropped
  feReduce (if diff.2 ≠ 0 then (diff.1.add feP).1 else diff.1)

/-- `tamga_fe_neg`. -/
def feNeg (a : Fe) : Fe := feSub feZero a

/-- The sum is exact for all limbs, reduced or not. -/
theorem value_feAdd (a b : Fe) : (feAdd a b).value = (a.value + b.value) % p := by
  obtain ⟨hvalue, hcarry⟩ := a.value_add b
  show (feReduce (feFoldCarry (a.add b).1 (a.add b).2)).value = _
  rw [value_feReduce, value_feFoldCarry _ (by omega), hvalue]

/-- The difference is exact for reduced operands. -/
theorem value_feSub {a b : Fe} (ha : a.value < p) (hb : b.value < p) :
    (feSub a b).value = (a.value + p - b.value) % p := by
  have hp' : p = 2 ^ 255 - 19 := rfl
  by_cases hle : b.value ≤ a.value
  · obtain ⟨hvalue, hborrow⟩ := Num.value_sub_of_le hle
    have heq : feSub a b = feReduce (a.sub b).1 := congrArg feReduce (if_neg (not_not.mpr hborrow))
    rw [heq, value_feReduce, hvalue, Nat.sub_add_comm hle, Nat.add_mod_right]
  · obtain ⟨hvalue, hborrow⟩ := Num.value_sub_of_lt (by omega : a.value < b.value)
    have heq : feSub a b = feReduce ((a.sub b).1.add feP).1 :=
        congrArg feReduce (if_pos (by rw [hborrow]; decide))
    -- adding `p` carries out the `2 ^ 256` that the borrow brought in
    obtain ⟨hsum, hcarry⟩ := (a.sub b).1.value_add feP
    have hlt := ((a.sub b).1.add feP).1.lt
    rw [value_feP] at hsum
    have hback : ((a.sub b).1.add feP).1.value = a.value + p - b.value := by omega
    rw [heq, value_feReduce, hback]

/-! ## Products -/

theorem length_high (a b : Fe) :
    ((mul a.limbs b.limbs).take 8).length = ((mul a.limbs b.limbs).drop 8).length := by
  rw [List.length_take, List.length_drop, (value_mul a.limbs b.limbs).1, a.size, b.size]
  rfl

/-- The loop of `tamga_fe_mul` that folds the high half of a product down. -/
def foldHigh (a b : Fe) : Fe × UInt64 :=
  let product := mul a.limbs b.limbs
  (⟨(mulAdd (product.take 8) (product.drop 8) 38 0).1, by
      rw [length_mulAdd _ _ (length_high a b), List.length_take, (value_mul a.limbs b.limbs).1,
          a.size, b.size]
      rfl⟩,
    (mulAdd (product.take 8) (product.drop 8) 38 0).2)

/-- `tamga_fe_mul`. -/
def feMul (a b : Fe) : Fe :=
  let folded := foldHigh a b
  feReduce (feFoldCarry folded.1 folded.2)

/-- `tamga_fe_sq`. -/
def feSq (a : Fe) : Fe := feMul a a

theorem foldHigh_spec (a b : Fe) : (foldHigh a b).2.toNat < 2 ^ 32 ∧
    ((foldHigh a b).1.value + 2 ^ 256 * (foldHigh a b).2.toNat) % p = a.value * b.value % p := by
  obtain ⟨hlen, hproduct⟩ := value_mul a.limbs b.limbs
  obtain ⟨h, hcarry⟩ := @value_mulAdd _ _ 38 0 (length_high a b) (by decide)
  refine ⟨hcarry, ?_⟩
  have hlow : ((mul a.limbs b.limbs).take 8).length = 8 := by
    rw [List.length_take, hlen, a.size, b.size]
    rfl
  have hsplit := value_append ((mul a.limbs b.limbs).take 8) ((mul a.limbs b.limbs).drop 8)
  rw [List.take_append_drop, hlow, hproduct] at hsplit
  rw [hlow] at h
  have hfold : (foldHigh a b).1.value + 2 ^ 256 * (foldHigh a b).2.toNat =
      value ((mul a.limbs b.limbs).take 8) + value ((mul a.limbs b.limbs).drop 8) * 38 + 0 := h
  rw [hfold, Nat.add_zero, Nat.mul_comm, ← mod_fold]
  exact congrArg (· % p) hsplit.symm

/-- The product is exact for all limbs, reduced or not. -/
theorem value_feMul (a b : Fe) : (feMul a b).value = a.value * b.value % p := by
  obtain ⟨hcarry, hvalue⟩ := foldHigh_spec a b
  show (feReduce (feFoldCarry (foldHigh a b).1 (foldHigh a b).2)).value = _
  rw [value_feReduce, value_feFoldCarry _ hcarry, hvalue]

/-! ## Powers and inverses -/

/-- `tamga_fe_pow`: the bits of the exponent from the most significant down. -/
def fePow (a : Fe) (exponent : Bytes) : Fe := ladder feSq (fun result => feMul result a)
    (bitLe exponent) 256 feOne

/-- `p - 2`. -/
def invertExponent : Bytes := 0xeb :: List.replicate 30 0xff ++ [0x7f]

/-- `tamga_fe_invert`. -/
def feInvert (a : Fe) : Fe := fePow a invertExponent

theorem value_fePow (a : Fe) {exponent : Bytes} (hlen : exponent.length = 32) :
    (fePow a exponent).value = a.value ^ le exponent % p := by
  have hlt : le exponent < 2 ^ 256 := by
    have h := le_lt exponent
    rw [hlen] at h
    exact h
  have hone : 1 % p = 1 := by norm_num [p]
  rw [fePow, bitLe_eq]
  refine @ladder_rep_zero Fe feSq (fun result => feMul result a)
      (fun x k => x.value = a.value ^ k % p) ?_ ?_ _ 256
    hlt feOne (by rw [value_feOne, pow_zero, hone])
  · intro x k hx
    rw [feSq, value_feMul, hx, ← Nat.mul_mod, two_mul, pow_add]
  · intro x k hx
    rw [value_feMul, hx, Nat.mod_mul_mod, pow_succ]

theorem le_invertExponent : le invertExponent = p - 2 := by decide +kernel

section Prime

theorem prime_11 : Nat.Prime 72106336199 := by
  have h : Nat.Prime 2773320623 := @prime_of_lucasCheck _ 5 [2, 2437, 569003] (by norm_num)
      (by decide +kernel)
  exact @prime_of_lucasCheck _ 7 [2, 13, 2773320623] (by simp [h]; norm_num) (by decide +kernel)

theorem prime_35 : Nat.Prime 75445702479781427272750846543864801 := by
  have h : Nat.Prime 1919519569386763 :=
    @prime_of_lucasCheck _ 2 [2, 3, 7, 19, 47, 47, 127, 8574133] (by norm_num) (by decide +kernel)
  exact @prime_of_lucasCheck _ 7 [2, 2, 2, 2, 2, 3, 3, 5, 5, 75707, 72106336199, 1919519569386763]
    (by simp [h, prime_11]; norm_num) (by decide +kernel)

theorem prime_71 : Nat.Prime 74058212732561358302231226437062788676166966415465897661863160754340907 := by
  have h : Nat.Prime 31757755568855353 :=
    @prime_of_lucasCheck _ 10 [2, 2, 2, 3, 31, 107, 223, 4153, 430751] (by norm_num) (by decide +kernel)
  exact @prime_of_lucasCheck _ 2
    [2, 3, 353, 57467, 132049, 1923133, 31757755568855353, 75445702479781427272750846543864801]
    (by simp [h, prime_35]; norm_num) (by decide +kernel)

/-- `2 ^ 255 - 19` is prime. -/
theorem prime_p : p.Prime :=
  @prime_of_lucasCheck p 2 [2, 2, 3, 65147,
    74058212732561358302231226437062788676166966415465897661863160754340907]
    (by simp [prime_71]; norm_num) (by decide +kernel)

end Prime

instance : Fact p.Prime := ⟨prime_p⟩

/-- The field element the limbs stand for. -/
def Fe.cast (a : Fe) : ZMod p := (a.value : ZMod p)

theorem Fe.cast_eq {a : Fe} {n : Nat} (h : a.value % p = n % p) :
    a.cast = n := (ZMod.natCast_eq_natCast_iff' _ _ _).mpr h

theorem cast_of_value {a : Fe} {n : Nat} (h : a.value = n % p) :
    a.cast = n := Fe.cast_eq (by rw [h, Nat.mod_mod])

theorem lt_of_value {a : Fe} {n : Nat} (h : a.value = n % p) : a.value < p := by
  rw [h]
  exact Nat.mod_lt _ p_pos

/-- Reduced elements are determined by what they stand for. -/
theorem eq_of_cast {a b : Fe} (ha : a.value < p) (hb : b.value < p) (h : a.cast = b.cast) : a = b := by
  have hmod := (ZMod.natCast_eq_natCast_iff' _ _ _).mp h
  rw [Nat.mod_eq_of_lt ha, Nat.mod_eq_of_lt hb] at hmod
  exact Num.ext_value hmod

@[simp] theorem cast_feZero : feZero.cast = 0 := by
  rw [Fe.cast, feZero, Num.value_zero, Nat.cast_zero]

@[simp] theorem cast_feOne : feOne.cast = 1 := by
  rw [Fe.cast, value_feOne, Nat.cast_one]

@[simp] theorem cast_feAdd (a b : Fe) : (feAdd a b).cast = a.cast + b.cast := by
  rw [cast_of_value (value_feAdd a b), Nat.cast_add]
  rfl

theorem cast_feSub {a b : Fe} (ha : a.value < p) (hb : b.value < p) : (feSub a b).cast = a.cast - b.cast := by
  rw [cast_of_value (value_feSub ha hb), Nat.cast_sub (by omega), Nat.cast_add, ZMod.natCast_self, add_zero]
  rfl

theorem cast_feNeg {a : Fe} (ha : a.value < p) : (feNeg a).cast = -a.cast := by
  rw [feNeg, cast_feSub (by rw [feZero, Num.value_zero]; exact p_pos) ha, cast_feZero, zero_sub]

@[simp] theorem cast_feMul (a b : Fe) : (feMul a b).cast = a.cast * b.cast := by
  rw [cast_of_value (value_feMul a b), Nat.cast_mul]
  rfl

theorem cast_fePow (a : Fe) {exponent : Bytes} (hlen : exponent.length = 32) :
    (fePow a exponent).cast = a.cast ^ le exponent := by
  rw [cast_of_value (value_fePow a hlen), Nat.cast_pow]
  rfl

/-- Fermat: the power `p - 2` is the inverse, and zero stays zero. -/
theorem cast_feInvert (a : Fe) : (feInvert a).cast = a.cast⁻¹ := by
  rw [feInvert, cast_fePow a rfl, le_invertExponent]
  by_cases hzero : a.cast = 0
  · rw [hzero, inv_zero, zero_pow (by norm_num [p])]
  · have hfermat := ZMod.pow_card_sub_one_eq_one hzero
    rw [show p - 1 = p - 2 + 1 by norm_num [p], pow_succ] at hfermat
    exact eq_inv_of_mul_eq_one_left hfermat

theorem lt_feReduce (v : Fe) : (feReduce v).value < p := lt_of_value (value_feReduce v)

theorem lt_feSub (a b : Fe) : (feSub a b).value < p := lt_feReduce _

theorem lt_feInvert (a : Fe) : (feInvert a).value < p := lt_of_value (value_fePow a rfl)

/-! ## Encodings -/

/-- `tamga_fe_to_bytes`. -/
def feToBytes (a : Fe) : Bytes := storeLe (feReduce a).limbs

/-- `tamga_fe_from_bytes`: the top bit is the sign flag, never part of the value. -/
def feFromBytes (bytes : Bytes) : Fe := feReduce (clearTop ⟨loadLe 8 bytes, length_loadLe 8 bytes⟩)

theorem length_feToBytes (a : Fe) : (feToBytes a).length = 32 := by
  rw [feToBytes, length_storeLe, (feReduce a).size]

theorem le_feToBytes (a : Fe) : le (feToBytes a) = a.value % p := by
  rw [feToBytes, le_storeLe]
  exact value_feReduce a

theorem value_feFromBytes {bytes : Bytes} (hlen : bytes.length = 32) :
    (feFromBytes bytes).value = le bytes % 2 ^ 255 % p := by
  rw [feFromBytes, value_feReduce, value_clearTop, Num.value, value_loadLe 8 bytes hlen]

/-- A canonical encoding: 32 bytes that spell a number below `p`. -/
def Canonical (bytes : Bytes) : Prop := bytes.length = 32 ∧ le bytes < p

theorem canonical_feToBytes (a : Fe) : Canonical (feToBytes a) := by
  refine ⟨length_feToBytes a, ?_⟩
  rw [le_feToBytes]
  exact Nat.mod_lt _ p_pos

theorem value_of_canonical {bytes : Bytes} (h : Canonical bytes) : (feFromBytes bytes).value = le bytes := by
  have hp := two_pow_255
  have hlt := h.2
  rw [value_feFromBytes h.1, Nat.mod_eq_of_lt (by omega : le bytes < 2 ^ 255), Nat.mod_eq_of_lt hlt]

theorem feToBytes_feFromBytes {bytes : Bytes} (h : Canonical bytes) :
    feToBytes (feFromBytes bytes) = bytes := by
  apply le_inj ((length_feToBytes _).trans h.1.symm)
  rw [le_feToBytes, value_of_canonical h, Nat.mod_eq_of_lt h.2]

theorem feFromBytes_feToBytes {a : Fe} (ha : a.value < p) : feFromBytes (feToBytes a) = a := by
  apply Num.ext_value
  rw [value_of_canonical (canonical_feToBytes a), le_feToBytes, Nat.mod_eq_of_lt ha]

/-! ## The field -/

/-- **The arithmetic is exact.** For reduced operands every result is reduced and stands for what the
    operation says; reduction takes any eight limbs; folding ends for every carry there is, and keeps what
    the limbs and a carry of `tamga_fe_mul` stand for; and the encodings are inverse. -/
theorem field_exact {a b : Fe} (ha : a.value < p) (hb : b.value < p) :
    ((feAdd a b).value < p ∧ (feAdd a b).cast = a.cast + b.cast) ∧
      ((feSub a b).value < p ∧ (feSub a b).cast = a.cast - b.cast) ∧
      ((feNeg a).value < p ∧ (feNeg a).cast = -a.cast) ∧
      ((feMul a b).value < p ∧ (feMul a b).cast = a.cast * b.cast) ∧
      ((feSq a).value < p ∧ (feSq a).cast = a.cast * a.cast) ∧
      (∀ v : Fe, (feReduce v).value < p ∧ (feReduce v).cast = v.cast) ∧
      (∀ (v : Fe) (carry : UInt64), (foldLoop 4 v.limbs carry).isSome) ∧
      (∀ v : Fe, (feFoldCarry v (foldHigh a b).2).cast = v.cast +
        2 ^ 256 * ((foldHigh a b).2.toNat : ZMod p)) ∧
      (a.value ≠ 0 → (feInvert a).value < p ∧ a.cast * (feInvert a).cast = 1) ∧
      (a.value = 0 → (feInvert a).value = 0) ∧
      feFromBytes (feToBytes a) = a ∧ Canonical (feToBytes a) ∧
      ∀ bytes, Canonical bytes → feToBytes (feFromBytes bytes) = bytes := by
  refine ⟨⟨lt_of_value (value_feAdd a b), cast_feAdd a b⟩, ⟨lt_feSub a b, cast_feSub ha hb⟩,
    ⟨lt_feSub _ a, cast_feNeg ha⟩, ⟨lt_of_value (value_feMul a b), cast_feMul a b⟩,
    ⟨lt_of_value (value_feMul a a), cast_feMul a a⟩,
      fun v => ⟨lt_feReduce v, cast_of_value (value_feReduce v)⟩,
    fun v carry => foldLoop_isSome v.size carry, ?_, ?_, ?_, feFromBytes_feToBytes ha, canonical_feToBytes a,
    fun bytes h => feToBytes_feFromBytes h⟩
  · intro v
    rw [Fe.cast_eq (value_feFoldCarry v (foldHigh_spec a b).1), Nat.cast_add, Nat.cast_mul, Nat.cast_pow]
    rfl
  · intro hne
    refine ⟨lt_feInvert a, ?_⟩
    have hcast : a.cast ≠ 0 := by
      intro hzero
      rw [← cast_feZero] at hzero
      have heq := eq_of_cast ha (by rw [feZero, Num.value_zero]; exact p_pos) hzero
      exact hne (by rw [heq, feZero, Num.value_zero])
    rw [cast_feInvert, mul_inv_cancel₀ hcast]
  · intro hzero
    have hcast : a.cast = 0 := by rw [Fe.cast, hzero, Nat.cast_zero]
    have h : (feInvert a).cast = feZero.cast := by rw [cast_feInvert, hcast, inv_zero, cast_feZero]
    rw [eq_of_cast (lt_feInvert a) (by rw [feZero, Num.value_zero]; exact p_pos) h, feZero, Num.value_zero]

/-- `p - 38` and `p - 1`: a single fold of the carry would lose `2 ^ 256` in their product. -/
theorem field_exact_near_p : ∃ a b : Fe, a.value = p - 38 ∧ b.value = p - 1 ∧ (feMul a b).value < p ∧
    (feMul a b).cast = a.cast * b.cast := by
  have ha : (⟨[0xffffffc7, 0xffffffff, 0xffffffff, 0xffffffff, 0xffffffff, 0xffffffff, 0xffffffff,
      0x7fffffff],
      rfl⟩ : Fe).value = p - 38 := by simp [Num.value, p]
  have hb : (⟨[0xffffffec, 0xffffffff, 0xffffffff, 0xffffffff, 0xffffffff, 0xffffffff, 0xffffffff,
      0x7fffffff],
      rfl⟩ : Fe).value = p - 1 := by simp [Num.value, p]
  have hp := p_pos
  exact ⟨_, _, ha, hb, (field_exact (by omega) (by omega)).2.2.2.1⟩

end Tamga.Ed25519
