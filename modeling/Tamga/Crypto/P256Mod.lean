import Tamga.Lib.Montgomery
import Tamga.Lib.Pratt

/-!
# `Crypto.P256Mod` — arithmetic modulo the two primes of P-256

The first half of `p256.c`: Montgomery arithmetic over eight limbs, with a context that is built for the
field prime and for the order of the base point.
-/

namespace Tamga.P256

open Limbs Octets

/-- `P256_P`. -/
def p256P : List UInt8 :=
  [0xff, 0xff, 0xff, 0xff, 0x00, 0x00, 0x00, 0x01, 0x00, 0x00, 0x00, 0x00, 0x00, 0x00, 0x00, 0x00,
    0x00, 0x00, 0x00, 0x00, 0xff, 0xff, 0xff, 0xff, 0xff, 0xff, 0xff, 0xff, 0xff, 0xff, 0xff, 0xff]

/-- `P256_N`. -/
def p256N : List UInt8 :=
  [0xff, 0xff, 0xff, 0xff, 0x00, 0x00, 0x00, 0x00, 0xff, 0xff, 0xff, 0xff, 0xff, 0xff, 0xff, 0xff,
    0xbc, 0xe6, 0xfa, 0xad, 0xa7, 0x17, 0x9e, 0x84, 0xf3, 0xb9, 0xca, 0xc2, 0xfc, 0x63, 0x25, 0x51]

abbrev P256Num := Num 8

structure P256Mod where
  m : P256Num
  rr : P256Num
  one : P256Num
  n0inv : UInt32

def p256FromBe (bytes : List UInt8) : P256Num :=
  ⟨(List.range 8).map fun i =>
    let offset := 28 - i * 4
    ((bytes.getD offset 0).toUInt32 <<< 24) ||| ((bytes.getD (offset + 1) 0).toUInt32 <<< 16) |||
      ((bytes.getD (offset + 2) 0).toUInt32 <<< 8) ||| (bytes.getD (offset + 3) 0).toUInt32, by simp⟩

/-- `p256_add_raw`, with the carry narrowed as it is returned. -/
def p256AddRaw (a b : P256Num) : P256Num × UInt32 := ((a.add b).1, (a.add b).2.toUInt32)

/-- `p256_sub_raw`, with the borrow. -/
def p256SubRaw (a b : P256Num) : P256Num × UInt32 := ((a.sub b).1, (a.sub b).2.toUInt32)

def p256ModAdd (ctx : P256Mod) (a b : P256Num) : P256Num :=
  let r := p256AddRaw a b
  reduceOnce ctx.m r.1 r.2

def p256ModSub (ctx : P256Mod) (a b : P256Num) : P256Num :=
  let r := p256SubRaw a b
  if r.2 ≠ 0 then (p256AddRaw r.1 ctx.m).1 else r.1

def p256DoubleMod (ctx : P256Mod) (value : P256Num) : P256Num := doubleMod ctx.m value

def p256N0inv (m0 : UInt32) : UInt32 := negInv m0

def p256MontMul (ctx : P256Mod) (a b : P256Num) : P256Num := montMul ctx.m ctx.n0inv a b

def p256ModInit (modulusBe : List UInt8) : P256Mod :=
  let m := p256FromBe modulusBe
  let one := (p256SubRaw (Limbs.Num.zero 8) m).1
  -- doubling reads the modulus of the context only
  let ctx : P256Mod := { m := m, n0inv := p256N0inv m.low, one := one, rr := one }
  { ctx with rr := (p256DoubleMod ctx)^[256] one }

def p256ToMont (ctx : P256Mod) (a : P256Num) : P256Num := p256MontMul ctx a ctx.rr

def p256FromMont (ctx : P256Mod) (a : P256Num) : P256Num := p256MontMul ctx a (Num.ofLimb 8 1)

/-- Fermat: `a ^ (m - 2)`. -/
def p256MontInv (ctx : P256Mod) (a : P256Num) : P256Num :=
  let exponent := (p256SubRaw ctx.m (Num.ofLimb 8 2)).1
  Ladder.ladder (fun accumulator => p256MontMul ctx accumulator accumulator)
    (fun accumulator => p256MontMul ctx accumulator a) (bit exponent.limbs) 256 ctx.one

/-! ## Loading -/

theorem word_be (a b c d : UInt8) :
    (d.toUInt32 <<< 24) ||| (c.toUInt32 <<< 16) ||| (b.toUInt32 <<< 8) ||| a.toUInt32 = word a b c d := by
  rw [word, UInt32.or_comm (d.toUInt32 <<< 24), UInt32.or_comm (_ ||| _) (b.toUInt32 <<< 8),
      UInt32.or_comm _ a.toUInt32,
    ← UInt32.or_assoc, ← UInt32.or_assoc]

/-- Big-endian words are the little-endian words of the reversed string. -/
theorem p256FromBe_eq {bytes : List UInt8} (hlen : bytes.length = 32) :
    (p256FromBe bytes).limbs = loadLe 8 bytes.reverse := by
  apply List.map_congr_left
  intro i hi
  have hi := List.mem_range.mp hi
  dsimp only
  rw [word_be, getD_reverse (by omega), getD_reverse (by omega), getD_reverse (by omega),
      getD_reverse (by omega), hlen]
  congr 2 <;> omega

theorem value_p256FromBe {bytes : List UInt8} (hlen : bytes.length = 32) :
    (p256FromBe bytes).value = be bytes := by
  rw [Num.value, p256FromBe_eq hlen, value_loadLe _ _ (by rw [List.length_reverse, hlen]), be]

/-! ## Contexts -/

/-- A context as `p256ModInit` leaves it, for an odd prime of 256 bits. -/
structure Valid (ctx : P256Mod) : Prop where
  suitable : Suitable ctx.m
  prime : ctx.m.value.Prime
  rr_eq : ctx.rr = radixSquare ctx.m
  one_eq : ctx.one = radix ctx.m
  n0inv_eq : ctx.n0inv = negInv ctx.m.low

theorem valid_modInit {modulus : List UInt8} (hsuitable : Suitable (p256FromBe modulus))
    (hprime : (p256FromBe modulus).value.Prime) : Valid (p256ModInit modulus) := by
  refine ⟨hsuitable, hprime, ?_, rfl, rfl⟩
  have hcount : 256 = 32 * 8 := by norm_num
  rw [radixSquare, ← hcount, p256ModInit]
  -- the two iterations agree whatever the count, so that none of them need be unrolled
  generalize 256 = count
  rfl

/-- The field prime, `2 ^ 256 - 2 ^ 224 + 2 ^ 192 + 2 ^ 96 - 1`. -/
def fieldPrime : Nat := 0xffffffff00000001000000000000000000000000ffffffffffffffffffffffff

/-- The order of the base point. -/
def groupOrder : Nat := 0xffffffff00000000ffffffffffffffffbce6faada7179e84f3b9cac2fc632551

theorem value_p256P : (p256FromBe p256P).value = fieldPrime := by decide +kernel

theorem value_p256N : (p256FromBe p256N).value = groupOrder := by decide +kernel

section Prime

open Pratt

theorem prime_45 : Nat.Prime 774023187263532362759620327192479577272145303 := by
  have h₁ : Nat.Prime 204061199 := @prime_of_lucasCheck _ 11 [2, 11, 23, 107, 3769] (by norm_num)
      (by decide +kernel)
  have h₂ : Nat.Prime 34282281433 :=
    @prime_of_lucasCheck _ 17 [2, 2, 2, 3, 7, 204061199] (by simp [h₁]; norm_num) (by decide +kernel)
  have h₃ : Nat.Prime 66417393611 :=
    @prime_of_lucasCheck _ 6 [2, 5, 53, 173, 197, 3677] (by norm_num) (by decide +kernel)
  have h₄ : Nat.Prime 11290956913871 :=
    @prime_of_lucasCheck _ 13 [2, 5, 17, 66417393611] (by simp [h₃]; norm_num) (by decide +kernel)
  have h₅ : Nat.Prime 46076956964474543 :=
    @prime_of_lucasCheck _ 5 [2, 23, 18169, 78283, 704251] (by norm_num) (by decide +kernel)
  exact @prime_of_lucasCheck _ 3 [2, 3, 3, 2411, 34282281433, 11290956913871, 46076956964474543]
    (by simp [h₂, h₄, h₅]; norm_num) (by decide +kernel)

theorem prime_fieldPrime : fieldPrime.Prime := by
  have h : Nat.Prime 835945042244614951780389953367877943453916927241 :=
    @prime_of_lucasCheck _ 11 [2, 2, 2, 3, 3, 3, 5, 774023187263532362759620327192479577272145303]
      (by simp [prime_45]; norm_num) (by decide +kernel)
  exact @prime_of_lucasCheck _ 6 [2, 3, 5, 5, 17, 257, 641, 1531, 65537, 490463, 6700417,
    835945042244614951780389953367877943453916927241] (by simp [h]; norm_num) (by decide +kernel)

theorem prime_28 : Nat.Prime 2624747550333869278416773953 := by
  have h₁ : Nat.Prime 191039911 := @prime_of_lucasCheck _ 3 [2, 3, 5, 41, 155317] (by norm_num)
      (by decide +kernel)
  have h₂ : Nat.Prime 208150935158385979 :=
    @prime_of_lucasCheck _ 2 [2, 3, 11, 43, 127, 3023, 191039911] (by simp [h₁]; norm_num) (by decide +kernel)
  exact @prime_of_lucasCheck _ 7 [2, 2, 2, 2, 2, 2, 3, 3, 1297, 16879, 208150935158385979]
    (by simp [h₂]; norm_num) (by decide +kernel)

theorem prime_groupOrder : groupOrder.Prime := by
  have h₁ : Nat.Prime 187019741 := @prime_of_lucasCheck _ 2 [2, 2, 5, 9350987] (by norm_num)
      (by decide +kernel)
  have h₀ : Nat.Prime 311245691 := @prime_of_lucasCheck _ 2 [2, 5, 7, 17, 29, 29, 311] (by norm_num)
      (by decide +kernel)
  have h₂ : Nat.Prime 622491383 := @prime_of_lucasCheck _ 5 [2, 311245691] (by simp [h₀]; norm_num)
      (by decide +kernel)
  have h₃ : Nat.Prime 1002328039319 := @prime_of_lucasCheck _ 19 [2, 126241, 3969899] (by norm_num)
      (by decide +kernel)
  exact @prime_of_lucasCheck _ 7 [2, 2, 2, 2, 3, 71, 131, 373, 3407, 17449, 38189, 187019741,
      622491383, 1002328039319,
    2624747550333869278416773953] (by simp [h₁, h₂, h₃, prime_28]; norm_num) (by decide +kernel)

end Prime

theorem suitable_of_value {m : P256Num} {k : Nat} (h : m.value = k) (hodd : k % 2 = 1)
    (htop : 2 ^ 256 < 2 * k) :
    Suitable m := by
  refine ⟨h ▸ hodd, ?_⟩
  have hcount : 32 * 8 = 256 := by norm_num
  rw [h, hcount]
  exact htop

theorem valid_field : Valid (p256ModInit p256P) :=
  valid_modInit (suitable_of_value value_p256P (by decide) (by decide)) (value_p256P ▸ prime_fieldPrime)

theorem valid_order : Valid (p256ModInit p256N) :=
  valid_modInit (suitable_of_value value_p256N (by decide) (by decide)) (value_p256N ▸ prime_groupOrder)

/-! ## The operations -/

section

variable {ctx : P256Mod} {a b : P256Num}

theorem value_p256ModAdd (ha : a.value < ctx.m.value) (hb : b.value < ctx.m.value) :
    (p256ModAdd ctx a b).value = (a.value + b.value) % ctx.m.value := by
  obtain ⟨hsum, hcarry⟩ := a.value_add b
  have hnarrow : (a.add b).2.toUInt32.toNat = (a.add b).2.toNat := by
    rw [UInt64.toNat_toUInt32, Nat.mod_eq_of_lt (by omega)]
  rw [p256ModAdd, p256AddRaw]
  dsimp only
  rw [value_reduceOnce (by rw [hnarrow, hsum]; omega), hnarrow, hsum]

theorem value_p256ModSub (ha : a.value < ctx.m.value) (hb : b.value < ctx.m.value) :
    (p256ModSub ctx a b).value = (a.value + ctx.m.value - b.value) % ctx.m.value := by
  have hM := ctx.m.lt
  by_cases hle : b.value ≤ a.value
  · obtain ⟨hvalue, hborrow⟩ := Num.value_sub_of_le hle
    have hskip : ¬ (p256SubRaw a b).2 ≠ 0 := by
      rw [p256SubRaw, hborrow]
      exact fun h => h rfl
    rw [p256ModSub, if_neg hskip, p256SubRaw, hvalue, Nat.add_comm, Nat.add_sub_assoc hle, Nat.add_mod_left,
      Nat.mod_eq_of_lt (by omega)]
  · -- what the wrapping subtraction put above is dropped again when the modulus is added
    obtain ⟨hvalue, hborrow⟩ := Num.value_sub_of_lt (by omega : a.value < b.value)
    have htake : (p256SubRaw a b).2 ≠ 0 := by
      rw [p256SubRaw, hborrow]
      exact (by decide : (1 : UInt64).toUInt32 ≠ 0)
    obtain ⟨hsum, hcarry⟩ := (a.sub b).1.value_add ctx.m
    have hlt := ((a.sub b).1.add ctx.m).1.lt
    have hone : ((a.sub b).1.add ctx.m).2.toNat = 1 := by
      by_contra hne
      have hzero : ((a.sub b).1.add ctx.m).2.toNat = 0 := by omega
      rw [hzero, hvalue] at hsum
      omega
    rw [hone, hvalue] at hsum
    rw [p256ModSub, if_pos htake, p256AddRaw, p256SubRaw, Nat.mod_eq_of_lt (by omega)]
    dsimp only
    omega

theorem p256MontMul_spec (h : Valid ctx) (b : P256Num) (ha : a.value < ctx.m.value) :
    (p256MontMul ctx a b).value < ctx.m.value ∧
      (p256MontMul ctx a b).value * 2 ^ 256 ≡ a.value * b.value [MOD ctx.m.value] := by
  rw [p256MontMul, h.n0inv_eq]
  exact montMul_spec h.suitable.odd b ha

theorem form_p256ToMont (h : Valid ctx) (ha : a.value < ctx.m.value) :
    Form ctx.m (p256ToMont ctx a) a.value := by
  rw [p256ToMont, p256MontMul, h.n0inv_eq, h.rr_eq]
  exact Form.enter h.suitable ha

theorem value_p256FromMont (h : Valid ctx) {k : Nat} (ha : Form ctx.m a k) :
    (p256FromMont ctx a).value = k % ctx.m.value := by
  rw [p256FromMont, p256MontMul, h.n0inv_eq]
  exact Form.leave h.suitable ha (Num.value_ofLimb (by decide) 1)

theorem p256FromMont_toMont (h : Valid ctx) (ha : a.value < ctx.m.value) :
    p256FromMont ctx (p256ToMont ctx a) = a := by
  apply Num.ext_value
  rw [value_p256FromMont h (form_p256ToMont h ha), Nat.mod_eq_of_lt ha]

/-- Every residue is the Montgomery form of one. -/
theorem form_fromMont (h : Valid ctx) (ha : a.value < ctx.m.value) :
    Form ctx.m a (p256FromMont ctx a).value := by
  refine ⟨ha, ?_⟩
  have hspec := (p256MontMul_spec h (Num.ofLimb 8 1) ha).2
  rw [Num.value_ofLimb (by decide) 1] at hspec
  exact (hspec.trans (by simp [Nat.ModEq.refl])).symm

theorem form_p256MontInv (h : Valid ctx) {k : Nat} (ha : Form ctx.m a k) :
    Form ctx.m (p256MontInv ctx a) (k ^ (ctx.m.value - 2)) := by
  have htwo : (Num.ofLimb 8 2).value = 2 := Num.value_ofLimb (by decide) 2
  obtain ⟨hexponent, -⟩ := Num.value_sub_of_le (show (Num.ofLimb 8 2).value ≤ ctx.m.value by
    rw [htwo]
    exact h.suitable.one_lt)
  have hlt : ctx.m.value - 2 < 2 ^ 256 := lt_of_le_of_lt (Nat.sub_le _ _) ctx.m.lt
  rw [p256MontInv, h.one_eq, p256SubRaw, bit_eq, ← Num.value, hexponent, htwo]
  have hpow := Form.pow h.suitable ha hlt
  rw [← h.n0inv_eq] at hpow
  exact hpow

/-- Fermat's inverse. -/
theorem mul_pow_sub_two {p k : Nat} (hp : p.Prime) (hk : ¬ p ∣ k) : k * k ^ (p - 2) ≡ 1 [MOD p] := by
  have hcoprime : Nat.Coprime k p := ((Nat.Prime.coprime_iff_not_dvd hp).mpr hk).symm
  have hfermat := Nat.ModEq.pow_totient hcoprime
  have hexp : p - 2 + 1 = p - 1 := by
    have := hp.two_le
    omega
  rwa [Nat.totient_prime hp, ← hexp, pow_succ'] at hfermat

end

/-- **P-256 arithmetic is exact** modulo the field prime and modulo the group order. -/
theorem mod_exact (modulus : List UInt8) (hmodulus : modulus = p256P ∨ modulus = p256N) :
    (∀ a b : P256Num, a.value < Octets.be modulus → b.value < Octets.be modulus →
      ((p256ModAdd (p256ModInit modulus) a b).value < Octets.be modulus ∧
        (p256ModAdd (p256ModInit modulus) a b).value ≡ a.value + b.value [MOD Octets.be modulus]) ∧
      ((p256ModSub (p256ModInit modulus) a b).value < Octets.be modulus ∧
        ((p256ModSub (p256ModInit modulus) a b).value : Int) ≡ a.value - b.value [ZMOD Octets.be modulus]) ∧
      (p256MontMul (p256ModInit modulus) a b).value < Octets.be modulus ∧
        (p256MontMul (p256ModInit modulus) a b).value * 2 ^ 256 ≡ a.value * b.value [MOD Octets.be modulus]) ∧
    (∀ a : P256Num, a.value < Octets.be modulus →
      ((p256ToMont (p256ModInit modulus) a).value < Octets.be modulus ∧
        (p256ToMont (p256ModInit modulus) a).value ≡ a.value * 2 ^ 256 [MOD Octets.be modulus]) ∧
      p256FromMont (p256ModInit modulus) (p256ToMont (p256ModInit modulus) a) = a ∧
      p256ToMont (p256ModInit modulus) (p256FromMont (p256ModInit modulus) a) = a) ∧
    ∀ a : P256Num, a.value < Octets.be modulus → a.value ≠ 0 → ∃ inv : P256Num,
      inv.value < Octets.be modulus ∧ a.value * inv.value ≡ 1 [MOD Octets.be modulus] ∧
        p256MontInv (p256ModInit modulus) (p256ToMont (p256ModInit modulus) a) =
          p256ToMont (p256ModInit modulus) inv := by
  obtain ⟨h, hm⟩ : Valid (p256ModInit modulus) ∧ Octets.be modulus = (p256ModInit modulus).m.value := by
    rcases hmodulus with rfl | rfl
    · exact ⟨valid_field, (value_p256FromBe rfl).symm⟩
    · exact ⟨valid_order, (value_p256FromBe rfl).symm⟩
  rw [hm]
  generalize p256ModInit modulus = ctx at h
  have hpos := h.suitable.pos
  refine ⟨?_, ?_, ?_⟩
  · intro a b ha hb
    refine ⟨?_, ?_, p256MontMul_spec h b ha⟩
    · rw [value_p256ModAdd ha hb]
      exact ⟨Nat.mod_lt _ hpos, Nat.mod_modEq _ _⟩
    · rw [value_p256ModSub ha hb]
      refine ⟨Nat.mod_lt _ hpos, ?_⟩
      calc ((((a.value + ctx.m.value - b.value) % ctx.m.value : Nat)) : Int)
          = (a.value - b.value + ctx.m.value) % ctx.m.value := by
            rw [Int.natCast_mod, Nat.cast_sub (by omega), Nat.cast_add, sub_add_eq_add_sub]
        _ ≡ a.value - b.value + ctx.m.value [ZMOD ctx.m.value] := Int.mod_modEq _ _
        _ ≡ a.value - b.value [ZMOD ctx.m.value] := Int.add_modEq_right
  · intro a ha
    have hform := form_p256ToMont h ha
    refine ⟨⟨hform.lt, hform.modEq⟩, p256FromMont_toMont h ha, ?_⟩
    have hback := form_fromMont h ha
    have hlt := (p256MontMul_spec h (Num.ofLimb 8 1) ha).1
    exact (form_p256ToMont h hlt).unique hback rfl
  · intro a ha hne
    have hinv := form_p256MontInv h (form_p256ToMont h ha)
    have hvalue := value_p256FromMont h hinv
    refine ⟨p256FromMont ctx (p256MontInv ctx (p256ToMont ctx a)), ?_, ?_, ?_⟩
    · rw [hvalue]
      exact Nat.mod_lt _ hpos
    · rw [hvalue]
      exact ((Nat.mod_modEq _ _).mul_left _).trans
        (mul_pow_sub_two h.prime (Nat.not_dvd_of_pos_of_lt (Nat.pos_of_ne_zero hne) ha))
    · refine hinv.unique (form_p256ToMont h ?_) ?_
      · rw [hvalue]
        exact Nat.mod_lt _ hpos
      · rw [hvalue]
        exact (Nat.mod_modEq _ _).symm

/-- The inverse of two modulo the group order. -/
theorem mod_exact_two : ∃ inv : P256Num, 2 * inv.value ≡ 1 [MOD Octets.be p256N] ∧
    p256MontInv (p256ModInit p256N) (p256ToMont (p256ModInit p256N) (Num.ofLimb 8 2)) =
      p256ToMont (p256ModInit p256N) inv := by
  obtain ⟨-, -, hinv⟩ := mod_exact p256N (.inr rfl)
  have htwo : (Num.ofLimb 8 2).value = 2 := Num.value_ofLimb (by decide) 2
  obtain ⟨inv, -, hmul, heq⟩ := hinv (Num.ofLimb 8 2) (by rw [htwo]; decide +kernel) (by rw [htwo]; decide)
  rw [htwo] at hmul
  exact ⟨inv, hmul, heq⟩

end Tamga.P256
