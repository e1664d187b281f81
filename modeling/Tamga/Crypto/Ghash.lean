import Tamga.Crypto.Gcm
import Tamga.Lib.BinaryField
import Tamga.Lib.Octets

/-!
# `Crypto.Ghash` — what `tamga_gcm_gf_mul` multiplies in

A block of sixteen bytes, read as one big-endian number, is an element of
`GF(2)[z] / (z^128 + z^7 + z^2 + z + 1)` with its highest bit as the constant coefficient. One round of
the loop on bytes is one round of `BinaryField.mul` on numbers.
-/

namespace Tamga.Gcm

open BinaryField Polynomial Octets

/-! ## The field -/

/-- `z^128 + z^7 + z^2 + z + 1`. -/
noncomputable def modulus : (ZMod 2)[X] := X ^ 128 + X ^ 7 + X ^ 2 + X + 1

abbrev Quotient : Type := AdjoinRoot modulus

/-- The class of `z`. -/
noncomputable def root : Quotient := AdjoinRoot.root modulus

/-- The reduction constant, `0xE1 || 0^120`. -/
def reduction : Nat := 0xE1 * 2 ^ 120

theorem degree_modulus : modulus.degree = (128 : Nat) := by
  unfold modulus
  compute_degree!

instance : Nontrivial Quotient := AdjoinRoot.nontrivial modulus (by rw [degree_modulus]; decide)

instance : CharP Quotient 2 := charP_of_injective_ringHom (AdjoinRoot.of modulus).injective 2

theorem root_pow : root ^ 128 = elt root 128 reduction := by
  have hroot : root ^ 128 + root ^ 7 + root ^ 2 + root + 1 = 0 := by
    have hdef : modulus = X ^ 128 + X ^ 7 + X ^ 2 + X + 1 := by
      unfold modulus
      with_reducible rfl
    have hmk := (congrArg (AdjoinRoot.mk modulus) hdef).symm.trans AdjoinRoot.mk_self
    rw [root]
    simpa only [map_add, map_pow, map_one, AdjoinRoot.mk_X] using hmk
  have hbits : reduction =
      2 ^ (128 - 1 - 0) ^^^ 2 ^ (128 - 1 - 1) ^^^ 2 ^ (128 - 1 - 2) ^^^ 2 ^ (128 - 1 - 7) := by
    decide
  rw [hbits, elt_xor, elt_xor, elt_xor, elt_two_pow (by decide), elt_two_pow (by decide),
      elt_two_pow (by decide),
    elt_two_pow (by decide)]
  linear_combination hroot - (root ^ 7 + root ^ 2 + root + 1) * CharTwo.two_eq_zero (R := Quotient)

/-- Squaring, on numbers. -/
def square (a : Nat) : Nat := mul 128 reduction a a

theorem elt_square_iterate {a : Nat} (ha : a < 2 ^ 128) (n : Nat) :
    square^[n] a < 2 ^ 128 ∧ elt root 128 (square^[n] a) = elt root 128 a ^ 2 ^ n :=
  elt_iterate_sq (by decide) root_pow (by decide) ha n

theorem irreducible_modulus : Irreducible modulus := by
  have hz : elt root 128 (2 ^ 126) = root := by
    rw [elt_two_pow (i := 1) (by decide), pow_one]
  have hhalf : square^[64] (2 ^ 126) = 0x6f9945a9e519a7229d4c1ad657f8a686 := by decide +kernel
  have hall : square^[64] 0x6f9945a9e519a7229d4c1ad657f8a686 = 2 ^ 126 := by decide +kernel
  have hpow : root ^ 2 ^ 64 = elt root 128 0x6f9945a9e519a7229d4c1ad657f8a686 := by
    rw [← hhalf, (elt_square_iterate (by decide) 64).2, hz]
  refine irreducible_of_frobenius (m := 64) (natDegree_eq_of_degree_eq_some degree_modulus)
      (by decide) ?_ ?_ ?_
  · intro d hd hne
    have hd : d ∣ 2 ^ 7 := hd
    obtain ⟨k, hk, rfl⟩ := (Nat.dvd_prime_pow Nat.prime_two).mp hd
    exact pow_dvd_pow 2 (by
      by_contra hlt
      exact hne (by rw [show k = 7 by omega]; norm_num) : k ≤ 6)
  · show root ^ 2 ^ (2 * 64) = root
    rw [Nat.two_mul, pow_add, pow_mul, hpow, ← (elt_square_iterate (by decide) 64).2, hall, hz]
  · apply IsUnit.of_mul_eq_one (elt root 128 0x180da934bf53158251c13dbb149f5279)
    have hinverse : mul 128 reduction (0x6f9945a9e519a7229d4c1ad657f8a686 ^^^ 2 ^ 126)
        0x180da934bf53158251c13dbb149f5279 = 2 ^ 127 := by decide +kernel
    show (root ^ 2 ^ 64 - root) * _ = 1
    nth_rewrite 2 [← hz]
    rw [CharTwo.sub_eq_add, hpow, ← elt_xor,
        ← elt_mul (by decide) root_pow (by decide) _ (by decide), hinverse,
      elt_two_pow (i := 0) (by decide), pow_zero]

/-! ## The loop on bytes -/

theorem and_one_cases : ∀ b : UInt8, b &&& 1 = 0 ∨ b &&& 1 = 1 := forall_byte (by decide +kernel)

theorem and_none : ∀ b : UInt8, b &&& (0 - 0) = 0 := forall_byte (by decide +kernel)

theorem and_full : ∀ b : UInt8, b &&& (0 - 1) = b := forall_byte (by decide +kernel)

/-- A mask of one bit is all ones or nothing. -/
theorem be_masked (v : Bytes) (b : UInt8) :
    be (v.map fun v => v &&& (0 - (b &&& 1))) = if b &&& 1 != 0 then be v else 0 := by
  rcases and_one_cases b with h | h
  · rw [h]
    simp only [and_none, List.map_const', be_replicate_zero]
    rfl
  · rw [h]
    simp only [and_full, List.map_id']
    rfl

/-- The reduction, at the first byte. -/
theorem be_reduced {v : Bytes} (hlen : v.length = 16) (b : UInt8) :
    be (v.set 0 (v.getD 0 0 ^^^ (0xE1 &&& (0 - (b &&& 1))))) =
      be v ^^^ (if b &&& 1 != 0 then reduction else 0) := by
  obtain ⟨x, v, rfl⟩ := List.exists_cons_of_length_eq_add_one hlen
  have hrest : v.length = 15 := by simpa using hlen
  have hlt : be v < 2 ^ 120 := by
    have h := be_lt v
    rwa [hrest] at h
  have hpow : (256 : Nat) ^ 15 = 2 ^ 120 := by norm_num
  have hxor := xor_two_pow_mul_add hlt (Nat.two_pow_pos 120) x.toNat (0xE1 &&& (0 - (b &&& 1)) : UInt8).toNat
  rw [Nat.add_zero, Nat.xor_zero] at hxor
  have hmask : 2 ^ 120 * (0xE1 &&& (0 - (b &&& 1)) : UInt8).toNat =
      if b &&& 1 != 0 then reduction else 0 := by
    rcases and_one_cases b with h | h
    · rw [h]
      rfl
    · rw [h]
      rfl
  rw [List.set_cons_zero, List.getD_cons_zero, be_cons, be_cons, UInt8.toNat_xor, hrest, hpow,
    Nat.mul_comm, Nat.mul_comm x.toNat, ← hxor, hmask]

/-- The bit of `z ^ i`: the bits of a block, highest first. -/
def blockBit (block : Bytes) (i : Nat) : Bool := (block.getD (i / 8) 0 >>> UInt8.ofNat (7 - i % 8)) &&& 1 != 0

theorem blockBit_eq {block : Bytes} (hlen : block.length = 16) {i : Nat} (hi : i < 128) :
    blockBit block i = (be block).testBit (128 - 1 - i) := by
  rw [← bitBe_eq (by omega), bitBe, blockBit, hlen]
  congr 5 <;> omega

/-- One round on bytes is one round on numbers. -/
theorem gfMulStep_eq {x z v : Bytes} (hx : x.length = 16) (hz : z.length = 16) (hv : v.length = 16)
    {bit : Nat}
    (hbit : bit < 128) :
    ((gfMulStep x (z, v) bit).1.length = 16 ∧ (gfMulStep x (z, v) bit).2.length = 16) ∧
      be (gfMulStep x (z, v) bit).1 = (mulStep 128 reduction (be x) (be z, be v) bit).1 ∧
      be (gfMulStep x (z, v) bit).2 = (mulStep 128 reduction (be x) (be z, be v) bit).2 := by
  have hxbit := blockBit_eq hx hbit
  rw [blockBit] at hxbit
  have hlow : (v.getD 15 0 &&& 1 != 0) = decide (be v % 2 = 1) := by
    rw [← Nat.testBit_zero, ← bitBe_eq (by omega), bitBe, hv]
    simp
  have hshift := be_shiftRight v 0
  rw [UInt8.toNat_zero, Nat.zero_mod, Nat.zero_mul, Nat.zero_add] at hshift
  have hshifted : (List.zipWith
      (fun v before : UInt8 => (v >>> 1) ||| ((before &&& 1) <<< 7)) v (0 :: v)).length = 16 := by
    simp [hv]
  refine ⟨⟨?_, ?_⟩, ?_, ?_⟩
  · simp [gfMulStep, hz, hv]
  · simp [gfMulStep, hv]
  · rw [gfMulStep]
    dsimp only
    rw [← List.zipWith_map_right, be_xor (by rw [List.length_map, hz, hv]), be_masked, hxbit]
    rfl
  · rw [gfMulStep]
    dsimp only
    rw [be_reduced hshifted, hshift, hlow]
    simp only [mulStep, halve, decide_eq_true_eq]

/-- The rounds. -/
theorem gfMulStep_foldl {x y : Bytes} (hx : x.length = 16) (hy : y.length = 16) {n : Nat} (hn : n ≤ 128) :
    (((List.range n).foldl (gfMulStep x) (List.replicate 16 0, y)).1.length = 16 ∧
        ((List.range n).foldl (gfMulStep x) (List.replicate 16 0, y)).2.length = 16) ∧
      be ((List.range n).foldl (gfMulStep x) (List.replicate 16 0, y)).1 =
        ((List.range n).foldl (mulStep 128 reduction (be x)) (0, be y)).1 ∧
      be ((List.range n).foldl (gfMulStep x) (List.replicate 16 0, y)).2 =
        ((List.range n).foldl (mulStep 128 reduction (be x)) (0, be y)).2 := by
  induction n with
  | zero => exact ⟨⟨List.length_replicate, hy⟩, be_replicate_zero 16, rfl⟩
  | succ n ih =>
    obtain ⟨⟨hz, hv⟩, hsum, hmultiple⟩ := ih (by omega)
    obtain ⟨hlen, hfirst, hsecond⟩ := gfMulStep_eq hx hz hv (by omega : n < 128)
    rw [hsum, hmultiple] at hfirst hsecond
    simp only [List.range_succ, List.foldl_append, List.foldl_cons, List.foldl_nil]
    exact ⟨hlen, hfirst, hsecond⟩

/-! ## The element of a block -/

/-- The element of a block, in the reflected order: its highest bit is the constant coefficient. -/
noncomputable def element (block : Bytes) : Quotient :=
  ∑ i ∈ Finset.range 128, if blockBit block i then root ^ i else 0

theorem element_eq {block : Bytes} (hlen : block.length = 16) : element block = elt root 128 (be block) := by
  apply Finset.sum_congr rfl
  intro i hi
  rw [blockBit_eq hlen (Finset.mem_range.mp hi)]

theorem be_lt_of_length {block : Bytes} (hlen : block.length = 16) : be block < 2 ^ 128 := by
  have hlt := be_lt block
  rwa [hlen] at hlt

section

variable {x y : Bytes} (hx : x.length = 16) (hy : y.length = 16)
include hx hy

theorem element_gfMul : element (gfMul x y) = element x * element y := by
  rw [element_eq (length_gfMul x hy), element_eq hx, element_eq hy, gfMul, (gfMulStep_foldl hx hy le_rfl).2.1]
  exact elt_mul (by decide) root_pow (by decide) _ (be_lt_of_length hy)

theorem length_xorBlocks : (xorBytes x y).length = 16 := (length_xorBytes (hx.trans hy.symm).le).trans hx

theorem element_xorBytes : element (xorBytes x y) = element x + element y := by
  rw [element_eq (length_xorBlocks hx hy), element_eq hx, element_eq hy, xorBytes,
      be_xor (hx.trans hy.symm), elt_xor]

/-- No two blocks are one element. -/
theorem element_inj (h : element x = element y) : x = y := by
  rw [element_eq hx, element_eq hy] at h
  exact be_inj (hx.trans hy.symm) (elt_injective degree_modulus (be_lt_of_length hx) (be_lt_of_length hy) h)

end

/-- The block `0x80 00..00`. -/
def oneBlock : Bytes := 0x80 :: List.replicate 15 0

theorem element_oneBlock : element oneBlock = 1 := by
  have hvalue : be oneBlock = 2 ^ (128 - 1 - 0) := by decide +kernel
  rw [element_eq rfl, hvalue, elt_two_pow (by decide), pow_zero]

/-! ## GHASH -/

/-- Sixteen bytes from `16 * i` on, zero-padded. -/
def paddedBlock (data : Bytes) (i : Nat) : Bytes :=
  let piece := (data.drop (16 * i)).take 16
  piece ++ List.replicate (16 - piece.length) 0

def paddedBlocks (data : Bytes) : List Bytes := (List.range ((data.length + 15) / 16)).map (paddedBlock data)

theorem length_paddedBlock (data : Bytes) (i : Nat) : (paddedBlock data i).length = 16 := by
  simp only [paddedBlock, List.length_append, List.length_replicate, List.length_take]
  omega

theorem paddedBlocks_of_ne_nil {data : Bytes} (hne : data.length ≠ 0) :
    paddedBlocks data = paddedBlock data 0 :: paddedBlocks (data.drop 16) := by
  have hcount : (data.length + 15) / 16 = ((data.drop 16).length + 15) / 16 + 1 := by
    rw [List.length_drop]
    omega
  rw [paddedBlocks, hcount, List.range_succ_eq_map, List.map_cons, List.map_map]
  congr 1
  apply List.map_congr_left
  intro i _
  simp only [Function.comp_apply, paddedBlock, List.drop_drop]
  rw [show 16 + 16 * i = 16 * i.succ by omega]

/-- The accumulator after a whole string is Horner's scheme over its blocks. -/
theorem element_ghashUpdate {h : Bytes} (hh : h.length = 16) (fuel : Nat) :
    ∀ {acc data : Bytes}, acc.length = 16 →
    data.length ≤ fuel → element (ghashUpdate h fuel acc data) =
      (paddedBlocks data).foldl (fun sum block => (sum + element block) * element h) (element acc) := by
  induction fuel with
  | zero =>
    intro acc data _ hdata
    obtain rfl := List.eq_nil_of_length_eq_zero (Nat.le_zero.mp hdata)
    rfl
  | succ fuel ih =>
    intro acc data hacc hdata
    by_cases hempty : data.length = 0
    · obtain rfl := List.eq_nil_of_length_eq_zero hempty
      rfl
    · have hblock : overwrite (List.replicate 16 0) 0 (data.take 16) = paddedBlock data 0 := by
        rw [overwrite, List.take_zero, List.nil_append, Nat.zero_add, List.drop_replicate]
        rfl
      have hlen := length_paddedBlock data 0
      rw [ghashUpdate, if_neg hempty, hblock, ih (length_gfMul _ hh) (by rw [List.length_drop]; omega),
        paddedBlocks_of_ne_nil hempty, List.foldl_cons, element_gfMul (length_xorBlocks hacc hlen) hh,
        element_xorBytes hacc hlen]

/-- **GHASH multiplies in the field** `GF(2)[z] / (z^128 + z^7 + z^2 + z + 1)`, and hashes by
    Horner's scheme. -/
theorem ghash_field :
    Irreducible modulus ∧
    (∀ x y : Bytes, x.length = 16 → y.length = 16 →
      (gfMul x y).length = 16 ∧ element (gfMul x y) = element x * element y ∧
        (element x = element y → x = y)) ∧
    (∀ x y w : Bytes, x.length = 16 → y.length = 16 → w.length = 16 →
      gfMul x y = gfMul y x ∧ gfMul (gfMul x y) w = gfMul x (gfMul y w) ∧
        gfMul x (xorBytes y w) = xorBytes (gfMul x y) (gfMul x w) ∧ gfMul oneBlock x = x) ∧
    ∀ h acc data : Bytes, h.length = 16 → acc.length = 16 → element (ghashUpdate h data.length acc data) =
      (paddedBlocks data).foldl (fun sum block => (sum + element block) * element h) (element acc) := by
  refine ⟨irreducible_modulus, ?_, ?_, ?_⟩
  · intro x y hx hy
    exact ⟨length_gfMul x hy, element_gfMul hx hy, element_inj hx hy⟩
  · intro x y w hx hy hw
    have hxy := length_gfMul x hy
    have hyw := length_gfMul y hw
    have hxw := length_gfMul x hw
    refine ⟨?_, ?_, ?_, ?_⟩
    · apply element_inj hxy (length_gfMul y hx)
      rw [element_gfMul hx hy, element_gfMul hy hx, mul_comm]
    · apply element_inj (length_gfMul _ hw) (length_gfMul x hyw)
      rw [element_gfMul hxy hw, element_gfMul hx hy, element_gfMul hx hyw, element_gfMul hy hw, mul_assoc]
    · apply element_inj (length_gfMul x (length_xorBlocks hy hw)) (length_xorBlocks hxy hxw)
      rw [element_gfMul hx (length_xorBlocks hy hw), element_xorBytes hy hw, element_xorBytes hxy hxw,
        element_gfMul hx hy, element_gfMul hx hw, mul_add]
    · apply element_inj (length_gfMul _ hx) hx
      rw [element_gfMul rfl hx, element_oneBlock, one_mul]
  · intro h acc data hh hacc
    exact element_ghashUpdate hh data.length hacc le_rfl

/-- The elements `z` and `z^127`. -/
def zBlock : Bytes := 0x40 :: List.replicate 15 0

def topBlock : Bytes := List.replicate 15 0 ++ [0x01]

/-- Their product wraps around, from either side: `z^7 + z^2 + z + 1`. -/
theorem ghash_field_wraps : gfMul zBlock topBlock = 0xE1 :: List.replicate 15 0 ∧
    gfMul topBlock zBlock = 0xE1 :: List.replicate 15 0 := by
  have hproduct : gfMul zBlock topBlock = 0xE1 :: List.replicate 15 0 := by decide +kernel
  have hcomm := (ghash_field.2.2.1 zBlock topBlock oneBlock rfl rfl rfl).1
  exact ⟨hproduct, hcomm.symm.trans hproduct⟩

end Tamga.Gcm
