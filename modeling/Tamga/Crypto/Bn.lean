import Tamga.Lib.Montgomery

/-!
# `Crypto.Bn` — modular exponentiation for RSA

`bn.c`: limbs of 32 bits, loaded from and stored to big-endian byte strings, and one operation over them.
Beside the answer, the model keeps the multiplications the exponentiation makes (`Call`), so that what each
of them is given can be stated.
-/

namespace Tamga.Bn

open Limbs Octets

/-- `TAMGA_BN_MAX_BYTES`. -/
def maxBytes : Nat := 1024

/-- Bit `index` of a big-endian byte string. -/
def bnBeBit (bytes : List UInt8) (index : Nat) : Bool := Octets.bitBe bytes index

def bnLimbsFor (byteLen : Nat) : Nat := (byteLen + 3) / 4

/-- One byte, `offset` bytes from the least significant end. -/
def orByte (limbs : List UInt32) (byte : UInt8) (offset : Nat) : List UInt32 :=
  let limb := offset / 4
  let shift := UInt32.ofNat (offset % 4 * 8)
  if limb < limbs.length then limbs.set limb (limbs.getD limb 0 ||| byte.toUInt32 <<< shift) else limbs

def fromBeLoop : (bytes : List UInt8) → (limbs : List UInt32) → List UInt32
  | [], limbs => limbs
  | byte :: bytes, limbs => fromBeLoop bytes (orByte limbs byte bytes.length)

theorem length_orByte (limbs : List UInt32) (byte : UInt8) (offset : Nat) :
    (orByte limbs byte offset).length = limbs.length := by
  rw [orByte]
  split
  · exact List.length_set
  · rfl

theorem length_fromBeLoop (bytes : List UInt8) : ∀ limbs, (fromBeLoop bytes limbs).length = limbs.length := by
  induction bytes with
  | nil =>
    intro limbs
    rfl
  | cons byte bytes ih =>
    intro limbs
    rw [fromBeLoop, ih, length_orByte]

/-- Loads a big-endian byte string, zero-padding the top. -/
def bnFromBe (n : Nat) (bytes : List UInt8) : Num n :=
  ⟨fromBeLoop bytes (List.replicate n 0), (length_fromBeLoop _ _).trans List.length_replicate⟩

/-- The byte `offset` bytes from the least significant end. -/
def byteAt (limbs : List UInt32) (offset : Nat) : UInt8 :=
  let limb := offset / 4
  let shift := UInt32.ofNat (offset % 4 * 8)
  (if limb < limbs.length then limbs.getD limb 0 >>> shift else 0).toUInt8

def bnToBe {n : Nat} (a : Num n) (byteLen : Nat) : List UInt8 :=
  (List.range byteLen).map fun i => byteAt a.limbs (byteLen - 1 - i)

/-- `tamga_bn_cmp(a, b) >= 0`. -/
def bnNotBelow {n : Nat} (a b : Num n) : Bool := a.cmp b != .lt

def bnSub {n : Nat} (a b : Num n) : Num n := (a.sub b).1

def bnDoubleMod {n : Nat} (modulus value : Num n) : Num n := doubleMod modulus value

def bnN0inv (m0 : UInt32) : UInt32 := negInv m0

def bnMontMul {n : Nat} (a b modulus : Num n) (n0inv : UInt32) : Num n := montMul modulus n0inv a b

/-! ## The exponentiation -/

/-- A call of `bnMontMul`: its operands, and what it returned. -/
structure Call (n : Nat) where
  a : Num n
  b : Num n
  r : Num n

/-- The accumulator, and the multiplications made so far. -/
structure Progress (n : Nat) where
  acc : Num n
  calls : List (Call n)

section

variable {n : Nat}

/-- `acc = a * b`. -/
def Progress.mul (modulus : Num n) (n0inv : UInt32) (s : Progress n) (a b : Num n) : Progress n :=
  let r := bnMontMul a b modulus n0inv
  ⟨r, s.calls ++ [⟨a, b, r⟩]⟩

/-- Square-and-multiply over the lowest `bits` bits of the exponent. -/
def bnLadder (m : Num n) (n0inv : UInt32) (baseMont : Num n) (exponent : List UInt8) (bits : Nat)
    (s : Progress n) :
    Progress n :=
  Ladder.ladder (fun s : Progress n => s.mul m n0inv s.acc s.acc) (fun s => s.mul m n0inv s.acc baseMont)
    (bnBeBit exponent) bits s

/-- The second half, once the modulus and the base have passed their checks. -/
def bnPower (m b : Num n) (exponent : List UInt8) : List (Call n) × Option (Num n) :=
  let n0inv := bnN0inv m.low
  let rr := bnSub (Limbs.Num.zero n) m
  let rr := (bnDoubleMod m)^[n * 32] rr
  let acc := bnSub (Limbs.Num.zero n) m
  let s := Progress.mul m n0inv ⟨acc, []⟩ b rr
  let baseMont := s.acc
  match Ladder.highest (bnBeBit exponent) (exponent.length * 8) with
  | none => (s.calls, none)
  | some highestBit =>
      let s := bnLadder m n0inv baseMont exponent (highestBit + 1) ⟨acc, s.calls⟩
      let s := s.mul m n0inv s.acc (Num.ofLimb n 1)
      (s.calls, some s.acc)

end

/-- `tamga_bn_modexp`: the multiplications made, and what was stored where it returned true. -/
def bnModexp (base modulus exponent : List UInt8) :
    List (Call (bnLimbsFor modulus.length)) × Option (List UInt8) :=
  if modulus.length = 0 ∨ modulus.length > maxBytes ∨ exponent.length = 0 ∨
      exponent.length > modulus.length then
    ([], none)
  else
    let n := bnLimbsFor modulus.length
    let m := bnFromBe n modulus
    let b := bnFromBe n base
    if m.low &&& 1 = 0 then ([], none)
    else if m.limbs.getD (n - 1) 0 &&& 0x80000000 = 0 then ([], none)
    else if bnNotBelow b m then ([], none)
    else
      let result := bnPower m b exponent
      (result.1, result.2.map fun acc => bnToBe acc modulus.length)

/-! ## Loading and storing -/

theorem bnBeBit_eq {bytes : List UInt8} {i : Nat} (hi : i < bytes.length * 8) :
    bnBeBit bytes i = (be bytes).testBit i := bitBe_eq hi

theorem value_orByte {limbs : List UInt32} {offset : Nat} (byte : UInt8) (hoffset : offset < limbs.length * 4)
    (hdvd : 256 ^ (offset + 1) ∣ value limbs) :
    value (orByte limbs byte offset) = value limbs + byte.toNat * 256 ^ offset := by
  have hplace : 32 * (offset / 4) + offset % 4 * 8 = 8 * offset := by omega
  have hpow : (256 : Nat) ^ (offset + 1) = 2 ^ (32 * (offset / 4) + offset % 4 * 8 + 8) := by
    rw [hplace, ← Nat.mul_succ, pow_mul]
    rfl
  rw [hpow] at hdvd
  rw [orByte, if_pos (by omega), value_set_or byte (by omega) (by omega) hdvd, hplace, pow_mul]
  rfl

/-- Bytes that remain are added below what the limbs hold. -/
theorem value_fromBeLoop (bytes : List UInt8) : ∀ {limbs : List UInt32}, bytes.length ≤ limbs.length * 4 →
    256 ^ bytes.length ∣ value limbs → value (fromBeLoop bytes limbs) = value limbs + be bytes := by
  induction bytes with
  | nil =>
    intro limbs _ _
    simp [fromBeLoop]
  | cons byte bytes ih =>
    intro limbs hlen hdvd
    rw [List.length_cons] at hlen hdvd
    have hstep := value_orByte byte (by omega : bytes.length < limbs.length * 4) hdvd
    have hdvd' : 256 ^ bytes.length ∣ value (orByte limbs byte bytes.length) := by
      rw [hstep]
      exact Nat.dvd_add ((pow_dvd_pow 256 (Nat.le_succ _)).trans hdvd) (Nat.dvd_mul_left _ _)
    rw [fromBeLoop, ih (by rw [length_orByte]; omega) hdvd', hstep, be_cons]
    ring

theorem value_bnFromBe {n : Nat} {bytes : List UInt8} (h : bytes.length ≤ n * 4) :
    (bnFromBe n bytes).value = be bytes := by
  have hloop := @value_fromBeLoop bytes (List.replicate n 0) (by rwa [List.length_replicate]) (by simp)
  rwa [value_replicate_zero, Nat.zero_add] at hloop

theorem toNat_byteAt (limbs : List UInt32) (offset : Nat) :
    (byteAt limbs offset).toNat = value limbs / 256 ^ offset % 256 := by
  have hplace : 32 * (offset / 4) + offset % 4 * 8 = 8 * offset := by omega
  have hwindow := window_limb limbs (offset / 4) (by omega : offset % 4 * 8 + 8 ≤ 32)
  have hget : (if offset / 4 <
      limbs.length then limbs.getD (offset / 4) 0 >>> UInt32.ofNat (offset % 4 * 8) else 0) =
      limbs.getD (offset / 4) 0 >>> UInt32.ofNat (offset % 4 * 8) := by
    split
    · rfl
    · rename_i h
      rw [List.getD_eq_default _ _ (by omega)]
      simp
  rw [byteAt, hget, UInt32.toNat_toUInt8, UInt32.toNat_shiftRight,
      UInt32.toNat_ofNat_of_lt' (lt_of_le_of_lt (by omega : _ ≤ 24) (by decide)),
    Nat.mod_eq_of_lt (by omega : offset % 4 * 8 < 32), Nat.shiftRight_eq_div_pow, hwindow, hplace, pow_mul]
  rfl

theorem length_bnToBe {n : Nat} (a : Num n) (byteLen : Nat) : (bnToBe a byteLen).length = byteLen :=
    by simp [bnToBe]

theorem be_bnToBe {n : Nat} (a : Num n) (byteLen : Nat) :
    be (bnToBe a byteLen) = a.value % 256 ^ byteLen := by
  induction byteLen with
  | zero => simp [bnToBe, Nat.mod_one]
  | succ byteLen ih =>
    have hcons : bnToBe a (byteLen + 1) = byteAt a.limbs byteLen :: bnToBe a byteLen := by
      rw [bnToBe, List.range_succ_eq_map, List.map_cons, List.map_map, bnToBe]
      congr 1
      apply List.map_congr_left
      intro i _
      simp only [Function.comp_apply]
      congr 1
      omega
    rw [hcons, be_cons, length_bnToBe, ih, toNat_byteAt, Nat.mod_pow_succ, Num.value]
    ring

/-! ## What the exponentiation computes -/

section

variable {n : Nat} {m b : Num n}

/-- A multiplication of residues. -/
structure Call.Good (m : Num n) (c : Call n) : Prop where
  a_lt : c.a.value < m.value
  b_lt : c.b.value < m.value
  r_eq : c.r = bnMontMul c.a c.b m (bnN0inv m.low)

/-- The accumulator is `B ^ k` in Montgomery form, and so far only residues were multiplied. -/
structure Progress.At (m : Num n) (B : Nat) (s : Progress n) (k : Nat) : Prop where
  form : Form m s.acc (B ^ k)
  good : ∀ c ∈ s.calls, c.Good m

theorem good_mul {s : Progress n} (hs : ∀ c ∈ s.calls, c.Good m) {x y : Num n} (hx : x.value < m.value)
    (hy : y.value < m.value) : ∀ c ∈ (s.mul m (bnN0inv m.low) x y).calls, c.Good m := by
  intro c hc
  rcases List.mem_append.mp hc with hc | hc
  · exact hs c hc
  · obtain rfl := List.mem_singleton.mp hc
    exact ⟨hx, hy, rfl⟩

theorem at_mul (h : Suitable m) {B j k : Nat} {s : Progress n} (hs : s.At m B j) {y : Num n}
    (hy : Form m y (B ^ k)) :
    (s.mul m (bnN0inv m.low) s.acc y).At m B (j + k) := by
  refine ⟨?_, good_mul hs.good hs.form.lt hy.lt⟩
  rw [pow_add]
  exact Form.mul h hs.form hy

/-- The ladder, from one. -/
theorem bnLadder_at (h : Suitable m) {B : Nat} {baseMont : Num n} (hbase : Form m baseMont (B ^ 1))
    (exponent : List UInt8) {bits : Nat} (hbits : bits ≤ exponent.length * 8)
    (hexp : be exponent < 2 ^ bits) {s : Progress n} (hs : s.At m B 0) :
    (bnLadder m (bnN0inv m.low) baseMont exponent bits s).At m B (be exponent) := by
  rw [bnLadder, Ladder.ladder_congr fun i hi => bnBeBit_eq (lt_of_lt_of_le hi hbits)]
  refine Ladder.ladder_rep_zero ?_ ?_ hexp hs
  · intro s k hs
    rw [Nat.two_mul]
    exact at_mul h hs hs.form
  · intro s k hs
    exact at_mul h hs hbase

theorem bnPower_spec (h : Suitable m) (hb : b.value < m.value) (exponent : List UInt8) :
    (∀ c ∈ (bnPower m b exponent).1, c.Good m) ∧
      ((bnPower m b exponent).2 = none ↔ be exponent = 0) ∧
      ∀ r, (bnPower m b exponent).2 = some r → r.value = b.value ^ be exponent % m.value := by
  have hrr : (bnDoubleMod m)^[n * 32] (bnSub (Limbs.Num.zero n) m) = radixSquare m := by
    rw [Nat.mul_comm]
    rfl
  have hacc : bnSub (Limbs.Num.zero n) m = radix m := rfl
  have hbits : ∀ i, i < exponent.length * 8 → bnBeBit exponent i = (be exponent).testBit i :=
    fun i hi => bnBeBit_eq hi
  have hbound : be exponent < 2 ^ (exponent.length * 8) := by
    have h := be_lt exponent
    rwa [show (256 : Nat) = 2 ^ 8 from rfl, ← pow_mul, Nat.mul_comm] at h
  have hfirst := good_mul (s := ⟨radix m, []⟩) (by simp) hb h.radixSquare_spec.1
  have hbase : Form m (montMul m (negInv m.low) b (radixSquare m)) (b.value ^ 1) := by
    rw [pow_one]
    exact Form.enter h hb
  rw [bnPower, hrr, hacc]
  dsimp only
  cases hhigh : Ladder.highest (bnBeBit exponent) (exponent.length * 8) with
  | none => exact ⟨hfirst, by simpa using (Ladder.highest_none hbits hbound).1 hhigh, by simp⟩
  | some top =>
    obtain ⟨htop, hsmall⟩ := Ladder.highest_some hbits hbound hhigh
    have hne : be exponent ≠ 0 := by
      intro h0
      rw [(Ladder.highest_none hbits hbound).2 h0] at hhigh
      exact absurd hhigh (by simp)
    have hlast := bnLadder_at h hbase exponent htop hsmall (s := ⟨radix m, _⟩)
      ⟨by simpa using Form.one h, hfirst⟩
    have hone : (Num.ofLimb n 1).value = 1 := Num.value_ofLimb h.size_pos 1
    refine ⟨good_mul hlast.good hlast.form.lt (hone ▸ h.one_lt), by simpa using hne, ?_⟩
    intro r hr
    obtain rfl := Option.some.inj hr
    exact Form.leave h hlast.form hone

end

/-- What is asked of the modulus, the base and the lengths before anything is multiplied. -/
structure Ready (base modulus exponent : List UInt8) : Prop where
  pos : 1 ≤ modulus.length
  le_max : modulus.length ≤ maxBytes
  exp_pos : 1 ≤ exponent.length
  exp_le : exponent.length ≤ modulus.length
  odd : Octets.be modulus % 2 = 1
  top : (Octets.be modulus).testBit (32 * bnLimbsFor modulus.length - 1) = true
  base_lt : Octets.be base < Octets.be modulus

theorem length_le_bnLimbsFor (byteLen : Nat) : byteLen ≤ bnLimbsFor byteLen * 4 := by
  rw [bnLimbsFor]
  omega

theorem Ready.suitable {base modulus exponent : List UInt8} (h : Ready base modulus exponent) :
    Suitable (bnFromBe (bnLimbsFor modulus.length) modulus) := by
  have hvalue := value_bnFromBe (length_le_bnLimbsFor modulus.length)
  have hpos := h.pos
  refine Suitable.of_testBit ?_ (hvalue ▸ h.odd) (hvalue ▸ h.top)
  rw [bnLimbsFor]
  omega

theorem bnNotBelow_iff {n : Nat} {a b : Num n} : bnNotBelow a b = true ↔ b.value ≤ a.value := by
  rw [bnNotBelow, bne_iff_ne]
  exact Num.cmp_ne_lt

/-- The checks, in the order of the source. -/
theorem bnModexp_cases {base modulus : List UInt8} (exponent : List UInt8)
    (hbase : base.length = modulus.length) :
    (¬ Ready base modulus exponent ∧ bnModexp base modulus exponent = ([], none)) ∨
      (Ready base modulus exponent ∧ ∃ result,
        result = bnPower (bnFromBe (bnLimbsFor modulus.length) modulus) (bnFromBe _ base) exponent ∧
        bnModexp base modulus exponent = (result.1, result.2.map fun acc => bnToBe acc modulus.length)) := by
  have hm := value_bnFromBe (length_le_bnLimbsFor modulus.length)
  have hb := value_bnFromBe (hbase ▸ length_le_bnLimbsFor modulus.length : base.length ≤
      bnLimbsFor modulus.length * 4)
  by_cases hlen : modulus.length = 0 ∨ modulus.length > maxBytes ∨ exponent.length = 0 ∨
      exponent.length > modulus.length
  · refine .inl ⟨?_, by rw [bnModexp, if_pos hlen]⟩
    intro h
    have := h.pos
    have := h.le_max
    have := h.exp_pos
    have := h.exp_le
    omega
  have hn : 0 < bnLimbsFor modulus.length := by
    rw [bnLimbsFor]
    omega
  by_cases hodd : (bnFromBe (bnLimbsFor modulus.length) modulus).low &&& 1 = 0
  · refine .inl ⟨?_, by rw [bnModexp, if_neg hlen]; exact if_pos hodd⟩
    intro h
    rw [Num.low_and_one, hm] at hodd
    exact absurd h.odd (by omega)
  by_cases htop : (bnFromBe (bnLimbsFor modulus.length) modulus).limbs.getD
      (bnLimbsFor modulus.length - 1) 0 &&& 0x80000000 = 0
  · refine .inl ⟨?_, by rw [bnModexp, if_neg hlen]; exact (if_neg hodd).trans (if_pos htop)⟩
    intro h
    rw [Num.top_and _ hn, hm, h.top] at htop
    exact Bool.noConfusion htop
  by_cases hlt : bnNotBelow (bnFromBe (bnLimbsFor modulus.length) base) (bnFromBe _ modulus) = true
  · refine .inl ⟨fun h => ?_, ?_⟩
    swap
    · rw [bnModexp, if_neg hlen]
      exact (if_neg hodd).trans ((if_neg htop).trans (if_pos hlt))
    rw [bnNotBelow_iff, hm, hb] at hlt
    exact absurd h.base_lt (by omega)
  · refine .inr ⟨⟨by omega, by omega, by omega, by omega, ?_, ?_, ?_⟩, _, rfl, ?_⟩
    · rw [Num.low_and_one, hm] at hodd
      omega
    · rw [Num.top_and _ hn, hm] at htop
      simpa using htop
    · rw [bnNotBelow_iff, hm, hb] at hlt
      omega
    · rw [bnModexp, if_neg hlen]
      exact (if_neg hodd).trans ((if_neg htop).trans (if_neg hlt))

/-- **Modular exponentiation is exact whenever it answers**, and multiplies residues only. -/
theorem modexp_exact (base modulus exponent : List UInt8) (hbase : base.length = modulus.length) :
    ((bnModexp base modulus exponent).2.isSome = true ↔
        Ready base modulus exponent ∧ Octets.be exponent ≠ 0) ∧
      (∀ out, (bnModexp base modulus exponent).2 = some out → out.length = modulus.length ∧
        Octets.be out = Octets.be base ^ Octets.be exponent % Octets.be modulus) ∧
      ∀ c ∈ (bnModexp base modulus exponent).1,
        c.a.value < Octets.be modulus ∧ c.b.value < Octets.be modulus ∧
          c.r = bnMontMul c.a c.b (bnFromBe _ modulus)
            (bnN0inv (bnFromBe (bnLimbsFor modulus.length) modulus).low) ∧
          c.r.value < Octets.be modulus ∧
          c.r.value * 2 ^ (32 * bnLimbsFor modulus.length) ≡
            c.a.value * c.b.value [MOD Octets.be modulus] := by
  rcases bnModexp_cases exponent hbase with ⟨hnot, heq⟩ | ⟨hready, result, hresult, heq⟩
  · rw [heq]
    refine ⟨by simp [hnot], by simp, ?_⟩
    intro c hc
    exact absurd hc (List.not_mem_nil)
  · have hm := value_bnFromBe (length_le_bnLimbsFor modulus.length)
    have hb := value_bnFromBe (hbase ▸ length_le_bnLimbsFor modulus.length : base.length ≤
        bnLimbsFor modulus.length * 4)
    have hsuitable := hready.suitable
    have hlt : (bnFromBe (bnLimbsFor modulus.length) base).value <
        (bnFromBe (bnLimbsFor modulus.length) modulus).value := by
      rw [hm, hb]
      exact hready.base_lt
    obtain ⟨hgood, hnone, hsome⟩ := bnPower_spec hsuitable hlt exponent
    rw [← hresult] at hgood hnone hsome
    rw [heq]
    refine ⟨?_, ?_, ?_⟩
    · rw [Option.isSome_map, Option.isSome_iff_ne_none, ne_eq, hnone]
      exact ⟨fun h => ⟨hready, h⟩, And.right⟩
    · intro out hout
      obtain ⟨acc, hacc, rfl⟩ := Option.map_eq_some_iff.mp hout
      have hvalue := hsome acc hacc
      rw [hb, hm] at hvalue
      -- a residue fits into the modulus length
      have hfits : acc.value < 256 ^ modulus.length := by
        rw [hvalue]
        exact (Nat.mod_lt _ (lt_of_le_of_lt (Nat.zero_le _) hready.base_lt)).trans (Octets.be_lt modulus)
      exact ⟨length_bnToBe _ _, by rw [be_bnToBe, Nat.mod_eq_of_lt hfits, hvalue]⟩
    · intro c hc
      obtain ⟨ha, hb', hr⟩ := hgood c hc
      obtain ⟨hrlt, hmod⟩ := montMul_spec hsuitable.odd c.b ha
      rw [hm] at ha hb' hrlt hmod
      refine ⟨ha, hb', hr, ?_, ?_⟩
      · rw [hr]
        exact hrlt
      · rw [hr]
        exact hmod

/-- The cube of 5 modulo `2 ^ 31 + 3`. -/
theorem modexp_exact_cube : ∃ out, (bnModexp [0, 0, 0, 5] [0x80, 0, 0, 3] [3]).2 = some out ∧
    Octets.be out = 125 := by
  obtain ⟨hiff, hout, -⟩ := modexp_exact [0, 0, 0, 5] [0x80, 0, 0, 3] [3] rfl
  have hready : Ready [0, 0, 0, 5] [0x80, 0, 0, 3] [3] := by
    constructor <;> decide
  obtain ⟨out, h⟩ := Option.isSome_iff_exists.mp (hiff.2 ⟨hready, by decide⟩)
  exact ⟨out, h, (hout out h).2.trans (by decide)⟩

end Tamga.Bn
