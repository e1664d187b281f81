import Tamga.Lib.Limbs

/-!
# `Lib.Montgomery` — Montgomery multiplication, limb by limb

The coarsely integrated form for an odd modulus of any number of limbs. One round adds a multiple of one
operand and then the multiple of the modulus that makes the lowest limb zero, which is dropped; so the
rounds divide by `2 ^ 32` each, exactly (`montRound_spec`), and the accumulator stays below twice the
modulus. One conditional subtraction gives `a * b / R` for `R = 2 ^ (32 * n)` (`montMul_spec`).
-/

namespace Limbs

/-! ## The negated inverse of a limb -/

/-- Newton's iteration: each step doubles the number of correct bits. -/
def newton (m : UInt32) : (steps : Nat) → UInt32
  | 0 => 1
  | steps + 1 => newton m steps * (2 - m * newton m steps)

/-- `-m⁻¹` modulo `2 ^ 32`. -/
def negInv (m : UInt32) : UInt32 := 0 - newton m 5

/-- What is missing to an inverse. -/
def defect (m x : UInt32) : UInt32 := 1 - m * x

theorem defect_newton (m : UInt32) (steps : Nat) :
    defect m (newton m (steps + 1)) = defect m (newton m steps) * defect m (newton m steps) := by
  unfold defect
  rw [newton]
  grind

theorem dvd_sq {e : UInt32} {k : Nat} (hk : 2 * k ≤ 32) (h : 2 ^ k ∣ e.toNat) :
    2 ^ (2 * k) ∣ (e * e).toNat := by
  have hprod : 2 ^ (2 * k) ∣ e.toNat * e.toNat := by
    rw [two_mul, pow_add]
    exact Nat.mul_dvd_mul h h
  rw [UInt32.toNat_mul]
  exact (Nat.dvd_mod_iff (Nat.pow_dvd_pow 2 hk)).mpr hprod

/-- After `steps` steps the lowest `2 ^ steps` bits are correct. -/
theorem newton_correct {m : UInt32} (hodd : m.toNat % 2 = 1) : ∀ steps ≤ 5,
    2 ^ 2 ^ steps ∣ (defect m (newton m steps)).toNat := by
  intro steps
  induction steps with
  | zero =>
    intro _
    have heq : defect m (newton m 0) = 1 - m := by
      rw [defect, newton]
      grind
    have := m.toNat_lt
    rw [heq, UInt32.toNat_sub]
    simp
    omega
  | succ steps ih =>
    intro hle
    have hbits : 2 * 2 ^ steps ≤ 32 := by
      have := Nat.pow_le_pow_right (by decide : 0 < 2) (by omega : steps ≤ 4)
      omega
    rw [defect_newton, pow_succ, Nat.mul_comm]
    exact dvd_sq hbits (ih (by omega))

theorem newton_inverse {m : UInt32} (hodd : m.toNat % 2 = 1) : m * newton m 5 = 1 := by
  have h := newton_correct hodd 5 (le_refl _)
  have hzero : defect m (newton m 5) = 0 :=
    UInt32.toNat_inj.mp (Nat.eq_zero_of_dvd_of_lt h (UInt32.toNat_lt _))
  generalize newton m 5 = x at hzero ⊢
  unfold defect at hzero
  grind

/-- Adding the right multiple of the modulus clears the lowest limb. -/
theorem clears {m : UInt32} (hodd : m.toNat % 2 = 1) (t : UInt32) :
    2 ^ 32 ∣ t.toNat + (t.toUInt64 * (negInv m).toUInt64).toUInt32.toNat * m.toNat := by
  have hinv := newton_inverse hodd
  have hmul : (t.toUInt64 * (negInv m).toUInt64).toUInt32 = t * negInv m := by
    apply UInt32.toNat_inj.mp
    rw [UInt64.toNat_toUInt32, UInt64.toNat_mul, toNat_toUInt64, toNat_toUInt64, UInt32.toNat_mul]
    omega
  have hword : t + t * negInv m * m = 0 := by
    unfold negInv
    generalize newton m 5 = x at hinv ⊢
    grind
  have h := congrArg UInt32.toNat hword
  rw [UInt32.toNat_add, UInt32.toNat_mul] at h
  rw [hmul]
  apply Nat.dvd_of_mod_eq_zero
  rw [← Nat.add_mod_mod]
  exact h

/-! ## One round -/

/-- The accumulator inside a round: `n` limbs and the two above them. -/
structure Wide where
  row : List UInt32
  above : UInt32
  beyond : UInt32

/-- The first half of a round: a multiple of `a` is added. Between rounds the accumulator has one limb
    above its `n`; the second is written here before it is read. -/
def montAdd (a : List UInt32) (t : List UInt32 × UInt32) (y : UInt32) : Wide :=
  let row := mulAdd t.1 a y 0
  let sum := t.2.toUInt64 + row.2
  ⟨row.1, sum.toUInt32, (sum >>> 32).toUInt32⟩

/-- The second half: the multiple of the modulus is added that makes the lowest limb zero, and the limbs
    move down by one. Of the lowest limb only the carry out is computed. -/
def montReduce (modulus : List UInt32) (n0inv : UInt32) (w : Wide) : List UInt32 × UInt32 :=
  let m := ((w.row.headD 0).toUInt64 * n0inv.toUInt64).toUInt32
  let carry := ((w.row.headD 0).toUInt64 + m.toUInt64 * (modulus.headD 0).toUInt64) >>> 32
  let reduced := mulAdd w.row.tail modulus.tail m carry
  let sum := w.above.toUInt64 + reduced.2
  (reduced.1 ++ [sum.toUInt32], w.beyond + (sum >>> 32).toUInt32)

/-- What an accumulator stands for. -/
def total (t : List UInt32 × UInt32) : Nat := value t.1 + 2 ^ (32 * t.1.length) * t.2.toNat

def Wide.total (w : Wide) : Nat :=
  value w.row + 2 ^ (32 * w.row.length) * (w.above.toNat + 2 ^ 32 * w.beyond.toNat)

theorem split_toUInt32 (t : UInt64) : t.toUInt32.toNat + 2 ^ 32 * (t >>> 32).toUInt32.toNat = t.toNat := by
  rw [UInt64.toNat_toUInt32 (t >>> 32), Nat.mod_eq_of_lt (carry_lt t), split]

theorem toNat_add_carry (x : UInt32) {c : UInt64} (hc : c.toNat < 2 ^ 32) :
    (x.toUInt64 + c).toNat = x.toNat + c.toNat := by
  have := x.toNat_lt
  rw [UInt64.toNat_add, toNat_toUInt64, Nat.mod_eq_of_lt (by omega)]

theorem montAdd_spec {a : List UInt32} {t : List UInt32 × UInt32} (y : UInt32) (hlen : t.1.length = a.length)
    (htop : t.2.toNat ≤ 1) : (montAdd a t y).row.length = a.length ∧ (montAdd a t y).beyond.toNat ≤ 1 ∧
      (montAdd a t y).total = total t + value a * y.toNat := by
  obtain ⟨hrow, hcarry⟩ := @value_mulAdd t.1 a y 0 hlen (by decide)
  have hlength := length_mulAdd y 0 hlen
  have hsplit := split_toUInt32 (t.2.toUInt64 + (mulAdd t.1 a y 0).2)
  rw [toNat_add_carry t.2 hcarry] at hsplit
  rw [montAdd, Wide.total, total]
  dsimp only
  refine ⟨hlength.trans hlen, by omega, ?_⟩
  rw [hsplit, hlength, Nat.mul_add]
  have hzero : (0 : UInt64).toNat = 0 := rfl
  rw [hzero] at hrow
  omega

/-- The lowest limb cancels, so only its carry is left. -/
theorem carry_of_clears {t0 m0 m : UInt32} (hclear : 2 ^ 32 ∣ t0.toNat + m.toNat * m0.toNat) :
    2 ^ 32 * ((t0.toUInt64 + m.toUInt64 * m0.toUInt64) >>> 32).toNat = t0.toNat + m.toNat * m0.toNat := by
  have hfirst : (t0.toUInt64 + m.toUInt64 * m0.toUInt64).toNat = t0.toNat + m.toNat * m0.toNat := by
    have h := @toNat_mul_add t0.toUInt64 m.toUInt64 m0.toUInt64 0 (by simpa using t0.toNat_lt)
      (by simpa using m.toNat_lt) (by simpa using m0.toNat_lt) (by decide)
    simpa using h
  have hsplit := split (t0.toUInt64 + m.toUInt64 * m0.toUInt64)
  have hlow := (t0.toUInt64 + m.toUInt64 * m0.toUInt64).toUInt32.toNat_lt
  rw [hfirst] at hsplit
  omega

theorem montReduce_spec {row rest : List UInt32} {t0 m0 above beyond : UInt32}
    (hlen : row.length = rest.length)
    (hodd : m0.toNat % 2 = 1) (hbeyond : beyond.toNat ≤ 1) :
    (montReduce (m0 :: rest) (negInv m0) ⟨t0 :: row, above, beyond⟩).1.length = rest.length + 1 ∧
      ∃ m < 2 ^ 32,
      2 ^ 32 * total (montReduce (m0 :: rest) (negInv m0) ⟨t0 :: row, above, beyond⟩) =
        Wide.total ⟨t0 :: row, above, beyond⟩ + value (m0 :: rest) * m := by
  have hcarry := carry_of_clears (clears hodd t0)
  rw [montReduce]
  dsimp only [List.headD_cons, List.tail_cons]
  generalize (t0.toUInt64 * (negInv m0).toUInt64).toUInt32 = m at hcarry ⊢
  have hlt := carry_lt (t0.toUInt64 + m.toUInt64 * m0.toUInt64)
  generalize (t0.toUInt64 + m.toUInt64 * m0.toUInt64) >>> 32 = carry at hcarry hlt ⊢
  obtain ⟨hvalue, hout⟩ := @value_mulAdd row rest m carry hlen hlt
  have hlength : (mulAdd row rest m carry).1.length = rest.length := (length_mulAdd m carry hlen).trans hlen
  have hsplit := split_toUInt32 (above.toUInt64 + (mulAdd row rest m carry).2)
  have habove := above.toNat_lt
  rw [toNat_add_carry above hout] at hsplit
  rw [hlen] at hvalue
  have hadd : (beyond + ((above.toUInt64 + (mulAdd row rest m carry).2) >>> 32).toUInt32).toNat =
      beyond.toNat + ((above.toUInt64 + (mulAdd row rest m carry).2) >>> 32).toUInt32.toNat := by
    rw [UInt32.toNat_add, Nat.mod_eq_of_lt (by omega)]
  refine ⟨by rw [List.length_append, hlength, List.length_singleton], m.toNat, m.toNat_lt, ?_⟩
  rw [total, Wide.total]
  dsimp only
  rw [hadd, List.length_append, hlength, List.length_singleton, List.length_cons, hlen, value_append, hlength,
    value_cons, value_cons, value_cons, value_nil, Nat.mul_zero, Nat.add_zero, Nat.mul_succ, pow_add]
  have hscaled := congrArg (2 ^ (32 * rest.length) * ·) hsplit
  linarith

/-- One round of the multiplication. -/
def montRound (a modulus : List UInt32) (n0inv : UInt32) (t : List UInt32 × UInt32) (y : UInt32) :
    List UInt32 × UInt32 := montReduce modulus n0inv (montAdd a t y)

/-- **A round divides by `2 ^ 32` exactly**: it adds a multiple of `a`, and one of the modulus that makes
    the sum divisible. -/
theorem montRound_spec {a rest : List UInt32} {t : List UInt32 × UInt32} (y : UInt32) {m0 : UInt32}
    (ha : a.length = rest.length + 1) (ht : t.1.length = rest.length + 1) (hodd : m0.toNat % 2 = 1)
    (htop : t.2.toNat ≤ 1) :
    (montRound a (m0 :: rest) (negInv m0) t y).1.length = rest.length + 1 ∧ ∃ m < 2 ^ 32,
      2 ^ 32 * total (montRound a (m0 :: rest) (negInv m0) t y) =
        total t + value a * y.toNat + value (m0 :: rest) * m := by
  obtain ⟨hlen, hbeyond, htotal⟩ := @montAdd_spec a t y (ht.trans ha.symm) htop
  rw [montRound, ← htotal]
  generalize montAdd a t y = w at hlen hbeyond ⊢
  obtain ⟨row, above, beyond⟩ := w
  dsimp only at hlen hbeyond
  obtain ⟨t0, row, rfl⟩ := List.exists_cons_of_length_pos (by omega : 0 < row.length)
  rw [List.length_cons] at hlen
  exact montReduce_spec (by omega) hodd hbeyond

/-! ## All rounds -/

/-- An accumulator below twice the modulus has at most one bit above its limbs. -/
theorem top_le_one {t : List UInt32 × UInt32} {bound : Nat} (hbound : bound ≤ 2 ^ (32 * t.1.length))
    (h : total t < 2 * bound) : t.2.toNat ≤ 1 := by
  by_contra hlt
  have hmul := Nat.mul_le_mul_left (2 ^ (32 * t.1.length)) (by omega : 2 ≤ t.2.toNat)
  rw [total] at h
  omega

/-- The accumulator stays below twice the modulus. -/
theorem round_bound {M a y m T T' : Nat} (hround : 2 ^ 32 * T' = T + a * y + M * m) (hT : T < 2 * M)
    (ha : a < M)
    (hy : y < 2 ^ 32) (hm : m < 2 ^ 32) : T' < 2 * M := by
  have hay : a * y ≤ M * (2 ^ 32 - 1) := Nat.mul_le_mul (by omega) (by omega)
  have hMm : M * m ≤ M * (2 ^ 32 - 1) := Nat.mul_le_mul_left _ (by omega)
  omega

/-- **The rounds divide by `2 ^ 32` each**: up to multiples of the modulus, they turn `t` into
    `t + a * b` divided by the modulus of the limbs. -/
theorem montRounds_spec {a rest : List UInt32} {m0 : UInt32} (ha : a.length = rest.length + 1)
    (hlt : value a < value (m0 :: rest)) (hodd : m0.toNat % 2 = 1) : ∀ (b : List UInt32)
      (t : List UInt32 × UInt32),
      t.1.length = rest.length + 1 → total t < 2 * value (m0 :: rest) →
      (b.foldl (montRound a (m0 :: rest) (negInv m0)) t).1.length = rest.length + 1 ∧
        total (b.foldl (montRound a (m0 :: rest) (negInv m0)) t) < 2 * value (m0 :: rest) ∧
        ∃ k, 2 ^ (32 * b.length) * total (b.foldl (montRound a (m0 :: rest) (negInv m0)) t) =
          total t + value a * value b + value (m0 :: rest) * k := by
  intro b
  induction b with
  | nil =>
    intro t ht hbound
    exact ⟨ht, hbound, 0, by simp⟩
  | cons y b ih =>
    intro t ht hbound
    have hM := value_lt (m0 :: rest)
    rw [List.length_cons, ← ht] at hM
    obtain ⟨hlen, m, hm, hround⟩ := montRound_spec y ha ht hodd (top_le_one hM.le hbound)
    obtain ⟨hlen', hbound', k, htotal⟩ := ih _ hlen (round_bound hround hbound hlt y.toNat_lt hm)
    rw [List.foldl_cons]
    refine ⟨hlen', hbound', m + 2 ^ 32 * k, ?_⟩
    rw [List.length_cons, Nat.mul_succ, pow_add, Nat.mul_right_comm, htotal, value_cons y b]
    linarith

theorem length_montRound {a modulus : List UInt32} (n0inv : UInt32) {t : List UInt32 × UInt32} (y : UInt32)
    (hpos : 0 < modulus.length) (ha : a.length = modulus.length) (ht : t.1.length = modulus.length) :
    (montRound a modulus n0inv t y).1.length = modulus.length := by
  have hrow : (mulAdd t.1 a y 0).1.length = modulus.length := (length_mulAdd y 0 (ht.trans ha.symm)).trans ht
  rw [montRound, montReduce, montAdd]
  dsimp only
  rw [List.length_append, length_mulAdd _ _ (by rw [List.length_tail, List.length_tail, hrow]),
      List.length_tail, hrow,
    List.length_singleton]
  omega

theorem length_montRounds {a modulus : List UInt32} (n0inv : UInt32) (ha : a.length = modulus.length) :
    ∀ (b : List UInt32) (t : List UInt32 × UInt32), (b ≠ [] → 0 < modulus.length) →
      t.1.length = modulus.length →
      (b.foldl (montRound a modulus n0inv) t).1.length = modulus.length := by
  intro b
  induction b with
  | nil =>
    intro t _ ht
    exact ht
  | cons y b ih =>
    intro t hpos ht
    have hmodulus := hpos (List.cons_ne_nil y b)
    exact ih _ (fun _ => hmodulus) (length_montRound n0inv y hmodulus ha ht)

/-! ## Multiplication -/

variable {n : Nat}

/-- The rounds, from zero. -/
def montLoop (modulus : Num n) (n0inv : UInt32) (a b : Num n) : Num n × UInt32 :=
  let t := b.limbs.foldl (montRound a.limbs modulus.limbs n0inv) (List.replicate n 0, 0)
  (⟨t.1, (length_montRounds n0inv (a.size_eq modulus) b.limbs _ (fun hne => by
      rw [modulus.size, ← b.size]
      exact List.length_pos_of_ne_nil hne)
          (List.length_replicate.trans modulus.size.symm)).trans modulus.size⟩, t.2)

/-- One conditional subtraction: where limbs and a bit above them hold less than twice the modulus. -/
def reduceOnce (modulus t : Num n) (carry : UInt32) : Num n :=
  if carry ≠ 0 ∨ t.cmp modulus ≠ .lt then (t.sub modulus).1 else t

theorem value_reduceOnce {modulus t : Num n} {carry : UInt32}
    (hbound : t.value + 2 ^ (32 * n) * carry.toNat < 2 * modulus.value) :
    (reduceOnce modulus t carry).value = (t.value + 2 ^ (32 * n) * carry.toNat) % modulus.value := by
  have hM := modulus.lt
  have hlt := t.lt
  by_cases hcarry : carry = 0
  · subst hcarry
    have hzero : (0 : UInt32).toNat = 0 := rfl
    rw [hzero, Nat.mul_zero, Nat.add_zero] at hbound ⊢
    by_cases hle : modulus.value ≤ t.value
    · obtain ⟨hvalue, -⟩ := Num.value_sub_of_le hle
      rw [reduceOnce, if_pos (Or.inr (Num.cmp_ne_lt.2 hle)), hvalue, Nat.mod_eq_sub_mod hle,
          Nat.mod_eq_of_lt (by omega)]
    · have hskip : ¬((0 : UInt32) ≠ 0 ∨ t.cmp modulus ≠ .lt) := by
        rintro (h | h)
        · exact h rfl
        · exact hle (Num.cmp_ne_lt.1 h)
      rw [reduceOnce, if_neg hskip, Nat.mod_eq_of_lt (by omega)]
  · -- the bit above the limbs is the one that the wrapping subtraction drops
    have hone : carry.toNat = 1 := by
      have hne : carry.toNat ≠ 0 := fun h => hcarry (UInt32.toNat_inj.mp h)
      by_contra hlt
      have hmul := Nat.mul_le_mul_left (2 ^ (32 * n)) (by omega : 2 ≤ carry.toNat)
      omega
    rw [hone] at hbound ⊢
    obtain ⟨hvalue, -⟩ := Num.value_sub_of_lt (by omega : t.value < modulus.value)
    rw [reduceOnce, if_pos (Or.inl hcarry), hvalue, Nat.mul_one, Nat.mod_eq_sub_mod (by omega),
      Nat.mod_eq_of_lt (by omega)]

/-- Montgomery multiplication. -/
def montMul (modulus : Num n) (n0inv : UInt32) (a b : Num n) : Num n :=
  let t := montLoop modulus n0inv a b
  reduceOnce modulus t.1 t.2

/-- The lowest limb. -/
def Num.low (a : Num n) : UInt32 := a.limbs.headD 0

theorem Num.low_and_one (a : Num n) : a.low &&& 1 = 0 ↔ a.value % 2 = 0 := by
  have hand : (a.low &&& 1).toNat = a.value % 2 := by
    rw [UInt32.toNat_and, Num.low, Num.value]
    cases a.limbs with
    | nil => rfl
    | cons x v =>
      have hone : (1 : UInt32).toNat = 1 := rfl
      rw [List.headD_cons, value_cons, hone, Nat.and_one_is_mod]
      omega
  rw [← hand, ← UInt32.toNat_inj]
  rfl

/-- The highest bit, as a mask finds it. -/
theorem Num.top_and (a : Num n) (hn : 0 < n) :
    a.limbs.getD (n - 1) 0 &&& 0x80000000 = 0 ↔ a.value.testBit (32 * n - 1) = false := by
  have hbit : (a.limbs.getD (n - 1) 0).toNat.testBit 31 = a.value.testBit (32 * n - 1) := by
    have hplace : 31 + 32 * (n - 1) = 32 * n - 1 := by omega
    rw [toNat_getD, Nat.testBit_mod_two_pow, Nat.testBit_div_two_pow, hplace]
    simp [Num.value]
  have hmask : (0x80000000 : UInt32).toNat = 2 ^ 31 := rfl
  rw [← hbit, ← UInt32.toNat_inj, UInt32.toNat_and, hmask, Nat.and_two_pow]
  cases (a.limbs.getD (n - 1) 0).toNat.testBit 31 <;> simp

/-- What the loop leaves, the bit above its limbs included. -/
def loopTotal (t : Num n × UInt32) : Nat := t.1.value + 2 ^ (32 * n) * t.2.toNat

theorem montLoop_spec {modulus : Num n} (hodd : modulus.value % 2 = 1) {a : Num n} (b : Num n)
    (ha : a.value < modulus.value) : loopTotal (montLoop modulus (negInv modulus.low) a b) <
      2 * modulus.value ∧
      ∃ k, 2 ^ (32 * n) * loopTotal (montLoop modulus (negInv modulus.low) a b) =
        a.value * b.value + modulus.value * k := by
  obtain ⟨limbs, rfl⟩ := modulus
  cases limbs with
  | nil => simp [Num.value] at hodd
  | cons m0 rest =>
    have hodd' : m0.toNat % 2 = 1 := by
      rw [Num.value, value_cons] at hodd
      omega
    have hzero : total (List.replicate (m0 :: rest).length 0, 0) = 0 := by simp [total]
    have hpos : 0 < value (m0 :: rest) := lt_of_le_of_lt (Nat.zero_le _) ha
    obtain ⟨hlen, hbound, k, htotal⟩ := montRounds_spec a.size ha hodd' b.limbs
      (List.replicate (m0 :: rest).length 0, 0) List.length_replicate (by rw [hzero]; omega)
    rw [hzero, Nat.zero_add, b.size] at htotal
    rw [total, hlen] at hbound htotal
    exact ⟨hbound, k, htotal⟩

/-- **Montgomery multiplication** is `a * b / 2 ^ (32 * n)` modulo an odd modulus. -/
theorem montMul_spec {modulus : Num n} (hodd : modulus.value % 2 = 1) {a : Num n} (b : Num n)
    (ha : a.value < modulus.value) :
    (montMul modulus (negInv modulus.low) a b).value < modulus.value ∧
      (montMul modulus (negInv modulus.low) a b).value * 2 ^ (32 * n) ≡
        a.value * b.value [MOD modulus.value] := by
  obtain ⟨hbound, k, htotal⟩ := montLoop_spec hodd b ha
  have hvalue := value_reduceOnce hbound
  refine ⟨lt_of_eq_of_lt hvalue (Nat.mod_lt _ (by omega)), ?_⟩
  calc (montMul modulus (negInv modulus.low) a b).value * 2 ^ (32 * n)
      ≡ loopTotal (montLoop modulus (negInv modulus.low) a b) * 2 ^ (32 * n) [MOD modulus.value] := by
        refine Nat.ModEq.mul_right _ ?_
        rw [montMul, hvalue]
        exact Nat.mod_modEq _ _
    _ = a.value * b.value + modulus.value * k := by rw [Nat.mul_comm, htotal]
    _ ≡ a.value * b.value [MOD modulus.value] := Nat.add_mul_mod_self_left _ _ _

/-! ## The constants of a modulus -/

/-- Twice a residue. -/
def doubleMod (modulus v : Num n) : Num n :=
  let doubled := v.shiftLeft 0
  reduceOnce modulus doubled.1 doubled.2

theorem value_doubleMod {modulus v : Num n} (hv : v.value < modulus.value) :
    (doubleMod modulus v).value = 2 * v.value % modulus.value := by
  obtain ⟨hvalue, -⟩ := v.value_shiftLeft (by decide : (0 : UInt32).toNat ≤ 1)
  have hzero : (0 : UInt32).toNat = 0 := rfl
  rw [hzero, Nat.add_zero] at hvalue
  rw [doubleMod, value_reduceOnce (by rw [hvalue]; omega), hvalue]

theorem value_iterate_doubleMod {modulus v : Num n} (hv : v.value < modulus.value) (k : Nat) :
    ((doubleMod modulus)^[k] v).value < modulus.value ∧
      ((doubleMod modulus)^[k] v).value ≡ v.value * 2 ^ k [MOD modulus.value] := by
  induction k with
  | zero => exact ⟨hv, by simp [Nat.ModEq.refl]⟩
  | succ k ih =>
    obtain ⟨hlt, hmod⟩ := ih
    rw [Function.iterate_succ_apply', value_doubleMod hlt]
    refine ⟨Nat.mod_lt _ (by omega), ?_⟩
    calc 2 * ((doubleMod modulus)^[k] v).value % modulus.value
        ≡ 2 * ((doubleMod modulus)^[k] v).value [MOD modulus.value] := Nat.mod_modEq _ _
      _ ≡ 2 * (v.value * 2 ^ k) [MOD modulus.value] := hmod.mul_left 2
      _ = v.value * 2 ^ (k + 1) := by ring

/-- `0 - modulus`, which is `2 ^ (32 * n)` modulo a modulus whose top bit is set. -/
def radix (modulus : Num n) : Num n := ((Num.zero n).sub modulus).1

/-- `2 ^ (64 * n)` modulo the modulus, by doublings. -/
def radixSquare (modulus : Num n) : Num n := (doubleMod modulus)^[32 * n] (radix modulus)

/-- A modulus that Montgomery arithmetic is set up for: odd, and with the top bit of its limbs set. -/
structure Suitable (modulus : Num n) : Prop where
  odd : modulus.value % 2 = 1
  top : 2 ^ (32 * n) < 2 * modulus.value

namespace Suitable

theorem of_testBit {modulus : Num n} (hn : 0 < n) (hodd : modulus.value % 2 = 1)
    (htop : modulus.value.testBit (32 * n - 1)) : Suitable modulus := by
  refine ⟨hodd, ?_⟩
  have hle := Nat.ge_two_pow_of_testBit htop
  have hsplit : 2 ^ (32 * n) = 2 * 2 ^ (32 * n - 1) := by
    rw [← pow_succ']
    congr 1
    omega
  have heven : 2 ^ (32 * n - 1) = 2 * 2 ^ (32 * n - 2) := by
    rw [← pow_succ']
    congr 1
    omega
  omega

variable {modulus : Num n} (h : Suitable modulus)
include h

theorem pos : 0 < modulus.value := by
  have := h.odd
  omega

theorem size_pos : 0 < n := by
  apply Nat.pos_of_ne_zero
  rintro rfl
  have := modulus.lt
  have := h.pos
  omega

theorem one_lt : 1 < modulus.value := by
  have hle : 2 ^ 32 ≤ 2 ^ (32 * n) := Nat.pow_le_pow_right (by decide) (Nat.le_mul_of_pos_right 32 h.size_pos)
  have := h.top
  omega

theorem coprime : Nat.Coprime modulus.value (2 ^ (32 * n)) :=
  Nat.Coprime.pow_right _ (Nat.coprime_two_right.mpr (Nat.odd_iff.mpr h.odd))

theorem value_radix : (radix modulus).value = 2 ^ (32 * n) - modulus.value := by
  have hpos := h.pos
  obtain ⟨hvalue, -⟩ := Num.value_sub_of_lt (show (Num.zero n).value < modulus.value by simpa using hpos)
  rw [radix, hvalue, Num.value_zero, Nat.zero_add]

theorem radix_lt : (radix modulus).value < modulus.value := by
  have := h.top
  have := h.pos
  rw [h.value_radix]
  omega

theorem radix_modEq : (radix modulus).value ≡ 2 ^ (32 * n) [MOD modulus.value] := by
  have hlt := modulus.lt
  have hsum : 2 ^ (32 * n) = (radix modulus).value + modulus.value := by
    rw [h.value_radix]
    omega
  rw [hsum]
  exact (Nat.add_mod_right _ _).symm

theorem radixSquare_spec : (radixSquare modulus).value < modulus.value ∧
    (radixSquare modulus).value ≡ 2 ^ (32 * n) * 2 ^ (32 * n) [MOD modulus.value] := by
  obtain ⟨hlt, hmod⟩ := value_iterate_doubleMod h.radix_lt (32 * n)
  exact ⟨hlt, hmod.trans (h.radix_modEq.mul_right _)⟩

end Suitable

/-! ## Residues in Montgomery form -/

/-- `x` is the residue of `k`, scaled by the radix. -/
structure Form (modulus x : Num n) (k : Nat) : Prop where
  lt : x.value < modulus.value
  modEq : x.value ≡ k * 2 ^ (32 * n) [MOD modulus.value]

namespace Form

variable {modulus x y : Num n} {j k : Nat}

theorem one (h : Suitable modulus) : Form modulus (radix modulus) 1 :=
  ⟨h.radix_lt, by simpa using h.radix_modEq⟩

/-- A product scaled down by the radix has one scale left. -/
theorem mul (h : Suitable modulus) (hx : Form modulus x j) (hy : Form modulus y k) :
    Form modulus (montMul modulus (negInv modulus.low) x y) (j * k) := by
  obtain ⟨hlt, hmod⟩ := montMul_spec h.odd y hx.lt
  refine ⟨hlt, ?_⟩
  apply Nat.ModEq.cancel_right_of_coprime h.coprime
  calc (montMul modulus (negInv modulus.low) x y).value * 2 ^ (32 * n)
      ≡ x.value * y.value [MOD modulus.value] := hmod
    _ ≡ j * 2 ^ (32 * n) * (k * 2 ^ (32 * n)) [MOD modulus.value] := hx.modEq.mul hy.modEq
    _ = j * k * 2 ^ (32 * n) * 2 ^ (32 * n) := by ring

/-- Into Montgomery form: the square of the radix brings one scale more than the product takes away. -/
theorem enter (h : Suitable modulus) (hx : x.value < modulus.value) :
    Form modulus (montMul modulus (negInv modulus.low) x (radixSquare modulus)) x.value := by
  obtain ⟨hlt, hmod⟩ := montMul_spec h.odd (radixSquare modulus) hx
  refine ⟨hlt, ?_⟩
  apply Nat.ModEq.cancel_right_of_coprime h.coprime
  calc (montMul modulus (negInv modulus.low) x (radixSquare modulus)).value * 2 ^ (32 * n)
      ≡ x.value * (radixSquare modulus).value [MOD modulus.value] := hmod
    _ ≡ x.value * (2 ^ (32 * n) * 2 ^ (32 * n)) [MOD modulus.value] := h.radixSquare_spec.2.mul_left _
    _ = x.value * 2 ^ (32 * n) * 2 ^ (32 * n) := by ring

/-- Out of Montgomery form. -/
theorem leave (h : Suitable modulus) (hx : Form modulus x k) (hone : y.value = 1) :
    (montMul modulus (negInv modulus.low) x y).value = k % modulus.value := by
  obtain ⟨hlt, hmod⟩ := montMul_spec h.odd y hx.lt
  rw [hone, Nat.mul_one] at hmod
  have hk := Nat.ModEq.cancel_right_of_coprime h.coprime (hmod.trans hx.modEq)
  rw [← Nat.mod_eq_of_lt hlt]
  exact hk

/-- A residue has one Montgomery form. -/
theorem unique (hx : Form modulus x j) (hy : Form modulus y k) (h : j ≡ k [MOD modulus.value]) : x = y := by
  apply Num.ext_value
  rw [← Nat.mod_eq_of_lt hx.lt, ← Nat.mod_eq_of_lt hy.lt]
  exact hx.modEq.trans ((h.mul_right _).trans hy.modEq.symm)

/-- Powers, by the ladder. -/
theorem pow (h : Suitable modulus) (hx : Form modulus x j) {e bits : Nat} (he : e < 2 ^ bits) :
    Form modulus (Ladder.ladder (fun acc => montMul modulus (negInv modulus.low) acc acc)
      (fun acc => montMul modulus (negInv modulus.low) acc x) e.testBit bits (radix modulus)) (j ^ e) := by
  refine @Ladder.ladder_rep_zero _ _ _ (fun acc k => Form modulus acc (j ^ k)) ?_ ?_ e bits he _ (Form.one h)
  · intro acc k hacc
    rw [Nat.two_mul, pow_add]
    exact Form.mul h hacc hacc
  · intro acc k hacc
    rw [pow_succ]
    exact Form.mul h hacc hx

end Form

end Limbs
