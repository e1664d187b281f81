import Mathlib.Tactic
import Tamga.Lib.Octets

/-!
# `Lib.Limbs` — multi-precision arithmetic on 32-bit limbs with 64-bit accumulators

A number is a list of limbs, least significant first. Every loop here is the usual one: a 64-bit
accumulator is split into a limb and a carry for the next round. Each comes with one equation between
values, from which everything above it is arithmetic on `Nat`: what the limbs lost is what the carry
holds.
-/

namespace Limbs

/-! ## Values -/

/-- The number a list of limbs stands for. -/
def value (v : List UInt32) : Nat := Nat.ofDigits (2 ^ 32) (v.map UInt32.toNat)

@[simp] theorem value_nil : value [] = 0 := rfl

@[simp] theorem value_cons (x : UInt32) (v : List UInt32) : value (x :: v) = x.toNat + 2 ^ 32 * value v := by
  simp [value, Nat.ofDigits_cons]

theorem value_append (a b : List UInt32) : value (a ++ b) = value a + 2 ^ (32 * a.length) * value b := by
  simp [value, Nat.ofDigits_append, pow_mul]

theorem value_lt (v : List UInt32) : value v < 2 ^ (32 * v.length) := by
  have h := @Nat.ofDigits_lt_base_pow_length (2 ^ 32) (v.map UInt32.toNat) (by norm_num) (by
    intro x hx
    obtain ⟨limb, -, rfl⟩ := List.mem_map.mp hx
    exact limb.toNat_lt)
  rwa [List.length_map, ← pow_mul] at h

theorem value_inj : ∀ {a b : List UInt32}, a.length = b.length → value a = value b → a = b
  | [], [], _, _ => rfl
  | x :: a, y :: b, hlen, h => by
    rw [value_cons, value_cons] at h
    have hx := x.toNat_lt
    have hy := y.toNat_lt
    have hhead : x = y := UInt32.toNat_inj.mp (by omega)
    have htail : a = b := value_inj (by simpa using hlen) (by omega)
    rw [hhead, htail]

@[simp] theorem value_replicate_zero (n : Nat) : value (List.replicate n 0) = 0 := by
  induction n with
  | zero => rfl
  | succ n ih => simp [List.replicate_succ, ih]

/-! ## One accumulator -/

/-- A 64-bit accumulator is its limb and its carry. -/
theorem split (t : UInt64) : t.toUInt32.toNat + 2 ^ 32 * (t >>> 32).toNat = t.toNat := by
  have hshift : (t >>> 32).toNat = t.toNat / 2 ^ 32 := by
    rw [UInt64.toNat_shiftRight]
    exact Nat.shiftRight_eq_div_pow _ _
  rw [hshift, UInt64.toNat_toUInt32]
  exact Nat.mod_add_div _ _

theorem carry_lt (t : UInt64) : (t >>> 32).toNat < 2 ^ 32 := by
  have h := split t
  have := t.toNat_lt
  omega

theorem toNat_add_add {x y c : UInt64} (h : x.toNat + y.toNat + c.toNat < 2 ^ 64) :
    (x + y + c).toNat = x.toNat + y.toNat + c.toNat := by
  rw [UInt64.toNat_add, UInt64.toNat_add]
  omega

/-- The largest accumulator, `(2 ^ 32 - 1) ^ 2 + 2 * (2 ^ 32 - 1)`, just fits. -/
theorem toNat_mul_add {x a y c : UInt64} (hx : x.toNat < 2 ^ 32) (ha : a.toNat < 2 ^ 32)
    (hy : y.toNat < 2 ^ 32)
    (hc : c.toNat < 2 ^ 32) : (x + a * y + c).toNat = x.toNat + a.toNat * y.toNat + c.toNat := by
  have hprod : a.toNat * y.toNat ≤ (2 ^ 32 - 1) * (2 ^ 32 - 1) := Nat.mul_le_mul (by omega) (by omega)
  have hmul : (a * y).toNat = a.toNat * y.toNat := by
    rw [UInt64.toNat_mul, Nat.mod_eq_of_lt (by omega)]
  rw [toNat_add_add (by rw [hmul]; omega), hmul]

@[simp] theorem toNat_toUInt64 (x : UInt32) : x.toUInt64.toNat = x.toNat := by simp

/-! ## Addition -/

/-- `t = a[i] + b[i] + carry`. -/
def add : (a b : List UInt32) → (carry : UInt64) → List UInt32 × UInt64
  | x :: a, y :: b, carry =>
      let t := x.toUInt64 + y.toUInt64 + carry
      let (r, carry) := add a b (t >>> 32)
      (t.toUInt32 :: r, carry)
  | _, _, carry => ([], carry)

theorem length_add : ∀ {a b : List UInt32} (carry : UInt64), a.length = b.length →
    (add a b carry).1.length = a.length
  | [], _, _, _ => rfl
  | x :: a, y :: b, carry, h => by
    rw [add, List.length_cons, List.length_cons, length_add _ (by simpa using h)]

theorem value_add : ∀ {a b : List UInt32} {carry : UInt64}, a.length = b.length → carry.toNat ≤ 1 →
    value (add a b carry).1 + 2 ^ (32 * a.length) * (add a b carry).2.toNat = value a + value b +
      carry.toNat ∧
      (add a b carry).2.toNat ≤ 1
  | [], [], carry, _, hc => by simp [add, hc]
  | x :: a, y :: b, carry, hlen, hc => by
    have hx := x.toNat_lt
    have hy := y.toNat_lt
    have ht : (x.toUInt64 + y.toUInt64 + carry).toNat = x.toNat + y.toNat + carry.toNat := by
      rw [toNat_add_add] <;> simp only [toNat_toUInt64]
      omega
    have hsplit := split (x.toUInt64 + y.toUInt64 + carry)
    have hcarry : ((x.toUInt64 + y.toUInt64 + carry) >>> 32).toNat ≤ 1 := by omega
    obtain ⟨ih, ihc⟩ := value_add (by simpa using hlen : a.length = b.length) hcarry
    rw [add]
    dsimp only
    refine ⟨?_, ihc⟩
    rw [value_cons, value_cons, value_cons, List.length_cons, Nat.mul_succ, pow_add]
    linarith

/-! ## Subtraction -/

/-- `diff = a[i] - b[i] - borrow`; the borrow is the sign bit. -/
def sub : (a b : List UInt32) → (borrow : UInt64) → List UInt32 × UInt64
  | x :: a, y :: b, borrow =>
      let diff := x.toUInt64 - y.toUInt64 - borrow
      let (r, borrow) := sub a b ((diff >>> 63) &&& 1)
      (diff.toUInt32 :: r, borrow)
  | _, _, borrow => ([], borrow)

/-- The difference wraps exactly when it is negative, and then its top bit is set. -/
theorem toNat_diff {x y borrow : UInt64} (hx : x.toNat < 2 ^ 32) (hy : y.toNat < 2 ^ 32)
    (hb : borrow.toNat ≤ 1) :
    (x - y - borrow).toUInt32.toNat + y.toNat + borrow.toNat =
      x.toNat + 2 ^ 32 * (((x - y - borrow) >>> 63) &&& 1).toNat ∧
        (((x - y - borrow) >>> 63) &&& 1).toNat ≤ 1 := by
  have hdiff : (x - y - borrow).toNat = (2 ^ 64 + x.toNat - y.toNat - borrow.toNat) % 2 ^ 64 := by
    rw [UInt64.toNat_sub, UInt64.toNat_sub]
    omega
  have hbit : (((x - y - borrow) >>> 63) &&& 1).toNat = (x - y - borrow).toNat / 2 ^ 63 % 2 := by
    rw [UInt64.toNat_and, UInt64.toNat_shiftRight]
    simp [Nat.shiftRight_eq_div_pow]
  rw [hbit, UInt64.toNat_toUInt32, hdiff]
  omega

theorem length_sub : ∀ {a b : List UInt32} (borrow : UInt64), a.length = b.length →
    (sub a b borrow).1.length = a.length
  | [], _, _, _ => rfl
  | x :: a, y :: b, borrow, h => by
    rw [sub, List.length_cons, List.length_cons, length_sub _ (by simpa using h)]

theorem value_sub : ∀ {a b : List UInt32} {borrow : UInt64}, a.length = b.length → borrow.toNat ≤ 1 →
    value (sub a b borrow).1 + value b + borrow.toNat =
      value a + 2 ^ (32 * a.length) * (sub a b borrow).2.toNat ∧ (sub a b borrow).2.toNat ≤ 1
  | [], [], borrow, _, hb => by simp [sub, hb]
  | x :: a, y :: b, borrow, hlen, hb => by
    obtain ⟨hstep, hbit⟩ := @toNat_diff x.toUInt64 y.toUInt64 borrow (by simpa using x.toNat_lt)
      (by simpa using y.toNat_lt) hb
    simp only [toNat_toUInt64] at hstep
    obtain ⟨ih, ihb⟩ := value_sub (by simpa using hlen : a.length = b.length) hbit
    rw [sub]
    dsimp only
    refine ⟨?_, ihb⟩
    rw [value_cons, value_cons, value_cons, List.length_cons, Nat.mul_succ, pow_add]
    linarith

/-! ## Multiplication by one limb -/

/-- `t = acc[i] + a[i] * y + carry`. -/
def mulAdd : (acc a : List UInt32) → (y : UInt32) → (carry : UInt64) → List UInt32 × UInt64
  | x :: acc, z :: a, y, carry =>
      let t := x.toUInt64 + z.toUInt64 * y.toUInt64 + carry
      let (r, carry) := mulAdd acc a y (t >>> 32)
      (t.toUInt32 :: r, carry)
  | _, _, _, carry => ([], carry)

theorem length_mulAdd : ∀ {acc a : List UInt32} (y : UInt32) (carry : UInt64), acc.length = a.length →
    (mulAdd acc a y carry).1.length = acc.length
  | [], _, _, _, _ => rfl
  | x :: acc, z :: a, y, carry, h => by
    rw [mulAdd, List.length_cons, List.length_cons, length_mulAdd _ _ (by simpa using h)]

theorem value_mulAdd : ∀ {acc a : List UInt32} (y : UInt32) {carry : UInt64}, acc.length = a.length →
    carry.toNat < 2 ^ 32 →
      value (mulAdd acc a y carry).1 + 2 ^ (32 * acc.length) * (mulAdd acc a y carry).2.toNat =
        value acc + value a * y.toNat + carry.toNat ∧ (mulAdd acc a y carry).2.toNat < 2 ^ 32
  | [], [], y, carry, _, hc => by
    refine ⟨?_, hc⟩
    simp [mulAdd]
  | x :: acc, z :: a, y, carry, hlen, hc => by
    have ht : (x.toUInt64 + z.toUInt64 * y.toUInt64 + carry).toNat = x.toNat + z.toNat * y.toNat +
        carry.toNat := by
      have h := @toNat_mul_add x.toUInt64 z.toUInt64 y.toUInt64 carry (by simpa using x.toNat_lt)
        (by simpa using z.toNat_lt) (by simpa using y.toNat_lt) hc
      simpa only [toNat_toUInt64] using h
    have hsplit := split (x.toUInt64 + z.toUInt64 * y.toUInt64 + carry)
    obtain ⟨ih, ihc⟩ := value_mulAdd y (by simpa using hlen : acc.length = a.length)
      (carry_lt (x.toUInt64 + z.toUInt64 * y.toUInt64 + carry))
    rw [mulAdd]
    dsimp only
    refine ⟨?_, ihc⟩
    rw [value_cons, value_cons, value_cons, List.length_cons, Nat.mul_succ, pow_add, Nat.add_mul]
    linarith

/-! ## Multiplication -/

/-- Row `i` of the schoolbook product: `b * y` is added from limb `i` on, and the carry is stored behind. -/
def mulRow (b : List UInt32) (y : UInt32) (i : Nat) (product : List UInt32) : List UInt32 :=
  let row := mulAdd ((product.drop i).take b.length) b y 0
  product.take i ++ row.1 ++ row.2.toUInt32 :: product.drop (i + b.length + 1)

/-- The rows from `i` on, one for each limb of `a`. -/
def mulLoop (b : List UInt32) : (a : List UInt32) → (i : Nat) → (product : List UInt32) → List UInt32
  | [], _, product => product
  | y :: a, i, product => mulLoop b a (i + 1) (mulRow b y i product)

/-- The schoolbook product. -/
def mul (a b : List UInt32) : List UInt32 := mulLoop b a 0 (List.replicate (a.length + b.length) 0)

/-- A row, where what lies behind it has not been written yet. -/
theorem mulRow_eq {b done window : List UInt32} (hwindow : window.length = b.length) (y : UInt32)
    (rest : List UInt32) (old : UInt32) : mulRow b y done.length (done ++ window ++ old :: rest) =
      done ++ ((mulAdd window b y 0).1 ++ [(mulAdd window b y 0).2.toUInt32]) ++ rest := by
  have htake : (done ++ window ++ old :: rest).take done.length = done := by
    rw [List.append_assoc, List.take_left]
  have hwin : ((done ++ window ++ old :: rest).drop done.length).take b.length = window := by
    rw [List.append_assoc, List.drop_left, ← hwindow, List.take_left]
  have hdrop : (done ++ window ++ old :: rest).drop (done.length + b.length + 1) = rest := by
    rw [← hwindow, ← List.length_append, ← List.drop_drop, List.drop_left]
    rfl
  rw [mulRow, htake, hwin, hdrop]
  simp

theorem value_mulRow {b window : List UInt32} (hwindow : window.length = b.length) (y : UInt32) :
    value ((mulAdd window b y 0).1 ++ [(mulAdd window b y 0).2.toUInt32]) =
      value window + value b * y.toNat := by
  obtain ⟨h, hcarry⟩ := @value_mulAdd window b y 0 hwindow (by decide)
  have hcast : (mulAdd window b y 0).2.toUInt32.toNat = (mulAdd window b y 0).2.toNat := by
    rw [UInt64.toNat_toUInt32, Nat.mod_eq_of_lt hcarry]
  rw [value_append, length_mulAdd y 0 hwindow, value_cons, value_nil, hcast]
  simpa using h

theorem mulLoop_spec (b : List UInt32) : ∀ (a done window : List UInt32), window.length = b.length →
    (mulLoop b a done.length (done ++ window ++ List.replicate a.length 0)).length =
        done.length + b.length + a.length ∧
      value (mulLoop b a done.length (done ++ window ++ List.replicate a.length 0)) =
        value (done ++ window) + 2 ^ (32 * done.length) * (value a * value b) := by
  intro a
  induction a with
  | nil =>
    intro done window hwindow
    simp [mulLoop, hwindow]
  | cons y a ih =>
    intro done window hwindow
    rw [mulLoop, List.length_cons, List.replicate_succ, mulRow_eq hwindow]
    have hvalue := value_mulRow hwindow y
    have hlen : ((mulAdd window b y 0).1 ++ [(mulAdd window b y 0).2.toUInt32]).length = b.length + 1 := by
      rw [List.length_append, length_mulAdd y 0 hwindow, hwindow, List.length_singleton]
    -- the lowest limb of the row is done, the others are the next window
    obtain ⟨limb, window', hrow⟩ := List.exists_cons_of_length_pos
      (by omega : 0 < ((mulAdd window b y 0).1 ++ [(mulAdd window b y 0).2.toUInt32]).length)
    rw [hrow] at hvalue hlen ⊢
    rw [List.length_cons] at hlen
    obtain ⟨hlength, htotal⟩ := ih (done ++ [limb]) window' (by omega)
    rw [List.length_append, List.length_singleton] at hlength htotal
    rw [show done ++ limb :: window' = done ++ [limb] ++ window' by simp]
    refine ⟨by rw [hlength]; omega, ?_⟩
    rw [htotal, show done ++ [limb] ++ window' = done ++ limb :: window' by simp, value_append,
        hvalue, value_append,
      value_cons, Nat.mul_succ, pow_add]
    ring

/-- **The schoolbook product is the product.** -/
theorem value_mul (a b : List UInt32) : (mul a b).length = a.length + b.length ∧ value (mul a b) =
    value a * value b := by
  have h := mulLoop_spec b a [] (List.replicate b.length 0) List.length_replicate
  have hzeros : [] ++ List.replicate b.length (0 : UInt32) ++ List.replicate a.length 0 =
      List.replicate (a.length + b.length) 0 := by
    rw [List.nil_append, List.replicate_append_replicate, Nat.add_comm]
  rw [hzeros, List.length_nil] at h
  rw [mul, h.1, h.2]
  simp [Nat.add_comm]

/-! ## Doubling -/

/-- `v[i] = (v[i] << 1) | carry`, the carry being the bit shifted out below. -/
def shiftLeft : (v : List UInt32) → (carry : UInt32) → List UInt32 × UInt32
  | x :: v, carry =>
      let (r, out) := shiftLeft v (x >>> 31)
      (((x <<< 1) ||| carry) :: r, out)
  | [], carry => ([], carry)

@[simp] theorem length_shiftLeft (v : List UInt32) : ∀ carry, (shiftLeft v carry).1.length = v.length := by
  induction v with
  | nil =>
    intro carry
    rfl
  | cons x v ih =>
    intro carry
    rw [shiftLeft, List.length_cons, List.length_cons, ih]

/-- A limb shifted by one: the bit below comes in, the bit at the top goes out. -/
theorem toNat_shift (x : UInt32) {carry : UInt32} (hc : carry.toNat ≤ 1) :
    ((x <<< 1) ||| carry).toNat + 2 ^ 32 * (x >>> 31).toNat = 2 * x.toNat + carry.toNat ∧
      (x >>> 31).toNat ≤ 1 := by
  have hx := x.toNat_lt
  have hright : (x >>> 31).toNat = x.toNat / 2 ^ 31 := by
    rw [UInt32.toNat_shiftRight]
    simp [Nat.shiftRight_eq_div_pow]
  have hleft : (x <<< 1).toNat = 2 * (x.toNat % 2 ^ 31) := by
    rw [UInt32.toNat_shiftLeft]
    simp [Nat.shiftLeft_eq]
    omega
  have hor : ((x <<< 1) ||| carry).toNat = 2 * (x.toNat % 2 ^ 31) + carry.toNat := by
    rw [UInt32.toNat_or, hleft]
    have h := @Nat.shiftLeft_add_eq_or_of_lt 1 carry.toNat (by omega) (x.toNat % 2 ^ 31)
    rw [Nat.shiftLeft_eq, Nat.mul_comm] at h
    exact h.symm
  rw [hor, hright]
  omega

theorem value_shiftLeft (v : List UInt32) : ∀ {carry : UInt32}, carry.toNat ≤ 1 →
    value (shiftLeft v carry).1 + 2 ^ (32 * v.length) * (shiftLeft v carry).2.toNat = 2 * value v +
      carry.toNat ∧
      (shiftLeft v carry).2.toNat ≤ 1 := by
  induction v with
  | nil =>
    intro carry hc
    simp [shiftLeft, hc]
  | cons x v ih =>
    intro carry hc
    obtain ⟨hstep, hbit⟩ := toNat_shift x hc
    obtain ⟨h, hout⟩ := ih hbit
    rw [shiftLeft]
    dsimp only
    refine ⟨?_, hout⟩
    rw [value_cons, value_cons, List.length_cons, Nat.mul_succ, pow_add]
    linarith

/-! ## Comparison -/

/-- The first limbs that differ, from the most significant down, decide. -/
def cmp : (a b : List UInt32) → Ordering
  | x :: a, y :: b => (cmp a b).then (if x ≠ y then (if x < y then .lt else .gt) else .eq)
  | _, _ => .eq

theorem cmp_eq_compare : ∀ {a b : List UInt32}, a.length = b.length → cmp a b = compare (value a) (value b)
  | [], [], _ => rfl
  | x :: a, y :: b, hlen => by
    have hx := x.toNat_lt
    have hy := y.toNat_lt
    rw [cmp, cmp_eq_compare (by simpa using hlen : a.length = b.length), value_cons, value_cons]
    rcases Nat.lt_trichotomy (value a) (value b) with h | h | h
    · rw [Nat.compare_eq_lt.mpr h, Nat.compare_eq_lt.mpr (by omega)]
      rfl
    · rw [h, Nat.compare_eq_eq.mpr rfl]
      rcases Nat.lt_trichotomy x.toNat y.toNat with hxy | hxy | hxy
      · have hne : x ≠ y := fun heq => by rw [heq] at hxy; omega
        rw [Nat.compare_eq_lt.mpr (by omega), if_pos hne, if_pos (UInt32.lt_iff_toNat_lt.mpr hxy)]
        rfl
      · rw [UInt32.toNat_inj.mp hxy, Nat.compare_eq_eq.mpr rfl, if_neg (by simp)]
        rfl
      · have hne : x ≠ y := fun heq => by rw [heq] at hxy; omega
        have hnlt : ¬x < y := fun hlt => by have := UInt32.lt_iff_toNat_lt.mp hlt; omega
        rw [Nat.compare_eq_gt.mpr (by omega), if_pos hne, if_neg hnlt]
        rfl
    · rw [Nat.compare_eq_gt.mpr h, Nat.compare_eq_gt.mpr (by omega)]
      rfl

/-- `cmp(a, b) >= 0`. -/
theorem cmp_ne_lt {a b : List UInt32} (hlen : a.length = b.length) : cmp a b ≠ .lt ↔ value b ≤ value a := by
  rw [cmp_eq_compare hlen, ne_eq, Nat.compare_eq_lt, Nat.not_lt]

/-! ## Carrying up -/

/-- `while (carry != 0) v[i] += carry`, limb by limb. -/
def carryUp : (v : List UInt32) → (carry : UInt64) → List UInt32 × UInt64
  | x :: v, carry =>
      if carry = 0 then (x :: v, carry)
      else
        let t := x.toUInt64 + carry
        let (r, carry) := carryUp v (t >>> 32)
        (t.toUInt32 :: r, carry)
  | [], carry => ([], carry)

@[simp] theorem length_carryUp (v : List UInt32) : ∀ carry, (carryUp v carry).1.length = v.length := by
  induction v with
  | nil =>
    intro carry
    rfl
  | cons x v ih =>
    intro carry
    rw [carryUp]
    split
    · rfl
    · rw [List.length_cons, List.length_cons, ih]

theorem value_carryUp (v : List UInt32) : ∀ {carry : UInt64}, carry.toNat < 2 ^ 63 →
    value (carryUp v carry).1 + 2 ^ (32 * v.length) * (carryUp v carry).2.toNat = value v + carry.toNat := by
  induction v with
  | nil =>
    intro carry _
    simp [carryUp]
  | cons x v ih =>
    intro carry hc
    rw [carryUp]
    split
    · rename_i hzero
      simp [hzero]
    · have hx := x.toNat_lt
      have ht : (x.toUInt64 + carry).toNat = x.toNat + carry.toNat := by
        rw [UInt64.toNat_add, toNat_toUInt64, Nat.mod_eq_of_lt (by omega)]
      have hsplit := split (x.toUInt64 + carry)
      have hcarry := carry_lt (x.toUInt64 + carry)
      have h := ih (by omega : ((x.toUInt64 + carry) >>> 32).toNat < 2 ^ 63)
      dsimp only
      rw [value_cons, value_cons, List.length_cons, Nat.mul_succ, pow_add]
      linarith

/-- Less than one more limb can carry out at most once. -/
theorem carry_le_one_of_eq {n carry out total : Nat} (h : out + 2 ^ n * carry = total)
    (htotal : total < 2 * 2 ^ n) :
    carry ≤ 1 := by
  by_contra hlt
  have : 2 ^ n * 2 ≤ 2 ^ n * carry := Nat.mul_le_mul_left _ (by omega)
  omega

/-! ## Limbs and bytes -/

/-- Four bytes as a limb, least significant first. -/
def word (a b c d : UInt8) : UInt32 :=
  a.toUInt32 ||| (b.toUInt32 <<< 8) ||| (c.toUInt32 <<< 16) ||| (d.toUInt32 <<< 24)

theorem toNat_word (a b c d : UInt8) :
    (word a b c d).toNat = a.toNat + 256 * b.toNat + 65536 * c.toNat + 16777216 * d.toNat := by
  have ha := a.toNat_lt
  have hb := b.toNat_lt
  have hc := c.toNat_lt
  have hd := d.toNat_lt
  have hshift : ∀ (x : UInt8) (k : Nat), k ≤ 24 → (x.toUInt32 <<< UInt32.ofNat k).toNat = x.toNat <<< k := by
    intro x k hk
    have hx := x.toNat_lt
    have hpow : 2 ^ k ≤ 2 ^ 24 := Nat.pow_le_pow_right (by decide) hk
    have hlt : x.toNat * 2 ^ k < 2 ^ 32 := by
      calc x.toNat * 2 ^ k ≤ 255 * 2 ^ 24 := Nat.mul_le_mul (by omega) hpow
        _ < 2 ^ 32 := by norm_num
    have hmod : (UInt32.ofNat k).toNat % 32 = k := by
      rw [UInt32.toNat_ofNat_of_lt' (lt_of_le_of_lt hk (by decide)), Nat.mod_eq_of_lt (by omega)]
    rw [UInt32.toNat_shiftLeft, hmod, UInt8.toNat_toUInt32, Nat.shiftLeft_eq, Nat.mod_eq_of_lt hlt]
  have h8 : (b.toUInt32 <<< 8).toNat = b.toNat <<< 8 := hshift b 8 (by decide)
  have h16 : (c.toUInt32 <<< 16).toNat = c.toNat <<< 16 := hshift c 16 (by decide)
  have h24 : (d.toUInt32 <<< 24).toNat = d.toNat <<< 24 := hshift d 24 (by decide)
  rw [word, UInt32.toNat_or, UInt32.toNat_or, UInt32.toNat_or, h8, h16, h24, UInt8.toNat_toUInt32,
    Octets.or_shiftLeft (by omega : a.toNat < 2 ^ 8), Octets.or_shiftLeft (by omega : a.toNat +
      2 ^ 8 * b.toNat < 2 ^ 16),
    Octets.or_shiftLeft (by omega : a.toNat + 2 ^ 8 * b.toNat + 2 ^ 16 * c.toNat < 2 ^ 24)]
  rfl

/-- The limbs of a byte string, least significant byte first. -/
def loadLe (n : Nat) (bytes : List UInt8) : List UInt32 :=
  (List.range n).map fun i => word (bytes.getD (i * 4) 0) (bytes.getD (i * 4 + 1) 0)
    (bytes.getD (i * 4 + 2) 0)
    (bytes.getD (i * 4 + 3) 0)

/-- The bytes of limbs, least significant byte first. -/
def storeLe (limbs : List UInt32) : List UInt8 :=
  limbs.flatMap fun x : UInt32 => [x.toUInt8, (x >>> 8).toUInt8, (x >>> 16).toUInt8, (x >>> 24).toUInt8]

@[simp] theorem length_loadLe (n : Nat) (bytes : List UInt8) : (loadLe n bytes).length = n := by simp [loadLe]

theorem value_loadLe : ∀ (n : Nat) (bytes : List UInt8), bytes.length = n * 4 →
    value (loadLe n bytes) = Octets.le bytes := by
  intro n
  induction n with
  | zero =>
    intro bytes h
    rw [List.eq_nil_of_length_eq_zero (by omega : bytes.length = 0)]
    rfl
  | succ n ih =>
    intro bytes h
    obtain ⟨a, b, c, d, rest, rfl⟩ : ∃ a b c d rest, bytes = a :: b :: c :: d :: rest := by
      obtain ⟨a, t, rfl⟩ := List.exists_cons_of_length_pos (by omega : 0 < bytes.length)
      rw [List.length_cons] at h
      obtain ⟨b, t, rfl⟩ := List.exists_cons_of_length_pos (by omega : 0 < t.length)
      rw [List.length_cons] at h
      obtain ⟨c, t, rfl⟩ := List.exists_cons_of_length_pos (by omega : 0 < t.length)
      rw [List.length_cons] at h
      obtain ⟨d, t, rfl⟩ := List.exists_cons_of_length_pos (by omega : 0 < t.length)
      exact ⟨a, b, c, d, t, rfl⟩
    have hrest := ih rest (by simp only [List.length_cons] at h; omega)
    have hload : loadLe (n + 1) (a :: b :: c :: d :: rest) = word a b c d :: loadLe n rest := by
      rw [loadLe, List.range_succ_eq_map, List.map_cons, List.map_map]
      refine congrArg₂ List.cons rfl (List.map_congr_left ?_)
      intro i _
      have hstep : (i + 1) * 4 = i * 4 + 4 := by ring
      simp only [Function.comp_apply, Nat.succ_eq_add_one, hstep]
      rfl
    rw [hload, value_cons, hrest, toNat_word]
    simp only [Octets.le_cons]
    ring

theorem length_storeLe (limbs : List UInt32) : (storeLe limbs).length = limbs.length * 4 := by
  induction limbs with
  | nil => rfl
  | cons x limbs ih =>
    rw [storeLe, List.flatMap_cons, List.length_append, ← storeLe, ih, List.length_cons]
    simp only [List.length_cons, List.length_nil]
    ring

theorem le_storeLe (limbs : List UInt32) : Octets.le (storeLe limbs) = value limbs := by
  induction limbs with
  | nil => rfl
  | cons x limbs ih =>
    have hx := x.toNat_lt
    have hbyte : ∀ k : Nat, k < 32 → (x >>> UInt32.ofNat k).toUInt8.toNat = x.toNat / 2 ^ k % 256 := by
      intro k hk
      have hmod : (UInt32.ofNat k).toNat % 32 = k := by
        rw [UInt32.toNat_ofNat_of_lt' (lt_trans hk (by decide)), Nat.mod_eq_of_lt hk]
      rw [UInt32.toNat_toUInt8, UInt32.toNat_shiftRight, hmod, Nat.shiftRight_eq_div_pow]
    have h8 : (x >>> 8).toUInt8.toNat = x.toNat / 2 ^ 8 % 256 := hbyte 8 (by decide)
    have h16 : (x >>> 16).toUInt8.toNat = x.toNat / 2 ^ 16 % 256 := hbyte 16 (by decide)
    have h24 : (x >>> 24).toUInt8.toNat = x.toNat / 2 ^ 24 % 256 := hbyte 24 (by decide)
    rw [storeLe, List.flatMap_cons, Octets.le_append, ← storeLe, ih, value_cons]
    simp only [Octets.le_cons, Octets.le_nil, List.length_cons, List.length_nil, h8, h16, h24,
        UInt32.toNat_toUInt8]
    omega

/-! ## One byte of a limb -/

/-- A limb is a digit of the number. -/
theorem toNat_getD (v : List UInt32) : ∀ j, (v.getD j 0).toNat = value v / 2 ^ (32 * j) % 2 ^ 32 := by
  induction v with
  | nil =>
    intro j
    simp
  | cons x v ih =>
    intro j
    have hx := x.toNat_lt
    cases j with
    | zero =>
      rw [List.getD_cons_zero, value_cons]
      omega
    | succ j =>
      rw [List.getD_cons_succ, ih, value_cons, Nat.mul_succ, Nat.add_comm (32 * j), pow_add,
          ← Nat.div_div_eq_div_mul,
        Nat.add_mul_div_left _ _ (by decide : 0 < 2 ^ 32), Nat.div_eq_of_lt hx, Nat.zero_add]

/-- A window of a limb is the same window of the number. -/
theorem window_limb (v : List UInt32) (j : Nat) {s w : Nat} (h : s + w ≤ 32) :
    (v.getD j 0).toNat / 2 ^ s % 2 ^ w = value v / 2 ^ (32 * j + s) % 2 ^ w := by
  rw [toNat_getD, pow_add, ← Nat.div_div_eq_div_mul]
  apply Nat.eq_of_testBit_eq
  intro i
  simp only [Nat.testBit_mod_two_pow, Nat.testBit_div_two_pow]
  by_cases hi : i < w
  · have hlt : i + s < 32 := by omega
    simp [hi, hlt]
  · simp [hi]

/-- A byte put where the limbs are still zero, from its place down. -/
theorem value_set_or (b : UInt8) {s : Nat} (hs : s + 8 ≤ 32) :
    ∀ {v : List UInt32} {j : Nat}, j < v.length → 2 ^ (32 * j + s + 8) ∣ value v →
      value (v.set j (v.getD j 0 ||| b.toUInt32 <<< UInt32.ofNat s)) =
        value v + b.toNat * 2 ^ (32 * j + s) := by
  have hb := b.toNat_lt
  intro v
  induction v with
  | nil =>
    intro j hj
    exact absurd hj (Nat.not_lt_zero j)
  | cons x v ih =>
    intro j hj hdvd
    have hx := x.toNat_lt
    cases j with
    | zero =>
      have hlow : 2 ^ (s + 8) ∣ x.toNat := by
        rw [value_cons, Nat.mul_zero, Nat.zero_add] at hdvd
        exact (Nat.dvd_add_left ((pow_dvd_pow 2 hs).mul_right _)).1 hdvd
      obtain ⟨q, hq⟩ := hlow
      have hplace : b.toNat * 2 ^ s < 2 ^ (s + 8) := by
        rw [pow_add, Nat.mul_comm]
        exact Nat.mul_lt_mul_of_pos_left hb (Nat.two_pow_pos s)
      have hfits : b.toNat * 2 ^ s < 2 ^ 32 := lt_of_lt_of_le hplace (Nat.pow_le_pow_right (by decide) hs)
      have hshift : (b.toUInt32 <<< UInt32.ofNat s).toNat = b.toNat * 2 ^ s := by
        rw [UInt32.toNat_shiftLeft, UInt32.toNat_ofNat_of_lt' (lt_of_le_of_lt (by omega : s ≤ 24)
            (by decide)), Nat.mod_eq_of_lt (by omega : s < 32),
          UInt8.toNat_toUInt32, Nat.shiftLeft_eq, Nat.mod_eq_of_lt hfits]
      have hor : x.toNat ||| b.toNat * 2 ^ s = x.toNat + b.toNat * 2 ^ s := by
        rw [hq, Nat.or_comm, Nat.mul_comm (2 ^ (s + 8)), ← Nat.shiftLeft_eq q,
            Octets.or_shiftLeft hplace, Nat.shiftLeft_eq]
        ring
      rw [List.set_cons_zero, List.getD_cons_zero, value_cons, value_cons, UInt32.toNat_or, hshift, hor]
      ring_nf
    | succ j =>
      have hsplit : 2 ^ (32 * (j + 1) + s + 8) = 2 ^ 32 * 2 ^ (32 * j + s + 8) := by
        rw [← pow_add]
        congr 1
        ring
      rw [hsplit, value_cons] at hdvd
      have hzero : x.toNat = 0 := by
        have h := (Nat.dvd_add_left (Nat.dvd_mul_right _ _)).1 (dvd_of_mul_right_dvd hdvd)
        exact Nat.eq_zero_of_dvd_of_lt h hx
      rw [hzero, Nat.zero_add] at hdvd
      have hrest := ih (Nat.lt_of_succ_lt_succ hj) (Nat.dvd_of_mul_dvd_mul_left (by decide) hdvd)
      rw [List.set_cons_succ, List.getD_cons_succ, value_cons, hrest, value_cons]
      ring

/-- Bit `i` of a number. -/
def bit (v : List UInt32) (i : Nat) : Bool :=
  (v.getD (i / 32) 0 >>> UInt32.ofNat (i % 32)) &&& 1 != 0

theorem shift_and_one (x : UInt32) {k : Nat} (hk : k < 32) :
    ((x >>> UInt32.ofNat k) &&& 1 != 0) = x.toNat.testBit k := by
  have hshift : (x >>> UInt32.ofNat k).toNat = x.toNat >>> k := by
    rw [UInt32.toNat_shiftRight, UInt32.toNat_ofNat_of_lt' (lt_trans hk (by decide)), Nat.mod_eq_of_lt hk]
  have hand : ((x >>> UInt32.ofNat k) &&& 1).toNat = x.toNat >>> k &&& 1 := by
    rw [UInt32.toNat_and, hshift]
    rfl
  rw [Nat.testBit, Nat.and_comm, ← hand]
  by_cases hzero : (x >>> UInt32.ofNat k) &&& 1 = 0
  · rw [hzero]
    rfl
  · have hne : ((x >>> UInt32.ofNat k) &&& 1).toNat ≠ 0 := fun h => hzero (UInt32.toNat_inj.mp h)
    rw [bne_iff_ne.mpr hzero, bne_iff_ne.mpr hne]

theorem bit_eq (v : List UInt32) : bit v = (value v).testBit := by
  funext i
  rw [bit, shift_and_one _ (Nat.mod_lt _ (by decide)), toNat_getD, Nat.testBit_mod_two_pow,
      Nat.testBit_div_two_pow]
  have hi : i % 32 < 32 := Nat.mod_lt _ (by decide)
  have hsum : i % 32 + 32 * (i / 32) = i := Nat.mod_add_div i 32
  simp [hi, hsum]

/-! ## Numbers of a fixed length -/

/-- An array of `n` limbs. -/
structure Num (n : Nat) where
  limbs : List UInt32
  size : limbs.length = n

namespace Num

variable {n : Nat}

/-- The number the limbs stand for. -/
def value (a : Num n) : Nat := Limbs.value a.limbs

theorem lt (a : Num n) : a.value < 2 ^ (32 * n) := by
  have h := value_lt a.limbs
  rwa [a.size] at h

variable {a b : Num n}

theorem ext_value (h : a.value = b.value) : a = b := by
  obtain ⟨v, hv⟩ := a
  obtain ⟨w, hw⟩ := b
  obtain rfl : v = w := value_inj (hv.trans hw.symm) h
  rfl

theorem size_eq (a b : Num n) : a.limbs.length = b.limbs.length := a.size.trans b.size.symm

/-- All limbs zero. -/
def zero (n : Nat) : Num n := ⟨List.replicate n 0, List.length_replicate⟩

@[simp] theorem value_zero : (zero n).value = 0 := value_replicate_zero n

/-- All limbs zero but the lowest. -/
def ofLimb (n : Nat) (x : UInt32) : Num n := ⟨(List.replicate n 0).set 0 x, by simp⟩

theorem value_ofLimb (hn : 0 < n) (x : UInt32) : (ofLimb n x).value = x.toNat := by
  obtain ⟨n, rfl⟩ := Nat.exists_eq_succ_of_ne_zero hn.ne'
  show Limbs.value ((List.replicate (n + 1) 0).set 0 x) = x.toNat
  rw [List.replicate_succ, List.set_cons_zero, value_cons, value_replicate_zero, Nat.mul_zero, Nat.add_zero]

/-- The limb sum, and the carry out of it. -/
def add (a b : Num n) : Num n × UInt64 :=
  (⟨(Limbs.add a.limbs b.limbs 0).1, (length_add 0 (size_eq a b)).trans a.size⟩,
    (Limbs.add a.limbs b.limbs 0).2)

theorem value_add (a b : Num n) : (a.add b).1.value + 2 ^ (32 * n) * (a.add b).2.toNat = a.value + b.value ∧
    (a.add b).2.toNat ≤ 1 := by
  have h := @Limbs.value_add a.limbs b.limbs 0 (size_eq a b) (by simp)
  rw [a.size] at h
  exact h

/-- The limb difference, and the borrow out of it. -/
def sub (a b : Num n) : Num n × UInt64 :=
  (⟨(Limbs.sub a.limbs b.limbs 0).1, (length_sub 0 (size_eq a b)).trans a.size⟩,
    (Limbs.sub a.limbs b.limbs 0).2)

theorem value_sub (a b : Num n) : (a.sub b).1.value + b.value = a.value + 2 ^ (32 * n) * (a.sub b).2.toNat ∧
    (a.sub b).2.toNat ≤ 1 := by
  have h := @Limbs.value_sub a.limbs b.limbs 0 (size_eq a b) (by simp)
  rw [a.size] at h
  exact h

/-- Without a borrow out, the difference is the difference. -/
theorem value_sub_of_le (hle : b.value ≤ a.value) :
    (a.sub b).1.value = a.value - b.value ∧ (a.sub b).2 = 0 := by
  obtain ⟨h, hb⟩ := value_sub a b
  have hlt := (a.sub b).1.lt
  have hzero : (a.sub b).2.toNat = 0 := by
    by_contra hne
    have hone : (a.sub b).2.toNat = 1 := by omega
    rw [hone] at h
    omega
  rw [hzero] at h
  exact ⟨by omega, UInt64.toNat_inj.mp hzero⟩

/-- With one, it is the modulus of the limbs too large. -/
theorem value_sub_of_lt (hlt : a.value < b.value) :
    (a.sub b).1.value = a.value + 2 ^ (32 * n) - b.value ∧ (a.sub b).2 = 1 := by
  obtain ⟨h, hb⟩ := value_sub a b
  have hone : (a.sub b).2.toNat = 1 := by
    by_contra hne
    have hzero : (a.sub b).2.toNat = 0 := by omega
    rw [hzero] at h
    omega
  rw [hone] at h
  exact ⟨by omega, UInt64.toNat_inj.mp hone⟩

/-- The limbs shifted by one bit, `bit` coming in; and the bit that went out. -/
def shiftLeft (a : Num n) (bit : UInt32) : Num n × UInt32 :=
  (⟨(Limbs.shiftLeft a.limbs bit).1, (length_shiftLeft _ _).trans a.size⟩, (Limbs.shiftLeft a.limbs bit).2)

theorem value_shiftLeft (a : Num n) {bit : UInt32} (hbit : bit.toNat ≤ 1) :
    (a.shiftLeft bit).1.value + 2 ^ (32 * n) * (a.shiftLeft bit).2.toNat = 2 * a.value + bit.toNat ∧
      (a.shiftLeft bit).2.toNat ≤ 1 := by
  have h := Limbs.value_shiftLeft a.limbs hbit
  rw [a.size] at h
  exact h

def cmp (a b : Num n) : Ordering := Limbs.cmp a.limbs b.limbs

/-- `cmp(a, b) >= 0`. -/
theorem cmp_ne_lt : a.cmp b ≠ .lt ↔ b.value ≤ a.value := Limbs.cmp_ne_lt (size_eq a b)

end Num

end Limbs
