import Mathlib.Data.List.TakeWhile
import Tamga.Lib.Alloc
import Tamga.Lib.Octets

/-!
# `Tamga.Mem` — bytes, C strings and checked allocation (`tamga_mem.c`)

Memory contents are lists of bytes. A `const char *` is modelled by the bytes before its terminator;
where the code reads a C string out of a block that carries an explicit length, `cstr` is what
`strlen` sees of it. `size_t` is 64 bits wide.

Freeing and zeroing have no value a caller could see and are left out; every allocation is one
`Alloc.request`, in source order.
-/

namespace Tamga

open Alloc

abbrev Bytes : Type := List UInt8

/-- The bytes of a string literal. -/
def ascii (s : String) : Bytes := s.toByteArray.data.toList

theorem ascii_append (s t : String) : ascii (s ++ t) = ascii s ++ ascii t := by
  simp [ascii]

/-- What a reader that stops at the first NUL sees of a block. -/
def cstr (b : Bytes) : Bytes := b.takeWhile (· != 0)

/-- `memchr(b, 0, len) == NULL`. -/
def NulFree (b : Bytes) : Prop := 0 ∉ b

instance (b : Bytes) : Decidable (NulFree b) := inferInstanceAs (Decidable (0 ∉ b))

@[simp] theorem nulFree_nil : NulFree [] := by simp [NulFree]

theorem nulFree_cons {c : UInt8} {b : Bytes} : NulFree (c :: b) ↔ c ≠ 0 ∧ NulFree b := by
  unfold NulFree
  rw [List.mem_cons, not_or, ne_comm]

theorem nulFree_append {a b : Bytes} : NulFree (a ++ b) ↔ NulFree a ∧ NulFree b := by
  unfold NulFree
  rw [List.mem_append, not_or]

theorem cstr_of_nulFree {b : Bytes} (h : NulFree b) : cstr b = b := by
  refine List.takeWhile_eq_self_iff.mpr fun x hx => ?_
  simp only [bne_iff_ne, ne_eq]
  rintro rfl
  exact h hx

theorem nulFree_cstr (b : Bytes) : NulFree (cstr b) := by
  intro h
  simpa using List.mem_takeWhile_imp h

theorem length_cstr_le (b : Bytes) : (cstr b).length ≤ b.length :=
  (List.takeWhile_sublist _).length_le

/-! ## Blocks -/

/-- `memcpy(&block[at], bytes, …)`, and `memset` for equal bytes. -/
def overwrite (block : Bytes) (start : Nat) (bytes : Bytes) : Bytes :=
  block.take start ++ bytes ++ block.drop (start + bytes.length)

theorem length_overwrite {bytes block : Bytes} {start : Nat} (h : start + bytes.length ≤ block.length) :
    (overwrite block start bytes).length = block.length := by
  simp only [overwrite, List.length_append, List.length_take, List.length_drop]
  omega

theorem take_overwrite (bytes : Bytes) {block : Bytes} {start : Nat} (h : start ≤ block.length) :
    (overwrite block start bytes).take (start + bytes.length) = block.take start ++ bytes := by
  unfold overwrite
  rw [List.take_left' (by simp [List.length_take, Nat.min_eq_left h])]

/-- Bytes up to the end of the block. -/
theorem overwrite_to_end (bytes : Bytes) {block : Bytes} {start : Nat}
    (h : start + bytes.length = block.length) :
    overwrite block start bytes = block.take start ++ bytes := by
  unfold overwrite
  rw [List.drop_of_length_le (Nat.le_of_eq h.symm), List.append_nil]

theorem take_overwrite_zero (out bytes : Bytes) :
    (overwrite out 0 bytes).take bytes.length = bytes := by
  have h := take_overwrite bytes (Nat.zero_le out.length)
  rwa [Nat.zero_add, List.take_zero, List.nil_append] at h

theorem overwrite_overwrite (out a b : Bytes) :
    overwrite (overwrite out 0 a) a.length b = overwrite out 0 (a ++ b) := by
  unfold overwrite
  rw [List.take_zero, List.nil_append, List.nil_append, Nat.zero_add, Nat.zero_add, List.take_left,
    List.drop_append, List.drop_eq_nil_of_le (Nat.le_add_right ..), List.nil_append, List.drop_drop,
    List.length_append, Nat.add_sub_cancel_left]

/-! ## Sizes -/

def sizeMax : Nat := 2 ^ 64 - 1

/-- `TAMGA_MAX_REASONABLE_LEN`: 16 MiB, the longest input any entry point accepts. -/
def maxReasonableLen : Nat := 16 * 1024 * 1024

def checkedAdd (a b : Nat) : Option Nat := if a > sizeMax - b then none else some (a + b)

def checkedMul (a b : Nat) : Option Nat :=
  if a ≠ 0 ∧ b > sizeMax / a then none else some (a * b)

theorem checkedAdd_of_le {a b : Nat} (h : a + b ≤ sizeMax) : checkedAdd a b = some (a + b) := by
  unfold checkedAdd
  rw [if_neg (by omega)]

theorem checkedAdd_eq_none {a b : Nat} (h : checkedAdd a b = none) : sizeMax < a + b := by
  unfold checkedAdd at h
  split at h
  · omega
  · cases h

theorem checkedAdd_eq_some {a b c : Nat} (h : checkedAdd a b = some c) : c = a + b := by
  unfold checkedAdd at h
  split at h
  · cases h
  · injection h with h; exact h.symm

theorem checkedMul_of_le {a b : Nat} (h : a * b ≤ sizeMax) : checkedMul a b = some (a * b) := by
  unfold checkedMul
  rw [if_neg]
  rintro ⟨ha, hb⟩
  have hb' : b ≤ sizeMax / a :=
    (Nat.le_div_iff_mul_le (Nat.pos_of_ne_zero ha)).mpr (by rw [Nat.mul_comm]; exact h)
  omega

theorem checkedMul_eq_some {a b c : Nat} (h : checkedMul a b = some c) : c = a * b := by
  unfold checkedMul at h
  split at h
  · cases h
  · injection h with h; exact h.symm

theorem checkedMul_le {a b c : Nat} (h : checkedMul a b = some c) : c ≤ sizeMax := by
  unfold checkedMul at h
  split at h
  · cases h
  · rename_i hfit
    injection h with h
    subst h
    by_cases ha : a = 0
    · rw [ha, Nat.zero_mul]; exact Nat.zero_le _
    · have hb : b ≤ sizeMax / a := by
        by_contra hlt
        exact hfit ⟨ha, by omega⟩
      calc a * b ≤ a * (sizeMax / a) := Nat.mul_le_mul_left a hb
        _ ≤ sizeMax := Nat.mul_div_le sizeMax a

/-! ## Copies -/

/-- `tamga_malloc`, `tamga_calloc`, `tamga_realloc`: one request, whatever its size. -/
def malloc : Alloc Bool := request

/-- `tamga_strndup(src, len)` for a non-NULL `src` of `len` bytes. -/
def strndup (src : Bytes) : Alloc (Option Bytes) := do
  if src.length > maxReasonableLen then return none
  -- an interior NUL would make strlen(result) disagree with len
  if ¬ NulFree src then return none
  match checkedAdd src.length 1 with
  | none => return none
  | some _ => if ← malloc then return some src else return none

/-- `tamga_strdup`. -/
def strdup (src : Bytes) : Alloc (Option Bytes) := strndup (cstr src)

theorem le_sizeMax_of_le_maxReasonableLen {n : Nat} (h : n ≤ maxReasonableLen) :
    n + 1 ≤ sizeMax := by
  unfold maxReasonableLen at h
  unfold sizeMax
  omega

variable {F : Prop}

/-- A block is handed out, or the request was refused. -/
theorem malloc_can {β : Type} {f : Bool → Alloc β} {b : β} (h : (malloc >>= f).Can F b) :
    (f true).Can F b ∨ F ∧ (f false).Can F b := by
  obtain ⟨c, hc, hb⟩ := can_bind.1 h
  rcases can_request.1 hc with rfl | ⟨hF, rfl⟩
  · exact Or.inl hb
  · exact Or.inr ⟨hF, hb⟩

theorem strndup_can {src : Bytes} {r : Option Bytes} (hlen : src.length ≤ maxReasonableLen)
    (hnul : NulFree src) (h : (strndup src).Can F r) : r = some src ∨ F ∧ r = none := by
  unfold strndup at h
  simp only [Nat.not_lt.mpr hlen, if_false, hnul, not_true_eq_false,
    checkedAdd_of_le (le_sizeMax_of_le_maxReasonableLen hlen)] at h
  rcases malloc_can h with h | ⟨hF, h⟩
  · exact Or.inl (can_pure.1 h).symm
  · exact Or.inr ⟨hF, (can_pure.1 h).symm⟩

theorem strndup_some {src s : Bytes} (h : (strndup src).Can F (some s)) :
    s = src ∧ NulFree src ∧ src.length ≤ maxReasonableLen := by
  unfold strndup at h
  split at h
  · cases h
  rename_i hlen
  split at h
  · cases h
  rename_i hnul
  rw [checkedAdd_of_le (le_sizeMax_of_le_maxReasonableLen (by omega))] at h
  rcases malloc_can h with h | ⟨-, h⟩
  · injection can_pure.1 h with h
    exact ⟨h.symm, not_not.mp hnul, by omega⟩
  · cases h

theorem strdup_ok {src : Bytes} (hlen : src.length ≤ maxReasonableLen) (hnul : NulFree src) :
    (strdup src).ok = some src := by
  unfold strdup
  rw [cstr_of_nulFree hnul]
  rcases strndup_can (F := False) hlen hnul (strndup src).can_ok with h | ⟨h, -⟩
  · exact h
  · exact h.elim

/-- A copy is the source, or nothing because it may not be copied, or a refused request. -/
theorem strndup_sound (src : Bytes) : (strndup src).Sound (· = none) := by
  unfold strndup
  split
  · exact Sound.pure none
  split
  · exact Sound.pure none
  split
  · exact Sound.pure none
  · exact Sound.of_can fun F r h => (malloc_can h).imp (fun h => (can_pure.1 h).symm)
      fun ⟨hF, h⟩ => ⟨hF, (can_pure.1 h).symm⟩

end Tamga
