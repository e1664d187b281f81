import Mathlib.Data.List.Basic
import Mathlib.Tactic.Ring

/-!
# `Lib.MerkleDamgard` — a hash as the iteration of a compression function

A message is padded with one marker byte, zeros and its length in bits, and the compression function is
folded over the blocks of the result. `Design.digest` is that function of a whole message;
`Design.iterate` is the fold alone, which ignores a last incomplete block, so that a reader that
keeps that block in a buffer has the state `iterate init m` after the message `m`.
-/

namespace MerkleDamgard

variable {α σ : Type}

/-- The number `n` in `k` bytes, the most significant first. -/
def bigEndian (k n : Nat) : List UInt8 :=
  (List.range k).map fun i => UInt8.ofNat (n / 256 ^ (k - 1 - i))

@[simp] theorem length_bigEndian (k n : Nat) : (bigEndian k n).length = k := by
  simp [bigEndian]

/-! ## Blocks -/

/-- The complete blocks of `n` elements. -/
def blocks (n : Nat) (l : List α) : List (List α) :=
  (List.range (l.length / n)).map fun i => (l.drop (i * n)).take n

theorem blocks_of_length_lt {n : Nat} {l : List α} (h : l.length < n) : blocks n l = [] := by
  unfold blocks
  rw [Nat.div_eq_of_lt h]
  rfl

theorem blocks_append {n : Nat} {block l : List α} (hn : 0 < n) (hblock : block.length = n) :
    blocks n (block ++ l) = block :: blocks n l := by
  have hcount : (block ++ l).length / n = l.length / n + 1 := by
    rw [List.length_append, hblock, Nat.add_comm, Nat.add_div_right _ hn]
  unfold blocks
  rw [hcount, List.range_succ_eq_map, List.map_cons, List.map_map]
  congr 1
  · rw [Nat.zero_mul, List.drop_zero, ← hblock, List.take_left]
  · apply List.map_congr_left
    intro i _
    have hdrop : (i + 1) * n = block.length + i * n := by rw [hblock]; ring
    show ((block ++ l).drop ((i + 1) * n)).take n = (l.drop (i * n)).take n
    rw [hdrop, ← List.drop_drop, List.drop_left]

/-! ## The iteration -/

/-- A compression function with its constants. The length field is shorter than a block, so that a
    block has room for it and the marker. -/
structure Design (σ : Type) where
  blockLen : Nat
  lengthLen : Nat
  init : σ
  compress : σ → List UInt8 → σ
  output : σ → List UInt8
  lengthLen_lt : lengthLen < blockLen

namespace Design

variable (D : Design σ) {s : σ} {m : List UInt8}

theorem blockLen_pos : 0 < D.blockLen := Nat.lt_of_le_of_lt (Nat.zero_le _) D.lengthLen_lt

/-- The state after the complete blocks of `m`. -/
def iterate (s : σ) (m : List UInt8) : σ := (blocks D.blockLen m).foldl D.compress s

theorem iterate_of_length_lt (h : m.length < D.blockLen) : D.iterate s m = s := by
  unfold iterate
  rw [blocks_of_length_lt h]
  rfl

@[simp] theorem iterate_nil : D.iterate s [] = s := iterate_of_length_lt D D.blockLen_pos

theorem iterate_block {block : List UInt8} (h : block.length = D.blockLen) :
    D.iterate s (block ++ m) = D.iterate (D.compress s block) m := by
  unfold iterate
  rw [blocks_append D.blockLen_pos h]
  rfl

/-- One last block. -/
theorem iterate_single {block : List UInt8} (h : block.length = D.blockLen) :
    D.iterate s block = D.compress s block := by
  have hnil := D.iterate_block (s := s) (m := []) h
  rw [List.append_nil] at hnil
  rw [hnil, iterate_nil]

/-- **The iteration composes** where the first part ends with a block. -/
theorem iterate_append {a b : List UInt8} {k : Nat} (h : a.length = k * D.blockLen) :
    D.iterate s (a ++ b) = D.iterate (D.iterate s a) b := by
  induction k generalizing a s with
  | zero =>
    rw [Nat.zero_mul, List.length_eq_zero_iff] at h
    subst h
    rw [List.nil_append, iterate_nil]
  | succ k ih =>
    have hle : D.blockLen ≤ a.length := by
      rw [h, Nat.succ_mul]
      omega
    have hfirst : (a.take D.blockLen).length = D.blockLen := by
      rw [List.length_take, Nat.min_eq_left hle]
    have hrest : (a.drop D.blockLen).length = k * D.blockLen := by
      rw [List.length_drop, h, Nat.succ_mul, Nat.add_sub_cancel]
    rw [← List.take_append_drop D.blockLen a, List.append_assoc, iterate_block D hfirst,
      iterate_block D hfirst, ih hrest]

/-! ## Padding and the digest -/

/-- How many zeros complete the last block behind `len` bytes, the marker and the length. -/
def zeros (len : Nat) : Nat :=
  (D.blockLen - (len + 1 + D.lengthLen) % D.blockLen) % D.blockLen

/-- The message, the marker `0x80`, zeros, and the length in bits. -/
def pad (m : List UInt8) : List UInt8 :=
  m ++ [0x80] ++ List.replicate (D.zeros m.length) 0 ++ bigEndian D.lengthLen (8 * m.length)

/-- A padded message is a number of complete blocks. -/
theorem blockLen_dvd_length_pad (m : List UInt8) : D.blockLen ∣ (D.pad m).length := by
  have hpos := D.blockLen_pos
  have hlen : (D.pad m).length = m.length + 1 + D.lengthLen + D.zeros m.length := by
    simp only [pad, List.length_append, List.length_singleton, List.length_replicate,
      length_bigEndian]
    omega
  rw [hlen, zeros]
  generalize m.length + 1 + D.lengthLen = t
  have hmod := Nat.mod_lt t hpos
  rw [Nat.dvd_iff_mod_eq_zero, Nat.add_mod, Nat.mod_mod]
  by_cases hzero : t % D.blockLen = 0
  · rw [hzero, Nat.sub_zero, Nat.mod_self, Nat.zero_add, Nat.zero_mod]
  · rw [Nat.mod_eq_of_lt (show D.blockLen - t % D.blockLen < D.blockLen by omega),
      Nat.add_sub_cancel' (Nat.le_of_lt hmod), Nat.mod_self]

/-- **The hash of a message.** -/
def digest (m : List UInt8) : List UInt8 := D.output (D.iterate D.init (D.pad m))

end Design

end MerkleDamgard
