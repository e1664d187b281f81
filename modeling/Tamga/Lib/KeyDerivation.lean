import Mathlib.Data.List.Basic

/-!
# `Lib.KeyDerivation` — HMAC (RFC 2104) and HKDF (RFC 5869) over a hash

`hmac` is the keyed hash over any hash function with a block length. `expansion mac prk info n` is
`T(1) || … || T(n)`, of which an expanded key is a prefix: the blocks do not depend on how many of
them are taken (`take_expansion`).
-/

namespace KeyDerivation

/-- The key as a block: hashed when it is too long, then filled with zeros. -/
def keyBlock (hash : List UInt8 → List UInt8) (blockLen : Nat) (key : List UInt8) : List UInt8 :=
  let k := if key.length > blockLen then hash key else key
  k ++ List.replicate (blockLen - k.length) 0

/-- `H((K ⊕ opad) || H((K ⊕ ipad) || message))`. -/
def hmac (hash : List UInt8 → List UInt8) (blockLen : Nat) (key message : List UInt8) : List UInt8 :=
  let k := keyBlock hash blockLen key
  hash (k.map (· ^^^ 0x5C) ++ hash (k.map (· ^^^ 0x36) ++ message))

section Expand

variable (mac : (key message : List UInt8) → List UInt8) (prk info : List UInt8)

/-- `T(n)`: `T(0)` is empty and `T(n + 1) = HMAC(PRK, T(n) || info || n + 1)`. -/
def block : Nat → List UInt8
  | 0 => []
  | n + 1 => mac prk (block n ++ info ++ [UInt8.ofNat (n + 1)])

theorem block_zero : block mac prk info 0 = [] := rfl

theorem block_succ (n : Nat) :
    block mac prk info (n + 1) = mac prk (block mac prk info n ++ info ++ [UInt8.ofNat (n + 1)]) :=
  rfl

/-- `T(1) || … || T(n)`. -/
def expansion (n : Nat) : List UInt8 := (List.range n).flatMap fun i => block mac prk info (i + 1)

theorem expansion_succ (n : Nat) :
    expansion mac prk info (n + 1) = expansion mac prk info n ++ block mac prk info (n + 1) := by
  simp [expansion, List.range_succ]

theorem expansion_prefix {n k : Nat} (h : n ≤ k) :
    expansion mac prk info n <+: expansion mac prk info k := by
  induction h with
  | refl => exact List.prefix_refl _
  | step _ ih =>
    rw [expansion_succ]
    exact ih.trans (List.prefix_append _ _)

variable {mac} {hashLen : Nat} (hmac : ∀ key message, (mac key message).length = hashLen)

include hmac

theorem length_expansion (n : Nat) : (expansion mac prk info n).length = n * hashLen := by
  induction n with
  | zero => rw [Nat.zero_mul]; rfl
  | succ n ih => rw [expansion_succ, List.length_append, ih, block_succ, hmac, Nat.succ_mul]

/-- However many blocks are computed, the first bytes are the same. -/
theorem take_expansion {len n k : Nat} (hn : len ≤ n * hashLen) (hk : len ≤ k * hashLen) :
    (expansion mac prk info n).take len = (expansion mac prk info k).take len := by
  rcases Nat.le_total n k with h | h
  · obtain ⟨rest, hrest⟩ := expansion_prefix mac prk info h
    rw [← hrest, List.take_append_of_le_length (by rw [length_expansion prk info hmac]; exact hn)]
  · obtain ⟨rest, hrest⟩ := expansion_prefix mac prk info h
    rw [← hrest, List.take_append_of_le_length (by rw [length_expansion prk info hmac]; exact hk)]

end Expand

/-- HKDF: extract with the salt, or with `hashLen` zeros in its place, then expand. -/
def hkdf (mac : (key message : List UInt8) → List UInt8) (hashLen : Nat)
    (salt ikm info : List UInt8) (len : Nat) : List UInt8 :=
  let prk := mac (if salt = [] then List.replicate hashLen 0 else salt) ikm
  (expansion mac prk info ((len + hashLen - 1) / hashLen)).take len

theorem length_hkdf {mac : (key message : List UInt8) → List UInt8} {hashLen : Nat}
    (hpos : 0 < hashLen) (hmac : ∀ key message, (mac key message).length = hashLen)
    (salt ikm info : List UInt8) (len : Nat) : (hkdf mac hashLen salt ikm info len).length = len := by
  have hceil : len ≤ (len + hashLen - 1) / hashLen * hashLen := by
    have := Nat.lt_div_mul_add hpos (a := len + hashLen - 1)
    omega
  unfold hkdf
  dsimp only
  rw [List.length_take, length_expansion _ info hmac, Nat.min_eq_left hceil]

/-- A shorter key is the front of a longer one. -/
theorem take_hkdf {mac : (key message : List UInt8) → List UInt8} {hashLen : Nat}
    (hpos : 0 < hashLen) (hmac : ∀ key message, (mac key message).length = hashLen)
    (salt ikm info : List UInt8) {n k : Nat} (h : n ≤ k) :
    (hkdf mac hashLen salt ikm info k).take n = hkdf mac hashLen salt ikm info n := by
  have hceil : ∀ len, len ≤ (len + hashLen - 1) / hashLen * hashLen := by
    intro len
    have := Nat.lt_div_mul_add hpos (a := len + hashLen - 1)
    omega
  unfold hkdf
  dsimp only
  rw [List.take_take, Nat.min_eq_left h]
  exact take_expansion _ info hmac (Nat.le_trans h (hceil k)) (hceil n)

end KeyDerivation
