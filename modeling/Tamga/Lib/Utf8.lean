import Mathlib.Tactic

/-!
# `Lib.Utf8` — UTF-8 sequences by their byte ranges

`String.utf8EncodeChar` says what the encoding of a Unicode scalar value is. Decoders work from the
other end, on byte ranges; the lemmas here say that the ranges they test are exactly right: every
encoding lies in the ranges of its length, and every sequence in the ranges is the encoding of some
scalar value — no overlong form, no surrogate, nothing above `U+10FFFF`.
-/

namespace Utf8

/-- The encoding of one scalar value. -/
abbrev encodeChar (c : Char) : List UInt8 := String.utf8EncodeChar c

/-- A concatenation of encodings. -/
inductive WellFormed : List UInt8 → Prop where
  | nil : WellFormed []
  | cons (c : Char) {s : List UInt8} (h : WellFormed s) : WellFormed (encodeChar c ++ s)

/-- Bytes below `0x80` stand for themselves. -/
theorem wellFormed_of_ascii {s : List UInt8} (h : ∀ c ∈ s, c.toNat < 0x80) : WellFormed s := by
  induction s with
  | nil => exact .nil
  | cons c s ih =>
    have hself : ∀ k < 128, encodeChar (Char.ofNat k) = [UInt8.ofNat k] := by decide +kernel
    have hc := hself c.toNat (h c List.mem_cons_self)
    rw [UInt8.ofNat_toNat] at hc
    rw [← List.singleton_append, ← hc]
    exact .cons _ (ih fun b hb => h b (List.mem_cons_of_mem c hb))

def isCont (c : UInt8) : Prop := 0x80 ≤ c.toNat ∧ c.toNat ≤ 0xBF

/-! ## From scalar values to ranges -/

/-- A scalar value is not a surrogate and is at most `U+10FFFF`. -/
theorem scalar_range (c : Char) :
    c.val.toNat < 0xD800 ∨ 0xDFFF < c.val.toNat ∧ c.val.toNat < 0x110000 := c.valid

variable {c : Char}

theorem encodeChar_one (h : c.val.toNat < 0x80) : encodeChar c = [UInt8.ofNat c.val.toNat] := by
  unfold encodeChar String.utf8EncodeChar
  exact if_pos (by omega)

theorem encodeChar_two (h : 0x80 ≤ c.val.toNat) (h' : c.val.toNat < 0x800) :
    encodeChar c =
      [UInt8.ofNat (c.val.toNat / 64 + 192), UInt8.ofNat (c.val.toNat % 64 + 128)] := by
  unfold encodeChar String.utf8EncodeChar
  rw [if_neg (by omega), if_pos (by omega), Nat.mod_eq_of_lt (a := c.val.toNat / 64) (by omega)]

theorem encodeChar_three (h : 0x800 ≤ c.val.toNat) (h' : c.val.toNat < 0x10000) :
    encodeChar c =
      [UInt8.ofNat (c.val.toNat / 4096 + 224), UInt8.ofNat (c.val.toNat / 64 % 64 + 128),
        UInt8.ofNat (c.val.toNat % 64 + 128)] := by
  unfold encodeChar String.utf8EncodeChar
  rw [if_neg (by omega), if_neg (by omega), if_pos (by omega),
    Nat.mod_eq_of_lt (a := c.val.toNat / 4096) (by omega)]

theorem encodeChar_four (h : 0x10000 ≤ c.val.toNat) :
    encodeChar c =
      [UInt8.ofNat (c.val.toNat / 262144 + 240), UInt8.ofNat (c.val.toNat / 4096 % 64 + 128),
        UInt8.ofNat (c.val.toNat / 64 % 64 + 128), UInt8.ofNat (c.val.toNat % 64 + 128)] := by
  have := scalar_range c
  unfold encodeChar String.utf8EncodeChar
  rw [if_neg (by omega), if_neg (by omega), if_neg (by omega),
    Nat.mod_eq_of_lt (a := c.val.toNat / 262144) (by omega)]

theorem toNat_ofNat_of_lt {n : Nat} (h : n < 256) : (UInt8.ofNat n).toNat = n := by
  rw [UInt8.toNat_ofNat']; omega

/-- The four shapes of an encoding, with the range of each byte. -/
theorem encodeChar_cases (c : Char) :
    (∃ b0, encodeChar c = [b0] ∧ b0.toNat < 0x80 ∧ b0.toNat = c.val.toNat) ∨
    (∃ b0 b1, encodeChar c = [b0, b1] ∧ 0xC2 ≤ b0.toNat ∧ b0.toNat ≤ 0xDF ∧ isCont b1 ∧
      0x80 ≤ c.val.toNat) ∨
    (∃ b0 b1 b2, encodeChar c = [b0, b1, b2] ∧ 0xE0 ≤ b0.toNat ∧ b0.toNat ≤ 0xEF ∧ isCont b1 ∧
      (b0.toNat = 0xE0 → 0xA0 ≤ b1.toNat) ∧ (b0.toNat = 0xED → b1.toNat ≤ 0x9F) ∧ isCont b2 ∧
      0x80 ≤ c.val.toNat) ∨
    (∃ b0 b1 b2 b3, encodeChar c = [b0, b1, b2, b3] ∧ 0xF0 ≤ b0.toNat ∧ b0.toNat ≤ 0xF4 ∧
      isCont b1 ∧ (b0.toNat = 0xF0 → 0x90 ≤ b1.toNat) ∧ (b0.toNat = 0xF4 → b1.toNat ≤ 0x8F) ∧
      isCont b2 ∧ isCont b3 ∧ 0x80 ≤ c.val.toNat) := by
  have hrange := scalar_range c
  by_cases h1 : c.val.toNat < 0x80
  · left
    refine ⟨_, encodeChar_one h1, ?_⟩
    rw [toNat_ofNat_of_lt (by omega)]
    omega
  right
  by_cases h2 : c.val.toNat < 0x800
  · left
    refine ⟨_, _, encodeChar_two (by omega) h2, ?_⟩
    unfold isCont
    rw [toNat_ofNat_of_lt (by omega), toNat_ofNat_of_lt (by omega)]
    omega
  right
  by_cases h3 : c.val.toNat < 0x10000
  · left
    refine ⟨_, _, _, encodeChar_three (by omega) h3, ?_⟩
    unfold isCont
    rw [toNat_ofNat_of_lt (by omega), toNat_ofNat_of_lt (by omega), toNat_ofNat_of_lt (by omega)]
    omega
  · right
    refine ⟨_, _, _, _, encodeChar_four (by omega), ?_⟩
    unfold isCont
    rw [toNat_ofNat_of_lt (by omega), toNat_ofNat_of_lt (by omega), toNat_ofNat_of_lt (by omega),
      toNat_ofNat_of_lt (by omega)]
    omega

theorem encodeChar_ne_nil (c : Char) : encodeChar c ≠ [] := by
  rcases encodeChar_cases c with ⟨_, h, -⟩ | ⟨_, _, h, -⟩ | ⟨_, _, _, h, -⟩ | ⟨_, _, _, _, h, -⟩ <;>
    rw [h] <;> exact List.cons_ne_nil _ _

theorem length_encodeChar_le (c : Char) : (encodeChar c).length ≤ 4 := by
  rcases encodeChar_cases c with ⟨_, h, -⟩ | ⟨_, _, h, -⟩ | ⟨_, _, _, h, -⟩ | ⟨_, _, _, _, h, -⟩ <;>
    rw [h] <;> simp

/-- The first byte decides: below `0x80` it is the scalar value itself. -/
theorem head_encodeChar {b : UInt8} {t : List UInt8} (h : encodeChar c = b :: t) :
    (b.toNat = c.val.toNat ∧ c.val.toNat < 0x80 ∧ t = []) ∨ 0xC2 ≤ b.toNat ∧ 0x80 ≤ c.val.toNat := by
  rcases encodeChar_cases c with ⟨b0, h', h0, h1⟩ | ⟨b0, _, h', h0, -, -, h1⟩ |
    ⟨b0, _, _, h', h0, -, -, -, -, -, h1⟩ | ⟨b0, _, _, _, h', h0, -, -, -, -, -, -, h1⟩
  all_goals
    rw [h] at h'
    injection h' with hb ht
    subst hb
  · exact Or.inl ⟨h1, by omega, ht⟩
  · exact Or.inr ⟨h0, h1⟩
  · exact Or.inr ⟨by omega, h1⟩
  · exact Or.inr ⟨by omega, h1⟩

/-- Past ASCII, every byte has its high bit set. -/
theorem le_of_mem_encodeChar (hc : 0x80 ≤ c.val.toNat) {b : UInt8} (hb : b ∈ encodeChar c) :
    0x80 ≤ b.toNat := by
  rcases encodeChar_cases c with ⟨b0, h, h0, h1⟩ | ⟨b0, b1, h, h0, -, h1, -⟩ |
    ⟨b0, b1, b2, h, h0, -, h1, -, -, h2, -⟩ | ⟨b0, b1, b2, b3, h, h0, -, h1, -, -, h2, h3, -⟩
  all_goals
    rw [h] at hb
    simp only [List.mem_cons, List.not_mem_nil, or_false] at hb
  · omega
  · rcases hb with rfl | rfl
    · omega
    · exact h1.1
  · rcases hb with rfl | rfl | rfl
    · omega
    · exact h1.1
    · exact h2.1
  · rcases hb with rfl | rfl | rfl | rfl
    · omega
    · exact h1.1
    · exact h2.1
    · exact h3.1

/-! ## From ranges to scalar values -/

theorem exists_scalar {n : Nat} (h : n < 0xD800 ∨ 0xDFFF < n ∧ n < 0x110000) :
    ∃ c : Char, c.val.toNat = n :=
  ⟨Char.ofNatAux n h, by
    show (UInt32.ofNatLT n _).toNat = n
    rfl⟩

variable {b0 b1 b2 b3 : UInt8}

theorem eq_ofNat {b : UInt8} {n : Nat} (h : b.toNat = n) : UInt8.ofNat n = b := by
  rw [← h]; exact UInt8.ofNat_toNat

theorem decode_one (h : b0.toNat < 0x80) :
    ∃ c : Char, encodeChar c = [b0] ∧ c.val.toNat = b0.toNat := by
  obtain ⟨c, hc⟩ := @exists_scalar b0.toNat (by omega)
  exact ⟨c, by rw [encodeChar_one (by omega), hc, UInt8.ofNat_toNat], hc⟩

theorem decode_two (h0 : 0xC2 ≤ b0.toNat) (h0' : b0.toNat ≤ 0xDF) (h1 : isCont b1) :
    ∃ c : Char, encodeChar c = [b0, b1] ∧ 0x80 ≤ c.val.toNat := by
  unfold isCont at h1
  obtain ⟨c, hc⟩ := @exists_scalar ((b0.toNat - 192) * 64 + (b1.toNat - 128)) (by omega)
  refine ⟨c, ?_, by omega⟩
  rw [encodeChar_two (by omega) (by omega), eq_ofNat (b := b0) (by omega),
    eq_ofNat (b := b1) (by omega)]

theorem decode_three (h0 : 0xE0 ≤ b0.toNat) (h0' : b0.toNat ≤ 0xEF) (h1 : isCont b1)
    (hlow : b0.toNat = 0xE0 → 0xA0 ≤ b1.toNat) (hsur : b0.toNat = 0xED → b1.toNat ≤ 0x9F)
    (h2 : isCont b2) : ∃ c : Char, encodeChar c = [b0, b1, b2] ∧ 0x80 ≤ c.val.toNat := by
  unfold isCont at h1 h2
  obtain ⟨c, hc⟩ := @exists_scalar
    ((b0.toNat - 224) * 4096 + (b1.toNat - 128) * 64 + (b2.toNat - 128)) (by omega)
  refine ⟨c, ?_, by omega⟩
  rw [encodeChar_three (by omega) (by omega), eq_ofNat (b := b0) (by omega),
    eq_ofNat (b := b1) (by omega), eq_ofNat (b := b2) (by omega)]

theorem decode_four (h0 : 0xF0 ≤ b0.toNat) (h0' : b0.toNat ≤ 0xF4) (h1 : isCont b1)
    (hlow : b0.toNat = 0xF0 → 0x90 ≤ b1.toNat) (hhigh : b0.toNat = 0xF4 → b1.toNat ≤ 0x8F)
    (h2 : isCont b2) (h3 : isCont b3) :
    ∃ c : Char, encodeChar c = [b0, b1, b2, b3] ∧ 0x80 ≤ c.val.toNat := by
  unfold isCont at h1 h2 h3
  obtain ⟨c, hc⟩ := @exists_scalar ((b0.toNat - 240) * 262144 + (b1.toNat - 128) * 4096 +
    (b2.toNat - 128) * 64 + (b3.toNat - 128)) (by omega)
  refine ⟨c, ?_, by omega⟩
  rw [encodeChar_four (by omega), eq_ofNat (b := b0) (by omega), eq_ofNat (b := b1) (by omega),
    eq_ofNat (b := b2) (by omega), eq_ofNat (b := b3) (by omega)]

end Utf8
