import Tamga.Lib.Octets

/-!
# `Lib.Base64` — the standard alphabet and the canonical text of a byte sequence

Three bytes are four six-bit digits; a last group of one or two bytes is two or three digits whose
unused low bits are zero. `digits` is that text without its padding and `encode` with it. `Spells`
says that a text is one of the two: the texts a strict reader that does not insist on padding has to
accept, and no others.
-/

namespace Base64

/-- The character of a six-bit digit. -/
def digit (n : Nat) : UInt8 :=
  if n < 26 then UInt8.ofNat (0x41 + n)
  else if n < 52 then UInt8.ofNat (0x61 + (n - 26))
  else if n < 62 then UInt8.ofNat (0x30 + (n - 52))
  else if n = 62 then 0x2B
  else 0x2F

/-- The digit a character stands for; `none` outside the alphabet, the padding character included. -/
def value (c : UInt8) : Option Nat :=
  if c = 0x2B then some 62
  else if c = 0x2F then some 63
  else if 0x30 ≤ c ∧ c ≤ 0x39 then some (52 + (c.toNat - 0x30))
  else if 0x41 ≤ c ∧ c ≤ 0x5A then some (c.toNat - 0x41)
  else if 0x61 ≤ c ∧ c ≤ 0x7A then some (26 + (c.toNat - 0x61))
  else none

theorem value_digit {n : Nat} (h : n < 64) : value (digit n) = some n := by
  have all : ∀ n < 64, value (digit n) = some n := by decide
  exact all n h

theorem value_eq_some {c : UInt8} {n : Nat} (h : value c = some n) : n < 64 ∧ c = digit n := by
  have all : ∀ c, ∀ n ∈ value c, n < 64 ∧ c = digit n := forall_byte (by decide +kernel)
  exact all c n h

theorem digit_inj {m n : Nat} (hm : m < 64) (hn : n < 64) : digit m = digit n ↔ m = n := by
  refine ⟨fun h => ?_, fun h => h ▸ rfl⟩
  have := value_digit hm
  rw [h, value_digit hn] at this
  injection this with this
  exact this.symm

/-- The padding character. -/
def pad : UInt8 := 0x3D

theorem value_pad : value pad = none := by decide

/-- The canonical text, without padding. -/
def digits : List UInt8 → List UInt8
  | a :: b :: c :: rest =>
      digit (a.toNat / 4) :: digit (a.toNat % 4 * 16 + b.toNat / 16) ::
        digit (b.toNat % 16 * 4 + c.toNat / 64) :: digit (c.toNat % 64) :: digits rest
  | [a, b] =>
      [digit (a.toNat / 4), digit (a.toNat % 4 * 16 + b.toNat / 16), digit (b.toNat % 16 * 4)]
  | [a] => [digit (a.toNat / 4), digit (a.toNat % 4 * 16)]
  | [] => []

/-- The padding of a text of `n` bytes. -/
def padding (n : Nat) : List UInt8 := List.replicate ((3 - n % 3) % 3) pad

/-- The canonical text, with its padding. -/
def encode (bytes : List UInt8) : List UInt8 := digits bytes ++ padding bytes.length

/-- `text` is the canonical text of `bytes`, padded or not. -/
def Spells (text bytes : List UInt8) : Prop := text = digits bytes ∨ text = encode bytes

instance (text bytes : List UInt8) : Decidable (Spells text bytes) :=
  inferInstanceAs (Decidable (_ ∨ _))

/-- How many digits a byte sequence takes: four per group, and one more than the bytes left over. -/
theorem length_digits : ∀ bytes : List UInt8,
    (digits bytes).length =
      bytes.length / 3 * 4 + if bytes.length % 3 = 0 then 0 else bytes.length % 3 + 1
  | [] => rfl
  | [_] => by simp [digits]
  | [_, _] => by simp [digits]
  | a :: b :: c :: rest => by
    have ih := length_digits rest
    simp only [digits, List.length_cons, ih]
    have hdiv : (rest.length + 1 + 1 + 1) / 3 = rest.length / 3 + 1 := by omega
    have hmod : (rest.length + 1 + 1 + 1) % 3 = rest.length % 3 := by omega
    rw [hdiv, hmod]
    omega

theorem length_digits_mod (bytes : List UInt8) :
    (digits bytes).length % 4 = if bytes.length % 3 = 0 then 0 else bytes.length % 3 + 1 := by
  rw [length_digits]
  split <;> omega

/-- Every character of a canonical text stands for a digit. -/
theorem value_of_mem_digits : ∀ bytes : List UInt8, ∀ c ∈ digits bytes, ∃ s, value c = some s
  | [], _, h => absurd h List.not_mem_nil
  | [a], c, h => by
    have ha := a.toNat_lt
    simp only [digits, List.mem_cons, List.not_mem_nil, or_false] at h
    rcases h with rfl | rfl <;> exact ⟨_, value_digit (by omega)⟩
  | [a, b], c, h => by
    have ha := a.toNat_lt
    have hb := b.toNat_lt
    simp only [digits, List.mem_cons, List.not_mem_nil, or_false] at h
    rcases h with rfl | rfl | rfl <;> exact ⟨_, value_digit (by omega)⟩
  | a :: b :: c :: rest, d, h => by
    have ha := a.toNat_lt
    have hb := b.toNat_lt
    have hc := c.toNat_lt
    simp only [digits, List.mem_cons] at h
    rcases h with rfl | rfl | rfl | rfl | h
    any_goals exact ⟨_, value_digit (by omega)⟩
    exact value_of_mem_digits rest d h

theorem pad_notMem_digits (bytes : List UInt8) : pad ∉ digits bytes := by
  intro h
  obtain ⟨s, hs⟩ := value_of_mem_digits bytes pad h
  rw [value_pad] at hs
  cases hs

/-- A character that is neither a digit nor padding occurs in no canonical text. -/
theorem Spells.notMem {text bytes : List UInt8} {c : UInt8} (h : Spells text bytes)
    (hvalue : value c = none) (hpad : c ≠ pad) : c ∉ text := by
  have hdigits : c ∉ digits bytes := by
    intro hmem
    obtain ⟨s, hs⟩ := value_of_mem_digits bytes c hmem
    rw [hvalue] at hs
    cases hs
  rcases h with rfl | rfl
  · exact hdigits
  · intro hmem
    rcases List.mem_append.mp hmem with hmem | hmem
    · exact hdigits hmem
    · exact hpad (List.eq_of_mem_replicate hmem)

/-! ## Reading a group back -/

section Groups

variable {s₁ s₂ s₃ s₄ : Nat} {bytes rest : List UInt8}

theorem quartet_eq_digits (l₁ : s₁ < 64) (l₂ : s₂ < 64) (l₃ : s₃ < 64) (l₄ : s₄ < 64) :
    digit s₁ :: digit s₂ :: digit s₃ :: digit s₄ :: rest = digits bytes ↔
      ∃ out, rest = digits out ∧
        bytes = UInt8.ofNat (s₁ * 4 + s₂ / 16) :: UInt8.ofNat (s₂ % 16 * 16 + s₃ / 4) ::
          UInt8.ofNat (s₃ % 4 * 64 + s₄) :: out := by
  constructor
  · intro h
    match bytes, h with
    | a :: b :: c :: out, h =>
      have ha := a.toNat_lt
      have hb := b.toNat_lt
      have hc := c.toNat_lt
      simp only [digits, List.cons.injEq] at h
      obtain ⟨h₁, h₂, h₃, h₄, hrest⟩ := h
      rw [digit_inj l₁ (by omega)] at h₁
      rw [digit_inj l₂ (by omega)] at h₂
      rw [digit_inj l₃ (by omega)] at h₃
      rw [digit_inj l₄ (by omega)] at h₄
      refine ⟨out, hrest, ?_⟩
      have e₁ : s₁ * 4 + s₂ / 16 = a.toNat := by omega
      have e₂ : s₂ % 16 * 16 + s₃ / 4 = b.toNat := by omega
      have e₃ : s₃ % 4 * 64 + s₄ = c.toNat := by omega
      rw [e₁, e₂, e₃, UInt8.ofNat_toNat, UInt8.ofNat_toNat, UInt8.ofNat_toNat]
    | [], h | [_], h | [_, _], h => simp [digits] at h
  · rintro ⟨out, rfl, rfl⟩
    rw [digits]
    simp only [UInt8.toNat_ofNat', List.cons.injEq, and_true]
    refine ⟨congrArg digit ?_, congrArg digit ?_, congrArg digit ?_, congrArg digit ?_⟩ <;> omega

theorem triple_eq_digits (l₁ : s₁ < 64) (l₂ : s₂ < 64) (l₃ : s₃ < 64) :
    [digit s₁, digit s₂, digit s₃] = digits bytes ↔
      s₃ % 4 = 0 ∧ bytes = [UInt8.ofNat (s₁ * 4 + s₂ / 16), UInt8.ofNat (s₂ % 16 * 16 + s₃ / 4)] := by
  constructor
  · intro h
    match bytes, h with
    | [a, b], h =>
      have ha := a.toNat_lt
      have hb := b.toNat_lt
      simp only [digits, List.cons.injEq, and_true] at h
      obtain ⟨h₁, h₂, h₃⟩ := h
      rw [digit_inj l₁ (by omega)] at h₁
      rw [digit_inj l₂ (by omega)] at h₂
      rw [digit_inj l₃ (by omega)] at h₃
      have e₁ : s₁ * 4 + s₂ / 16 = a.toNat := by omega
      have e₂ : s₂ % 16 * 16 + s₃ / 4 = b.toNat := by omega
      rw [e₁, e₂, UInt8.ofNat_toNat, UInt8.ofNat_toNat]
      exact ⟨by omega, rfl⟩
    | [], h | [_], h | _ :: _ :: _ :: _, h => simp [digits] at h
  · rintro ⟨h, rfl⟩
    rw [digits]
    simp only [UInt8.toNat_ofNat', List.cons.injEq, and_true]
    refine ⟨congrArg digit ?_, congrArg digit ?_, congrArg digit ?_⟩ <;> omega

theorem pair_eq_digits (l₁ : s₁ < 64) (l₂ : s₂ < 64) :
    [digit s₁, digit s₂] = digits bytes ↔
      s₂ % 16 = 0 ∧ bytes = [UInt8.ofNat (s₁ * 4 + s₂ / 16)] := by
  constructor
  · intro h
    match bytes, h with
    | [a], h =>
      have ha := a.toNat_lt
      simp only [digits, List.cons.injEq, and_true] at h
      obtain ⟨h₁, h₂⟩ := h
      rw [digit_inj l₁ (by omega)] at h₁
      rw [digit_inj l₂ (by omega)] at h₂
      have e₁ : s₁ * 4 + s₂ / 16 = a.toNat := by omega
      rw [e₁, UInt8.ofNat_toNat]
      exact ⟨by omega, rfl⟩
    | [], h | [_, _], h | _ :: _ :: _ :: _, h => simp [digits] at h
  · rintro ⟨h, rfl⟩
    rw [digits]
    simp only [UInt8.toNat_ofNat', List.cons.injEq, and_true]
    refine ⟨congrArg digit ?_, congrArg digit ?_⟩ <;> omega

end Groups

end Base64
