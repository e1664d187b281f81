import Tamga.Lib.Octets

/-!
# `Lib.Ber` — the basic encoding rules of tag, length and contents

The definite forms of a length (`LengthOctets`) and the two's-complement contents of an integer
(`IntegerOctets`) allow several spellings of one value. The distinguished rules keep the shortest, and
`Shortest.eq` is why they are distinguished: at most one spelling of a value is shortest. What a reader
has to check for that is `shortest_length_iff` and `shortest_integer_iff`.
-/

namespace Ber

open Octets

/-- `bytes` spells `a` under `spells`, and nothing shorter does. -/
def Shortest {α : Type} (spells : α → List UInt8 → Prop) (a : α) (bytes : List UInt8) : Prop :=
  spells a bytes ∧ ∀ other, spells a other → bytes.length ≤ other.length

/-- Where one value has one spelling of a length, the shortest is unique. -/
theorem Shortest.eq {α : Type} {spells : α → List UInt8 → Prop}
    (hinj : ∀ a x y, spells a x → spells a y → x.length = y.length → x = y)
    {a : α} {x y : List UInt8} (hx : Shortest spells a x) (hy : Shortest spells a y) : x = y :=
  hinj a x y hx.1 hy.1 (le_antisymm (hx.2 y hy.1) (hy.2 x hx.1))

/-! ## Lengths -/

/-- The definite forms: one octet below 128, or a count of up to 126 octets and a number of so many. -/
inductive LengthOctets (n : Nat) : List UInt8 → Prop where
  | short (h : n < 128) : LengthOctets n [UInt8.ofNat n]
  | long (octets : List UInt8) (hne : octets ≠ []) (hcount : octets.length < 127) (hvalue : be octets = n) :
      LengthOctets n (UInt8.ofNat (128 + octets.length) :: octets)

theorem lengthOctets_inj (n : Nat) (x y : List UInt8) (hx : LengthOctets n x) (hy : LengthOctets n y)
    (hlen : x.length = y.length) : x = y := by
  cases hx with
  | short h =>
    cases hy with
    | short h' => rfl
    | long octets hne hcount hvalue =>
      rw [List.length_singleton, List.length_cons] at hlen
      exact absurd (List.eq_nil_of_length_eq_zero (by omega)) hne
  | long octets hne hcount hvalue =>
    cases hy with
    | short h =>
      rw [List.length_singleton, List.length_cons] at hlen
      exact absurd (List.eq_nil_of_length_eq_zero (by omega)) hne
    | long octets' hne' hcount' hvalue' =>
      have hlen' : octets.length = octets'.length := by simpa using hlen
      rw [be_inj hlen' (hvalue.trans hvalue'.symm)]

/-- A shortest length is below 128 in one octet, or at least 128 and without a leading zero. -/
theorem shortest_length_iff {n : Nat} {bytes : List UInt8} :
    Shortest LengthOctets n bytes ↔ n < 128 ∧ bytes = [UInt8.ofNat n] ∨
      128 ≤ n ∧ ∃ (b : UInt8) (rest : List UInt8), b ≠ 0 ∧ rest.length < 126 ∧ be (b :: rest) = n ∧
        bytes = UInt8.ofNat (128 + (rest.length + 1)) :: b :: rest := by
  constructor
  · rintro ⟨hspells, hleast⟩
    cases hspells with
    | short h => exact Or.inl ⟨h, rfl⟩
    | long octets hne hcount hvalue =>
      have hbig : 128 ≤ n := by
        by_contra hsmall
        have hle := hleast _ (.short (by omega))
        rw [List.length_cons, List.length_singleton] at hle
        exact hne (List.eq_nil_of_length_eq_zero (by omega))
      obtain ⟨b, rest, hb, hbe⟩ := exists_be (by omega : 0 < n)
      have hrest : rest.length < octets.length := length_le_of_be_eq hb (hbe.trans hvalue.symm)
      have hle := hleast _ (.long (b :: rest) (by simp) (by rw [List.length_cons]; omega) hbe)
      simp only [List.length_cons] at hle
      have heq : octets = b :: rest := be_inj (by rw [List.length_cons]; omega) (hvalue.trans hbe.symm)
      subst heq
      exact Or.inr ⟨hbig, b, rest, hb, by rw [List.length_cons] at hcount; omega, hvalue, rfl⟩
  · rintro (⟨hsmall, rfl⟩ | ⟨hbig, b, rest, hb, hcount, hbe, rfl⟩)
    · refine ⟨.short hsmall, ?_⟩
      intro other hother
      cases hother with
      | short _ => exact le_refl _
      | long octets _ _ _ => simp
    · refine ⟨.long (b :: rest) (by simp) (by rw [List.length_cons]; omega) hbe, ?_⟩
      intro other hother
      cases hother with
      | short h => omega
      | long octets _ _ hvalue =>
        have := length_le_of_be_eq hb (hbe.trans hvalue.symm)
        simp only [List.length_cons]
        omega

/-- Lengths of up to 126 octets have a shortest spelling. -/
theorem exists_shortest_length {n : Nat} (hn : n < 256 ^ 126) : ∃ octets, Shortest LengthOctets n octets := by
  by_cases hsmall : n < 128
  · exact ⟨_, shortest_length_iff.2 (Or.inl ⟨hsmall, rfl⟩)⟩
  · obtain ⟨b, rest, hb, hbe⟩ := exists_be (by omega : 0 < n)
    have hcount : rest.length < 126 := by
      have hlow := pow_le_be hb rest
      rw [hbe] at hlow
      exact (Nat.pow_lt_pow_iff_right (by decide : 1 < 256)).mp (lt_of_le_of_lt hlow hn)
    exact ⟨_, shortest_length_iff.2 (Or.inr ⟨by omega, b, rest, hb, hcount, hbe, rfl⟩)⟩

/-! ## Integers -/

/-- The two's-complement value of a byte string, most significant byte first. -/
def signed : List UInt8 → Int
  | [] => 0
  | b :: rest => if b.toNat < 128 then be (b :: rest) else (be (b :: rest) : Int) - 256 ^ (rest.length + 1)

/-- The contents of an integer: at least one byte, in two's complement. -/
def IntegerOctets (z : Int) (bytes : List UInt8) : Prop := bytes ≠ [] ∧ signed bytes = z

/-- A leading byte with its high bit set makes the number negative. -/
theorem signed_neg {b : UInt8} (hb : 128 ≤ b.toNat) (rest : List UInt8) : signed (b :: rest) < 0 := by
  have h : (be (b :: rest) : Int) < 256 ^ (rest.length + 1) := by
    have := be_lt (b :: rest)
    rw [List.length_cons] at this
    exact_mod_cast this
  rw [signed, if_neg (by omega)]
  omega

theorem integerOctets_natCast {n : Nat} {bytes : List UInt8} :
    IntegerOctets n bytes ↔ ∃ (b : UInt8) (rest : List UInt8), bytes = b :: rest ∧ b.toNat < 128 ∧
      be bytes = n := by
  constructor
  · rintro ⟨hne, hvalue⟩
    obtain ⟨b, rest, rfl⟩ := List.exists_cons_of_ne_nil hne
    by_cases hb : b.toNat < 128
    · rw [signed, if_pos hb] at hvalue
      exact ⟨b, rest, rfl, hb, by exact_mod_cast hvalue⟩
    · have := signed_neg (by omega : 128 ≤ b.toNat) rest
      omega
  · rintro ⟨b, rest, rfl, hb, hvalue⟩
    exact ⟨by simp, by rw [signed, if_pos hb, hvalue]⟩

/-- A byte string is at most the leading zero longer than the number it spells needs. -/
theorem shortest_integer_iff {n : Nat} {b : UInt8} {rest : List UInt8} :
    Shortest IntegerOctets n (b :: rest) ↔ b.toNat < 128 ∧ be (b :: rest) = n ∧
      (b = 0 → ∀ c more, rest = c :: more → 128 ≤ c.toNat) := by
  constructor
  · rintro ⟨hspells, hleast⟩
    obtain ⟨_, _, heq, hb, hvalue⟩ := integerOctets_natCast.1 hspells
    obtain ⟨rfl, rfl⟩ := List.cons.inj heq
    refine ⟨hb, hvalue, ?_⟩
    rintro rfl c more rfl
    -- without its high bit, `c` could lead
    by_contra hc
    have hsame : be (c :: more) = n := by
      rw [← hvalue, be_cons 0]
      simp
    have := hleast _ (integerOctets_natCast.2 ⟨c, more, rfl, by omega, hsame⟩)
    simp at this
  · rintro ⟨hb, hvalue, hzero⟩
    refine ⟨integerOctets_natCast.2 ⟨b, rest, rfl, hb, hvalue⟩, ?_⟩
    intro other hother
    obtain ⟨c, more, rfl, hc, hsame⟩ := integerOctets_natCast.1 hother
    rw [List.length_cons, List.length_cons]
    by_cases hb0 : b = 0
    · cases rest with
      | nil => simp
      | cons d tail =>
        have hd : 128 ≤ d.toNat := hzero hb0 d tail rfl
        have hbe : be (d :: tail) = be (c :: more) := by
          rw [hsame, ← hvalue, be_cons b, hb0]
          simp
        -- a spelling as short as the number itself would begin with a set high bit
        by_contra hshort
        rw [List.length_cons] at hshort
        have hle : more.length ≤ tail.length := by omega
        have hlow : 128 * 256 ^ tail.length ≤ be (d :: tail) := by
          rw [be_cons]
          exact le_trans (Nat.mul_le_mul_right _ hd) (Nat.le_add_right _ _)
        have hhigh : be (c :: more) < 128 * 256 ^ more.length := by
          have := be_lt more
          rw [be_cons]
          have := Nat.mul_le_mul_right (256 ^ more.length) (by omega : c.toNat + 1 ≤ 128)
          linarith
        have hmono : 256 ^ more.length ≤ 256 ^ tail.length := Nat.pow_le_pow_right (by decide) hle
        omega
    · have := length_le_of_be_eq hb0 (hvalue.trans hsame.symm)
      rw [List.length_cons] at this
      omega

end Ber
