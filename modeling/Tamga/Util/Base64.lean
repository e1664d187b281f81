import Mathlib.Data.List.DropRight
import Tamga.Mem
import Tamga.Lib.Base64

/-!
# `Util.Base64` — the strict decoder and the encoder (`util/base64.c`)

The decoder shifts six bits at a time into an accumulator and writes a byte whenever eight have
arrived; what is left at the end must be zero bits. `base64Decode_eq_some` says what that amounts
to: the canonical text of the bytes, padded or not, and nothing else.

Both run on the tables of the source, which are `Base64.value` and `Base64.digit` (`base64Reverse_eq`,
`base64Alphabet_eq`). The accumulator is a `uint_fast32_t`, 64 bits wide; bits shifted out at its top
have been written long before.
-/

namespace Tamga

open Alloc Base64

/-- `TAMGA_B64_ALPHABET`. -/
def base64Alphabet : Bytes :=
  ascii "ABCDEFGHIJKLMNOPQRSTUVWXYZabcdefghijklmnopqrstuvwxyz0123456789+/"

/-- `TAMGA_B64_REVERSE`. -/
def base64Reverse : Bytes :=
  [
    0xFF, 0xFF, 0xFF, 0xFF, 0xFF, 0xFF, 0xFF, 0xFF, 0xFF, 0xFF, 0xFF, 0xFF, 0xFF, 0xFF, 0xFF, 0xFF,
    0xFF, 0xFF, 0xFF, 0xFF, 0xFF, 0xFF, 0xFF, 0xFF, 0xFF, 0xFF, 0xFF, 0xFF, 0xFF, 0xFF, 0xFF, 0xFF,
    0xFF, 0xFF, 0xFF, 0xFF, 0xFF, 0xFF, 0xFF, 0xFF, 0xFF, 0xFF, 0xFF, 62, 0xFF, 0xFF, 0xFF, 63,
    52, 53, 54, 55, 56, 57, 58, 59, 60, 61, 0xFF, 0xFF, 0xFF, 0xFF, 0xFF, 0xFF,
    0xFF, 0, 1, 2, 3, 4, 5, 6, 7, 8, 9, 10, 11, 12, 13, 14,
    15, 16, 17, 18, 19, 20, 21, 22, 23, 24, 25, 0xFF, 0xFF, 0xFF, 0xFF, 0xFF,
    0xFF, 26, 27, 28, 29, 30, 31, 32, 33, 34, 35, 36, 37, 38, 39, 40,
    41, 42, 43, 44, 45, 46, 47, 48, 49, 50, 51, 0xFF, 0xFF, 0xFF, 0xFF, 0xFF,
    0xFF, 0xFF, 0xFF, 0xFF, 0xFF, 0xFF, 0xFF, 0xFF, 0xFF, 0xFF, 0xFF, 0xFF, 0xFF, 0xFF, 0xFF, 0xFF,
    0xFF, 0xFF, 0xFF, 0xFF, 0xFF, 0xFF, 0xFF, 0xFF, 0xFF, 0xFF, 0xFF, 0xFF, 0xFF, 0xFF, 0xFF, 0xFF,
    0xFF, 0xFF, 0xFF, 0xFF, 0xFF, 0xFF, 0xFF, 0xFF, 0xFF, 0xFF, 0xFF, 0xFF, 0xFF, 0xFF, 0xFF, 0xFF,
    0xFF, 0xFF, 0xFF, 0xFF, 0xFF, 0xFF, 0xFF, 0xFF, 0xFF, 0xFF, 0xFF, 0xFF, 0xFF, 0xFF, 0xFF, 0xFF,
    0xFF, 0xFF, 0xFF, 0xFF, 0xFF, 0xFF, 0xFF, 0xFF, 0xFF, 0xFF, 0xFF, 0xFF, 0xFF, 0xFF, 0xFF, 0xFF,
    0xFF, 0xFF, 0xFF, 0xFF, 0xFF, 0xFF, 0xFF, 0xFF, 0xFF, 0xFF, 0xFF, 0xFF, 0xFF, 0xFF, 0xFF, 0xFF,
    0xFF, 0xFF, 0xFF, 0xFF, 0xFF, 0xFF, 0xFF, 0xFF, 0xFF, 0xFF, 0xFF, 0xFF, 0xFF, 0xFF, 0xFF, 0xFF,
    0xFF, 0xFF, 0xFF, 0xFF, 0xFF, 0xFF, 0xFF, 0xFF, 0xFF, 0xFF, 0xFF, 0xFF, 0xFF, 0xFF, 0xFF, 0xFF]

/-- The loop over the characters before the padding: the bytes it stores in `out` and, if it gets to
    the end, the accumulator with the number of bits in it that are not stored yet. -/
def base64Loop : Bytes → (accum accumBits : Nat) → Bytes × Option (Nat × Nat)
  | [], accum, accumBits => ([], some (accum, accumBits))
  | c :: rest, accum, accumBits =>
      let sextet := base64Reverse.getD c.toNat 0xFF
      if sextet = 0xFF then ([], none)
      else
        let accum := (accum <<< 6 ||| sextet.toNat) % 2 ^ 64
        if 8 ≤ accumBits + 6 then
          let accumBits := accumBits + 6 - 8
          let stored := base64Loop rest accum accumBits
          (UInt8.ofNat (accum >>> accumBits &&& 0xFF) :: stored.1, stored.2)
        else base64Loop rest accum (accumBits + 6)

/-- The loop from a whole number of bytes, and the check that no bit is left over. -/
def base64Body (body : Bytes) (accum : Nat) : Bytes × Bool :=
  match base64Loop body accum 0 with
  | (stored, none) => (stored, false)
  | (stored, some (accum, accumBits)) =>
      (stored, !decide (0 < accumBits ∧ accum &&& (1 <<< accumBits - 1) ≠ 0))

/-- How many of the last two characters are padding. -/
def base64Pad (input : Bytes) : Nat := ((input.reverse.take 2).takeWhile (· = pad)).length

/-- The checks on the padding, and the loop. -/
def base64Checked (body : Bytes) (padCount : Nat) : Bytes × Bool :=
  -- three or more padding characters
  if body.getLast? = some pad then ([], false)
  else if 0 < padCount ∧ (body.length + padCount) % 4 ≠ 0 then ([], false)
  else if body.length % 4 = 1 then ([], false)
  else if padCount = 1 ∧ body.length % 4 ≠ 3 then ([], false)
  else if padCount = 2 ∧ body.length % 4 ≠ 2 then ([], false)
  else base64Body body 0

/-- `tamga_base64_decode`: what it has stored in `out` when it returns, and what it returns. -/
def base64DecodeInto (input : Bytes) : Bytes × Bool :=
  if input.length = 0 then ([], true)
  else base64Checked (input.take (input.length - base64Pad input)) (base64Pad input)

/-- What a caller makes of it: the bytes, if the call returned true. -/
def base64Taken (out : Bytes × Bool) : Option Bytes := if out.2 then some out.1 else none

def base64Decode (input : Bytes) : Option Bytes := base64Taken (base64DecodeInto input)

/-- `TamgaBase64Failure`. -/
inductive Base64Failure : Type where
  | malformed
  | outOfMemory
  deriving DecidableEq, Repr

/-- `tamga_base64_decoded_cap`. -/
def base64DecodedCap (encodedLen : Nat) : Option Nat :=
  match checkedAdd encodedLen 3 with
  | none => none
  | some groups => checkedMul (groups / 4) 3

/-- `tamga_base64_decode_alloc_why`: a text whose size overflows is malformed, nothing is asked. -/
def base64DecodeAllocWhy (input : Bytes) : AllocE Base64Failure Bytes :=
  match base64DecodedCap input.length with
  | none => throw .malformed
  | some _ => do
      if ← malloc then
        match base64Decode input with
        | none => throw .malformed
        | some bytes => return bytes
      else throw .outOfMemory

/-- Three bytes as one number, most significant first; missing ones are zero. -/
def base64Triple (a b c : UInt8) : Nat := a.toNat <<< 16 ||| b.toNat <<< 8 ||| c.toNat

/-- The characters of a triple: `TAMGA_B64_ALPHABET` at its four groups of six bits. -/
def base64Quartet (triple : Nat) : Bytes :=
  [base64Alphabet.getD (triple >>> 18 &&& 0x3F) 0, base64Alphabet.getD (triple >>> 12 &&& 0x3F) 0,
    base64Alphabet.getD (triple >>> 6 &&& 0x3F) 0, base64Alphabet.getD (triple &&& 0x3F) 0]

/-- The text that `tamga_base64_encode` writes. -/
def base64Encode : Bytes → Bytes
  | a :: b :: c :: rest => base64Quartet (base64Triple a b c) ++ base64Encode rest
  | [a, b] => (base64Quartet (base64Triple a b 0)).take 3 ++ [pad]
  | [a] => (base64Quartet (base64Triple a 0 0)).take 2 ++ [pad, pad]
  | [] => []

/-- `tamga_base64_encode`: what it has stored in `out`, the terminator included. -/
def base64EncodeInto (bytes : Bytes) : Bytes :=
  if bytes.length = 0 then [0] else base64Encode bytes ++ [0]

/-- `tamga_base64_encoded_len`. -/
def base64EncodedLen (decodedLen : Nat) : Option Nat :=
  match checkedAdd decodedLen 2 with
  | none => none
  | some groups => checkedMul (groups / 3) 4

/-- `tamga_base64_encode_alloc`. -/
def base64EncodeAlloc (bytes : Bytes) : Alloc (Option Bytes) :=
  match base64EncodedLen bytes.length with
  | none => pure none
  | some encLen =>
      match checkedAdd encLen 1 with
      | none => pure none
      | some _ => do
          if ← malloc then return some (cstr (base64EncodeInto bytes)) else return none

/-! ## The tables -/

theorem base64Reverse_eq : ∀ c : UInt8,
    base64Reverse.getD c.toNat 0xFF = (value c).elim 0xFF UInt8.ofNat :=
  forall_byte (by decide +kernel)

theorem base64Alphabet_eq (n : Nat) : base64Alphabet.getD (n &&& 0x3F) 0 = digit (n % 64) := by
  have all : ∀ k < 64, base64Alphabet.getD k 0 = digit k := by decide +kernel
  rw [show n &&& 0x3F = n % 64 from Nat.and_two_pow_sub_one_eq_mod n 6]
  exact all _ (Nat.mod_lt n (by decide))

/-! ## Groups of four characters -/

/-- One step of the accumulator, as arithmetic. -/
theorem shift_or {accum sextet : Nat} (h : sextet < 64) :
    accum <<< 6 ||| sextet = accum * 64 + sextet := by
  rw [← Nat.shiftLeft_add_eq_or_of_lt (show sextet < 2 ^ 6 from h), Nat.shiftLeft_eq]

/-- The byte cut out of the accumulator, as arithmetic. -/
theorem ofNat_shift_and (accum bits : Nat) :
    UInt8.ofNat (accum >>> bits &&& 0xFF) = UInt8.ofNat (accum / 2 ^ bits % 256) := by
  rw [show (0xFF : Nat) = 2 ^ 8 - 1 from rfl, Nat.and_two_pow_sub_one_eq_mod,
    Nat.shiftRight_eq_div_pow]

theorem base64Loop_of_none {c : UInt8} {rest : Bytes} {accum bits : Nat} (h : value c = none) :
    base64Loop (c :: rest) accum bits = ([], none) := by
  rw [base64Loop, base64Reverse_eq, h]
  rfl

theorem base64Loop_cons {c : UInt8} {rest : Bytes} {accum bits s : Nat} (h : value c = some s) :
    base64Loop (c :: rest) accum bits =
      if 8 ≤ bits + 6 then
        (UInt8.ofNat ((accum * 64 + s) % 2 ^ 64 / 2 ^ (bits + 6 - 8) % 256) ::
            (base64Loop rest ((accum * 64 + s) % 2 ^ 64) (bits + 6 - 8)).1,
          (base64Loop rest ((accum * 64 + s) % 2 ^ 64) (bits + 6 - 8)).2)
      else base64Loop rest ((accum * 64 + s) % 2 ^ 64) (bits + 6) := by
  have hs := (value_eq_some h).1
  have htoNat : (UInt8.ofNat s).toNat = s := by
    rw [UInt8.toNat_ofNat', Nat.mod_eq_of_lt (by omega)]
  have hne : UInt8.ofNat s ≠ 0xFF := by
    intro heq
    rw [heq] at htoNat
    change 255 = s at htoNat
    omega
  rw [base64Loop, base64Reverse_eq, h]
  simp only [Option.elim_some, if_neg hne, htoNat, shift_or hs, ofNat_shift_and]

/-- Four characters put three bytes in front, whatever the accumulator held. -/
theorem base64Body_quartet {c₁ c₂ c₃ c₄ : UInt8} {s₁ s₂ s₃ s₄ : Nat} (rest : Bytes) (accum : Nat)
    (h₁ : value c₁ = some s₁) (h₂ : value c₂ = some s₂) (h₃ : value c₃ = some s₃)
    (h₄ : value c₄ = some s₄) :
    ∃ accum', base64Body (c₁ :: c₂ :: c₃ :: c₄ :: rest) accum =
      (UInt8.ofNat (s₁ * 4 + s₂ / 16) :: UInt8.ofNat (s₂ % 16 * 16 + s₃ / 4) ::
        UInt8.ofNat (s₃ % 4 * 64 + s₄) :: (base64Body rest accum').1, (base64Body rest accum').2) := by
  have l₁ := (value_eq_some h₁).1
  have l₂ := (value_eq_some h₂).1
  have l₃ := (value_eq_some h₃).1
  have l₄ := (value_eq_some h₄).1
  unfold base64Body
  rw [base64Loop_cons h₁, if_neg (by decide), base64Loop_cons h₂, if_pos (by decide),
    base64Loop_cons h₃, if_pos (by decide), base64Loop_cons h₄, if_pos (by decide)]
  refine ⟨((((accum * 64 + s₁) % 2 ^ 64 * 64 + s₂) % 2 ^ 64 * 64 + s₃) % 2 ^ 64 * 64 + s₄) % 2 ^ 64,
    ?_⟩
  have b₁ : ((accum * 64 + s₁) % 2 ^ 64 * 64 + s₂) % 2 ^ 64 / 2 ^ 4 % 256 = s₁ * 4 + s₂ / 16 := by
    omega
  have b₂ : (((accum * 64 + s₁) % 2 ^ 64 * 64 + s₂) % 2 ^ 64 * 64 + s₃) % 2 ^ 64 / 2 ^ 2 % 256 =
      s₂ % 16 * 16 + s₃ / 4 := by
    omega
  have b₃ : ((((accum * 64 + s₁) % 2 ^ 64 * 64 + s₂) % 2 ^ 64 * 64 + s₃) % 2 ^ 64 * 64 + s₄) %
      2 ^ 64 / 2 ^ 0 % 256 = s₃ % 4 * 64 + s₄ := by
    omega
  rw [b₁, b₂, b₃]
  simp only [Nat.reduceAdd, Nat.reduceSub]
  rcases base64Loop rest _ 0 with ⟨stored, _ | _⟩ <;> rfl

/-- Two characters at the end are one byte; their last four bits are zero. -/
theorem base64Body_pair {c₁ c₂ : UInt8} {s₁ s₂ : Nat} (accum : Nat)
    (h₁ : value c₁ = some s₁) (h₂ : value c₂ = some s₂) :
    base64Taken (base64Body [c₁, c₂] accum) =
      if s₂ % 16 = 0 then some [UInt8.ofNat (s₁ * 4 + s₂ / 16)] else none := by
  have l₁ := (value_eq_some h₁).1
  have l₂ := (value_eq_some h₂).1
  unfold base64Body
  rw [base64Loop_cons h₁, if_neg (by decide), base64Loop_cons h₂, if_pos (by decide)]
  have b₁ : ((accum * 64 + s₁) % 2 ^ 64 * 64 + s₂) % 2 ^ 64 / 2 ^ 4 % 256 = s₁ * 4 + s₂ / 16 := by
    omega
  have left : ((accum * 64 + s₁) % 2 ^ 64 * 64 + s₂) % 2 ^ 64 &&& (1 <<< 4 - 1) = s₂ % 16 := by
    rw [show (1 <<< 4 - 1 : Nat) = 2 ^ 4 - 1 from rfl, Nat.and_two_pow_sub_one_eq_mod]
    omega
  simp only [base64Loop, b₁, left]
  by_cases h : s₂ % 16 = 0 <;> simp [base64Taken, h]

/-- Three characters at the end are two bytes; their last two bits are zero. -/
theorem base64Body_triple {c₁ c₂ c₃ : UInt8} {s₁ s₂ s₃ : Nat} (accum : Nat)
    (h₁ : value c₁ = some s₁) (h₂ : value c₂ = some s₂) (h₃ : value c₃ = some s₃) :
    base64Taken (base64Body [c₁, c₂, c₃] accum) =
      if s₃ % 4 = 0 then
        some [UInt8.ofNat (s₁ * 4 + s₂ / 16), UInt8.ofNat (s₂ % 16 * 16 + s₃ / 4)]
      else none := by
  have l₁ := (value_eq_some h₁).1
  have l₂ := (value_eq_some h₂).1
  have l₃ := (value_eq_some h₃).1
  unfold base64Body
  rw [base64Loop_cons h₁, if_neg (by decide), base64Loop_cons h₂, if_pos (by decide),
    base64Loop_cons h₃, if_pos (by decide)]
  have b₁ : ((accum * 64 + s₁) % 2 ^ 64 * 64 + s₂) % 2 ^ 64 / 2 ^ 4 % 256 = s₁ * 4 + s₂ / 16 := by
    omega
  have b₂ : (((accum * 64 + s₁) % 2 ^ 64 * 64 + s₂) % 2 ^ 64 * 64 + s₃) % 2 ^ 64 / 2 ^ 2 % 256 =
      s₂ % 16 * 16 + s₃ / 4 := by
    omega
  have left : (((accum * 64 + s₁) % 2 ^ 64 * 64 + s₂) % 2 ^ 64 * 64 + s₃) % 2 ^ 64 &&&
      (1 <<< 2 - 1) = s₃ % 4 := by
    rw [show (1 <<< 2 - 1 : Nat) = 2 ^ 2 - 1 from rfl, Nat.and_two_pow_sub_one_eq_mod]
    omega
  simp only [base64Loop, b₁, b₂, left]
  by_cases h : s₃ % 4 = 0 <;> simp [base64Taken, h]

/-! ## The whole text -/

/-- A loop that gets to the end has seen only characters of the alphabet. -/
theorem base64Loop_value {body : Bytes} : ∀ {accum bits : Nat} {r : Nat × Nat},
    (base64Loop body accum bits).2 = some r → ∀ c ∈ body, ∃ s, value c = some s := by
  induction body with
  | nil => intro _ _ _ _ c hc; exact absurd hc List.not_mem_nil
  | cons d rest ih =>
    intro accum bits r h c hc
    cases hd : value d with
    | none =>
      rw [base64Loop_of_none hd] at h
      cases h
    | some s =>
      rcases List.mem_cons.mp hc with rfl | hc
      · exact ⟨s, hd⟩
      rw [base64Loop_cons hd] at h
      by_cases hbits : 8 ≤ bits + 6
      · rw [if_pos hbits] at h
        exact ih h c hc
      · rw [if_neg hbits] at h
        exact ih h c hc

variable {body bytes : Bytes}

theorem base64Body_value {accum : Nat} (h : base64Taken (base64Body body accum) = some bytes) :
    ∀ c ∈ body, ∃ s, value c = some s := by
  unfold base64Body at h
  rcases hl : base64Loop body accum 0 with ⟨stored, _ | r⟩
  · rw [hl] at h
    cases h
  · exact base64Loop_value (congrArg Prod.snd hl)

theorem base64Body_of_values : ∀ (body : Bytes) (accum : Nat) (bytes : Bytes),
    (∀ c ∈ body, ∃ s, value c = some s) → body.length % 4 ≠ 1 →
      (base64Taken (base64Body body accum) = some bytes ↔ body = digits bytes)
  | [], accum, bytes, _, _ => by
    rw [show base64Taken (base64Body [] accum) = some [] from rfl]
    constructor
    · rintro ⟨⟩; rfl
    · intro h
      match bytes, h with
      | [], _ => rfl
      | [_], h | [_, _], h | _ :: _ :: _ :: _, h => simp [digits] at h
  | [_], _, _, _, h => absurd rfl h
  | [c₁, c₂], accum, bytes, hv, _ => by
    obtain ⟨s₁, h₁⟩ := hv c₁ (by simp)
    obtain ⟨s₂, h₂⟩ := hv c₂ (by simp)
    obtain ⟨l₁, rfl⟩ := value_eq_some h₁
    obtain ⟨l₂, rfl⟩ := value_eq_some h₂
    rw [base64Body_pair accum h₁ h₂, pair_eq_digits l₁ l₂,
      Option.ite_none_right_eq_some, Option.some.injEq, @eq_comm _ bytes]
  | [c₁, c₂, c₃], accum, bytes, hv, _ => by
    obtain ⟨s₁, h₁⟩ := hv c₁ (by simp)
    obtain ⟨s₂, h₂⟩ := hv c₂ (by simp)
    obtain ⟨s₃, h₃⟩ := hv c₃ (by simp)
    obtain ⟨l₁, rfl⟩ := value_eq_some h₁
    obtain ⟨l₂, rfl⟩ := value_eq_some h₂
    obtain ⟨l₃, rfl⟩ := value_eq_some h₃
    rw [base64Body_triple accum h₁ h₂ h₃, triple_eq_digits l₁ l₂ l₃,
      Option.ite_none_right_eq_some, Option.some.injEq, @eq_comm _ bytes]
  | c₁ :: c₂ :: c₃ :: c₄ :: rest, accum, bytes, hv, hlen => by
    obtain ⟨s₁, h₁⟩ := hv c₁ (by simp)
    obtain ⟨s₂, h₂⟩ := hv c₂ (by simp)
    obtain ⟨s₃, h₃⟩ := hv c₃ (by simp)
    obtain ⟨s₄, h₄⟩ := hv c₄ (by simp)
    obtain ⟨l₁, rfl⟩ := value_eq_some h₁
    obtain ⟨l₂, rfl⟩ := value_eq_some h₂
    obtain ⟨l₃, rfl⟩ := value_eq_some h₃
    obtain ⟨l₄, rfl⟩ := value_eq_some h₄
    obtain ⟨accum', h⟩ := base64Body_quartet rest accum h₁ h₂ h₃ h₄
    have htaken : ∀ (x y z : UInt8) (out : Bytes × Bool),
        base64Taken (x :: y :: z :: out.1, out.2) = (base64Taken out).map (x :: y :: z :: ·) := by
      rintro x y z ⟨out, _ | _⟩ <;> rfl
    rw [h, htaken, quartet_eq_digits l₁ l₂ l₃ l₄, Option.map_eq_some_iff]
    have hrest : rest.length % 4 ≠ 1 := by
      simp only [List.length_cons] at hlen
      omega
    have ih := fun out => base64Body_of_values rest accum' out
      (fun c hc => hv c (by simp [hc])) hrest
    simp only [ih, eq_comm]

/-- **The loop reads canonical digits**, and only those. -/
theorem base64Body_eq_some {accum : Nat} (hlen : body.length % 4 ≠ 1) :
    base64Taken (base64Body body accum) = some bytes ↔ body = digits bytes := by
  constructor
  · intro h
    exact (base64Body_of_values body accum bytes (base64Body_value h) hlen).mp h
  · intro h
    have hv : ∀ c ∈ body, ∃ s, value c = some s := by rw [h]; exact value_of_mem_digits bytes
    exact (base64Body_of_values body accum bytes hv hlen).mpr h

/-- The padding is split off the end. -/
theorem eq_append_base64Pad (input : Bytes) :
    input.take (input.length - base64Pad input) ++ List.replicate (base64Pad input) pad = input ∧
      base64Pad input ≤ 2 := by
  have hprefix : (input.reverse.take 2).takeWhile (· = pad) <+: input.reverse :=
    (List.takeWhile_prefix _).trans (List.take_prefix _ _)
  have hall : (input.reverse.take 2).takeWhile (· = pad) = List.replicate (base64Pad input) pad := by
    refine List.eq_replicate_iff.mpr ⟨rfl, fun c hc => ?_⟩
    simpa using List.mem_takeWhile_imp hc
  constructor
  · have hsuffix := List.reverse_suffix.mpr hprefix
    rw [hall, List.reverse_reverse, List.reverse_replicate] at hsuffix
    have h := List.suffix_iff_eq_append.mp hsuffix
    rwa [List.length_replicate] at h
  · refine le_trans (List.takeWhile_sublist _).length_le ?_
    rw [List.length_take]
    exact min_le_left _ _

theorem base64Pad_append {body : Bytes} {n : Nat} (hn : n ≤ 2) (hbody : pad ∉ body) :
    base64Pad (body ++ List.replicate n pad) = n := by
  unfold base64Pad
  rw [List.reverse_append, List.reverse_replicate, List.take_append, List.take_replicate,
    List.takeWhile_append_of_pos (by
      intro c hc
      exact decide_eq_true (List.eq_of_mem_replicate hc))]
  have hnone : (List.take (2 - (List.replicate n pad).length) body.reverse).takeWhile (· = pad) =
      [] := by
    cases h : (List.take (2 - (List.replicate n pad).length) body.reverse) with
    | nil => rfl
    | cons c rest =>
      have hc : c ∈ body := by
        have : c ∈ List.take (2 - (List.replicate n pad).length) body.reverse := by rw [h]; simp
        exact List.mem_reverse.mp (List.mem_of_mem_take this)
      rw [List.takeWhile_cons_of_neg]
      rintro heq
      rw [of_decide_eq_true heq] at hc
      exact hbody hc
  rw [hnone, List.append_nil, List.length_replicate, min_eq_right hn]

theorem base64Checked_eq_some {n : Nat} (hn : n ≤ 2) :
    base64Taken (base64Checked body n) = some bytes ↔
      body = digits bytes ∧ (n = 0 ∨ n = (3 - bytes.length % 3) % 3) := by
  have hmod := length_digits_mod bytes
  have hrem : bytes.length % 3 < 3 := Nat.mod_lt _ (by decide)
  have hrefused : base64Taken ([], false) = none := rfl
  simp only [base64Checked, apply_ite base64Taken, hrefused]
  constructor
  · intro h
    simp only [Option.ite_none_left_eq_some] at h
    obtain ⟨-, -, hone, h₁, h₂, hbody⟩ := h
    have hbody := (base64Body_eq_some hone).mp hbody
    rw [hbody] at hone h₁ h₂
    refine ⟨hbody, ?_⟩
    split at hmod <;> omega
  · rintro ⟨rfl, hpad⟩
    have hlast : (digits bytes).getLast? ≠ some pad :=
      fun h => pad_notMem_digits bytes (List.mem_of_getLast? h)
    rw [if_neg hlast, if_neg (by split at hmod <;> omega), if_neg (by split at hmod <;> omega),
      if_neg (by split at hmod <;> omega), if_neg (by split at hmod <;> omega)]
    exact (base64Body_eq_some (by split at hmod <;> omega)).mpr rfl

/-- **`tamga_base64_decode` accepts the canonical texts**: the unpadded and the padded one of each
    byte sequence, and no other. -/
theorem base64Decode_eq_some {input bytes : Bytes} :
    base64Decode input = some bytes ↔ Spells input bytes := by
  obtain ⟨hsplit, hle⟩ := eq_append_base64Pad input
  -- an empty input is its own empty body
  have hempty : base64Decode input = base64Taken
      (base64Checked (input.take (input.length - base64Pad input)) (base64Pad input)) := by
    unfold base64Decode base64DecodeInto
    by_cases hnil : input.length = 0
    · rw [if_pos hnil, List.length_eq_zero_iff.mp hnil]
      rfl
    · rw [if_neg hnil]
  rw [hempty, base64Checked_eq_some hle]
  constructor
  · rintro ⟨hbody, hpad⟩
    rw [hbody] at hsplit
    rcases hpad with h0 | hpad
    · rw [h0] at hsplit
      exact Or.inl (by rw [← hsplit]; simp)
    · rw [hpad] at hsplit
      exact Or.inr hsplit.symm
  · have split : ∀ n ≤ 2, input = digits bytes ++ List.replicate n pad →
        input.take (input.length - base64Pad input) = digits bytes ∧ base64Pad input = n := by
      rintro n hn rfl
      rw [base64Pad_append hn (pad_notMem_digits bytes)]
      simp
    rintro (h | h)
    · obtain ⟨hbody, hpad⟩ := split 0 (by decide) (by simpa using h)
      exact ⟨hbody, Or.inl hpad⟩
    · obtain ⟨hbody, hpad⟩ := split _ (by omega) h
      exact ⟨hbody, Or.inr hpad⟩

/-! ## The allocating decoder -/

theorem base64DecodedCap_isSome {n : Nat} (h : n ≤ maxReasonableLen) :
    (base64DecodedCap n).isSome := by
  have hmax : maxReasonableLen + 3 ≤ sizeMax := by decide
  unfold base64DecodedCap
  rw [checkedAdd_of_le (by omega)]
  simp only
  rw [checkedMul_of_le (by omega)]
  rfl

/-- The text decodes, or it is malformed, or the one request was refused. -/
theorem base64DecodeAllocWhy_can {F : Prop} {input : Bytes} {r : Except Base64Failure Bytes}
    (hlen : input.length ≤ maxReasonableLen) (h : (base64DecodeAllocWhy input).Can F r) :
    r = (base64Decode input).elim (.error .malformed) .ok ∨ F ∧ r = .error .outOfMemory := by
  unfold base64DecodeAllocWhy at h
  obtain ⟨cap, hcap⟩ := Option.isSome_iff_exists.mp (base64DecodedCap_isSome hlen)
  rw [hcap] at h
  obtain ⟨b, hb, h⟩ := AllocE.can_bind_lift.1 h
  rcases can_request.1 hb with rfl | ⟨hF, rfl⟩
  · left
    cases hd : base64Decode input with
    | none => rw [hd] at h; exact (AllocE.can_throw.1 h).symm
    | some bytes => rw [hd] at h; exact (AllocE.can_pure.1 h).symm
  · exact Or.inr ⟨hF, (AllocE.can_throw.1 h).symm⟩

theorem base64DecodeAllocWhy_sound (input : Bytes) :
    (base64DecodeAllocWhy input).run.Sound (· = .error .outOfMemory) := by
  unfold base64DecodeAllocWhy
  split
  · exact Sound.pure _
  · refine Sound.of_can (v := (base64Decode input).elim (.error .malformed) .ok) fun F r h => ?_
    obtain ⟨b, hb, h⟩ := AllocE.can_bind_lift.1 h
    rcases can_request.1 hb with rfl | ⟨hF, rfl⟩
    · left
      cases hd : base64Decode input with
      | none => rw [hd] at h; exact (AllocE.can_throw.1 h).symm
      | some bytes => rw [hd] at h; exact (AllocE.can_pure.1 h).symm
    · exact Or.inr ⟨hF, (AllocE.can_throw.1 h).symm⟩

theorem base64DecodeAllocWhy_ne_outOfMemory (input : Bytes) :
    (base64DecodeAllocWhy input).ok ≠ .error .outOfMemory := by
  unfold base64DecodeAllocWhy
  cases base64DecodedCap input.length with
  | none => exact nofun
  | some cap =>
    dsimp only
    cases base64Decode input with
    | none => exact nofun
    | some bytes => exact nofun

/-! ## The encoder -/

/-- The four digits of a triple, by arithmetic. -/
theorem base64Quartet_eq (a b c : UInt8) :
    base64Quartet (base64Triple a b c) =
      [digit (a.toNat / 4), digit (a.toNat % 4 * 16 + b.toNat / 16),
        digit (b.toNat % 16 * 4 + c.toNat / 64), digit (c.toNat % 64)] := by
  have ha := a.toNat_lt
  have hb := b.toNat_lt
  have hc := c.toNat_lt
  have htriple : base64Triple a b c = a.toNat * 65536 + b.toNat * 256 + c.toNat := by
    unfold base64Triple
    rw [Nat.or_assoc, ← Nat.shiftLeft_add_eq_or_of_lt hc, Nat.shiftLeft_eq b.toNat,
      ← Nat.shiftLeft_add_eq_or_of_lt (show b.toNat * 2 ^ 8 + c.toNat < 2 ^ 16 by omega),
      Nat.shiftLeft_eq]
    omega
  unfold base64Quartet
  simp only [base64Alphabet_eq, htriple, Nat.shiftRight_eq_div_pow]
  have h₁ : (a.toNat * 65536 + b.toNat * 256 + c.toNat) / 2 ^ 18 % 64 = a.toNat / 4 := by omega
  have h₂ : (a.toNat * 65536 + b.toNat * 256 + c.toNat) / 2 ^ 12 % 64 =
      a.toNat % 4 * 16 + b.toNat / 16 := by omega
  have h₃ : (a.toNat * 65536 + b.toNat * 256 + c.toNat) / 2 ^ 6 % 64 =
      b.toNat % 16 * 4 + c.toNat / 64 := by omega
  have h₄ : (a.toNat * 65536 + b.toNat * 256 + c.toNat) % 64 = c.toNat % 64 := by omega
  rw [h₁, h₂, h₃, h₄]

/-- **Encoding.** The canonical text, with its padding. -/
theorem base64Encode_eq : ∀ bytes : Bytes, base64Encode bytes = encode bytes
  | [] => rfl
  | [a] => by
    have h := base64Quartet_eq a 0 0
    simp only [base64Encode, h, encode, digits, padding]
    rfl
  | [a, b] => by
    have h := base64Quartet_eq a b 0
    simp only [base64Encode, h, encode, digits, padding]
    rfl
  | a :: b :: c :: rest => by
    have hpad : padding (a :: b :: c :: rest).length = padding rest.length := by
      unfold padding
      rw [List.length_cons, List.length_cons, List.length_cons]
      congr 1
      omega
    rw [base64Encode, base64Quartet_eq, base64Encode_eq rest, encode, encode, hpad]
    rfl

/-- **The terminator** stands behind the text, which has none inside. -/
theorem base64EncodeInto_eq (bytes : Bytes) : base64EncodeInto bytes = encode bytes ++ [0] := by
  cases bytes with
  | nil => rfl
  | cons a rest => rw [← base64Encode_eq]; rfl

theorem nulFree_encode (bytes : Bytes) : NulFree (encode bytes) := by
  intro hmem
  rcases List.mem_append.mp hmem with hmem | hmem
  · obtain ⟨s, hs⟩ := value_of_mem_digits bytes 0 hmem
    cases hs
  · cases List.eq_of_mem_replicate hmem

theorem cstr_base64EncodeInto (bytes : Bytes) : cstr (base64EncodeInto bytes) = encode bytes := by
  have htext : ∀ c ∈ encode bytes, (c != 0) = true := by
    intro c hc
    exact bne_iff_ne.mpr fun h => nulFree_encode bytes (h ▸ hc)
  rw [base64EncodeInto_eq, cstr, List.takeWhile_append_of_pos htext]
  exact List.append_nil _

/-- The text, or nothing: its size overflows, or a request is refused. -/
theorem base64EncodeAlloc_can {F : Prop} {bytes : Bytes} {r : Option Bytes}
    (h : (base64EncodeAlloc bytes).Can F r) : r = some (encode bytes) ∨ r = none := by
  unfold base64EncodeAlloc at h
  split at h
  · exact Or.inr (can_pure.1 h).symm
  split at h
  · exact Or.inr (can_pure.1 h).symm
  · rcases malloc_can h with h | ⟨-, h⟩
    · exact Or.inl (by rw [← can_pure.1 h, cstr_base64EncodeInto])
    · exact Or.inr (can_pure.1 h).symm

theorem base64EncodeAlloc_sound (bytes : Bytes) : (base64EncodeAlloc bytes).Sound (· = none) := by
  unfold base64EncodeAlloc
  split
  · exact Sound.pure none
  split
  · exact Sound.pure none
  · exact Sound.of_can fun F r h => (malloc_can h).imp (fun h => (can_pure.1 h).symm)
      fun ⟨hF, h⟩ => ⟨hF, (can_pure.1 h).symm⟩

/-! ## One text for each byte sequence, up to padding -/

/-- Every stored byte has used up eight of the bits that came in. -/
theorem length_base64Loop (body : Bytes) : ∀ accum bits : Nat,
    8 * (base64Loop body accum bits).1.length ≤ bits + 6 * body.length := by
  induction body with
  | nil => intro accum bits; simp [base64Loop]
  | cons c rest ih =>
    intro accum bits
    cases hc : value c with
    | none => simp [base64Loop_of_none hc]
    | some s =>
      rw [base64Loop_cons hc]
      split
      · have := ih ((accum * 64 + s) % 2 ^ 64) (bits + 6 - 8)
        simp only [List.length_cons]
        omega
      · have := ih ((accum * 64 + s) % 2 ^ 64) (bits + 6)
        simp only [List.length_cons]
        omega

theorem base64Body_fst (body : Bytes) (accum : Nat) :
    (base64Body body accum).1 = (base64Loop body accum 0).1 := by
  unfold base64Body
  rcases base64Loop body accum 0 with ⟨stored, _ | _⟩ <;> rfl

/-- **The capacity suffices**, also for a text that turns out to be malformed. -/
theorem length_base64DecodeInto {input : Bytes} {cap : Nat}
    (h : base64DecodedCap input.length = some cap) : (base64DecodeInto input).1.length ≤ cap := by
  have hcap : cap = (input.length + 3) / 4 * 3 := by
    unfold base64DecodedCap at h
    cases hadd : checkedAdd input.length 3 with
    | none => rw [hadd] at h; cases h
    | some groups =>
      rw [hadd] at h
      rw [checkedMul_eq_some h, checkedAdd_eq_some hadd]
  unfold base64DecodeInto base64Checked
  split
  · exact Nat.zero_le _
  iterate 5 (split; · exact Nat.zero_le _)
  rw [base64Body_fst]
  have := length_base64Loop (input.take (input.length - base64Pad input)) 0 0
  have := List.length_take_le (input.length - base64Pad input) input
  omega

theorem length_base64Encode (bytes : Bytes) :
    (base64Encode bytes).length = (bytes.length + 2) / 3 * 4 := by
  rw [base64Encode_eq, encode, List.length_append, length_digits, padding, List.length_replicate]
  split <;> omega

/-- The announced length, when a `size_t` can hold it, is the length of the text. -/
theorem base64EncodedLen_eq_some {bytes : Bytes} {n : Nat} :
    base64EncodedLen bytes.length = some n ↔
      n = (base64Encode bytes).length ∧ bytes.length + 2 ≤ sizeMax ∧ n ≤ sizeMax := by
  rw [length_base64Encode]
  unfold base64EncodedLen
  constructor
  · intro h
    cases hadd : checkedAdd bytes.length 2 with
    | none => rw [hadd] at h; cases h
    | some groups =>
      rw [hadd] at h
      have hgroups := checkedAdd_eq_some hadd
      refine ⟨by rw [checkedMul_eq_some h, hgroups], ?_, checkedMul_le h⟩
      by_contra hlarge
      have : 2 ≤ sizeMax := by decide
      unfold checkedAdd at hadd
      rw [if_pos (by omega)] at hadd
      cases hadd
  · rintro ⟨rfl, hadd, hmul⟩
    rw [checkedAdd_of_le hadd]
    exact checkedMul_of_le hmul

theorem rdropWhile_encode (bytes : Bytes) :
    (encode bytes).rdropWhile (· = pad) = digits bytes := by
  unfold encode padding
  generalize (3 - bytes.length % 3) % 3 = n
  induction n with
  | zero =>
    rw [List.replicate_zero, List.append_nil]
    refine List.rdropWhile_eq_self_iff.mpr fun hne hlast => ?_
    apply pad_notMem_digits bytes
    rw [← of_decide_eq_true hlast]
    exact List.getLast_mem hne
  | succ n ih =>
    rw [List.replicate_succ', ← List.append_assoc, List.rdropWhile_concat_pos _ _ _ (by simp)]
    exact ih

/-- **A strict bijection up to padding.** A text decodes to exactly the bytes it is the canonical text
    of, with its padding or with none of it. The decoder stores no more than the announced capacity,
    whatever the text; the encoder as many characters as announced and a terminator, which a reader of
    the text stops at and not before. -/
theorem base64_bijection :
    (∀ bytes, base64Decode (base64Encode bytes) = some bytes) ∧
    (∀ input bytes, base64Decode input = some bytes ↔
      input = base64Encode bytes ∨ input = (base64Encode bytes).rdropWhile (· = pad)) ∧
    (∀ input bytes, base64Decode input = some bytes ↔ base64DecodeInto input = (bytes, true)) ∧
    (∀ input cap, base64DecodedCap input.length = some cap →
      (base64DecodeInto input).1.length ≤ cap) ∧
    (∀ bytes n, base64EncodedLen bytes.length = some n ↔
      n = (base64Encode bytes).length ∧ bytes.length + 2 ≤ sizeMax ∧ n ≤ sizeMax) ∧
    (∀ bytes, base64EncodeInto bytes = base64Encode bytes ++ [0] ∧
      cstr (base64EncodeInto bytes) = base64Encode bytes) := by
  refine ⟨fun bytes => ?_, fun input bytes => ?_, fun input bytes => ?_,
    fun _ _ => length_base64DecodeInto, fun _ _ => base64EncodedLen_eq_some, fun bytes => ?_⟩
  · rw [base64Decode_eq_some, base64Encode_eq]
    exact Or.inr rfl
  · rw [base64Decode_eq_some, base64Encode_eq, rdropWhile_encode]
    exact or_comm
  · unfold base64Decode
    rcases base64DecodeInto input with ⟨stored, _ | _⟩ <;> simp [base64Taken]
  · rw [base64Encode_eq]
    exact ⟨base64EncodeInto_eq bytes, cstr_base64EncodeInto bytes⟩

end Tamga
