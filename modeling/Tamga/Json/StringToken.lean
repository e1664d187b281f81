import Tamga.Json.Grammar

/-!
# `Json.StringToken` — string tokens, scanner against grammar

What the scanner accepts is a token of the grammar and decodes to the bytes the grammar says
(*sound*), and on any token of the grammar, whatever follows it, the scanner succeeds and stops at
its end (*complete*).

This is proved of one round of the loop first (`stringRound_sound`, `stringRound_complete`), where
all the case analysis is; the loop is then an induction that also follows the buffer, so that it
says what happens when an append is refused.
-/

namespace Tamga

namespace Json

open Alloc Utf8

variable {F : Prop}

/-! ## UTF-8 -/

theorem isContinuation_iff {c : UInt8} : isContinuation c = true ↔ isCont c := by
  have h : ∀ n < 256, (isContinuation (UInt8.ofNat n) = true ↔ 0x80 ≤ n ∧ n ≤ 0xBF) := by
    decide +kernel
  simpa [isCont] using h c.toNat c.toNat_lt

theorem utf8SequenceLen_encodeChar (c : Char) (rest : Bytes) :
    utf8SequenceLen (encodeChar c ++ rest) = (encodeChar c).length := by
  rcases encodeChar_cases c with ⟨b0, h, h0, -⟩ | ⟨b0, b1, h, h0, h0', h1, -⟩ |
    ⟨b0, b1, b2, h, h0, h0', h1, hlow, hsur, h2, -⟩ |
    ⟨b0, b1, b2, b3, h, h0, h0', h1, hlow, hhigh, h2, h3, -⟩
  all_goals
    rw [h]
    simp only [List.cons_append, List.nil_append, utf8SequenceLen, List.length_cons,
      List.length_nil, UInt8.lt_iff_toNat_lt, UInt8.le_iff_toNat_le, ← UInt8.toNat_inj]
  · rw [if_pos (by simpa using h0)]
  · rw [if_neg (by simp; omega), if_pos (by simp; omega), if_pos (isContinuation_iff.2 h1)]
  · rw [if_neg (by simp; omega), if_neg (by simp; omega), if_pos (by simp; omega), if_neg ?_,
      if_pos (isContinuation_iff.2 h2)]
    unfold isCont at h1
    split <;> split <;> simp_all
  · rw [if_neg (by simp; omega), if_neg (by simp; omega), if_neg (by simp; omega),
      if_pos (by simp; omega), if_neg ?_,
      if_pos ⟨isContinuation_iff.2 h2, isContinuation_iff.2 h3⟩]
    unfold isCont at h1
    split <;> split <;> simp_all

variable {s : Bytes} {n : Nat}

/-- What an accepted sequence looks like: the four rows of the table. -/
theorem utf8SequenceLen_cases {b0 : UInt8} (h : utf8SequenceLen (b0 :: s) = n + 1) :
    (n = 0 ∧ b0 < 0x80) ∨
    (∃ b1 t, s = b1 :: t ∧ n = 1 ∧ 0xC2 ≤ b0 ∧ b0 ≤ 0xDF ∧ isContinuation b1) ∨
    (∃ b1 b2 t, s = b1 :: b2 :: t ∧ n = 2 ∧ 0xE0 ≤ b0 ∧ b0 ≤ 0xEF ∧ 0x80 ≤ b1 ∧ b1 ≤ 0xBF ∧
      (b0 = 0xE0 → 0xA0 ≤ b1) ∧ (b0 = 0xED → b1 ≤ 0x9F) ∧ isContinuation b2) ∨
    (∃ b1 b2 b3 t, s = b1 :: b2 :: b3 :: t ∧ n = 3 ∧ 0xF0 ≤ b0 ∧ b0 ≤ 0xF4 ∧ 0x80 ≤ b1 ∧
      b1 ≤ 0xBF ∧ (b0 = 0xF0 → 0x90 ≤ b1) ∧ (b0 = 0xF4 → b1 ≤ 0x8F) ∧ isContinuation b2 ∧
      isContinuation b3) := by
  unfold utf8SequenceLen at h
  dsimp only at h
  by_cases h1 : b0 < 0x80
  · rw [if_pos h1] at h
    exact Or.inl ⟨by omega, h1⟩
  rw [if_neg h1] at h
  by_cases h2 : 0xC2 ≤ b0 ∧ b0 ≤ 0xDF
  · rw [if_pos h2] at h
    match s, h with
    | b1 :: t, h =>
      right; left
      dsimp only at h
      by_cases hc : isContinuation b1 = true
      · rw [if_pos hc] at h
        exact ⟨b1, t, rfl, by omega, h2.1, h2.2, hc⟩
      · rw [if_neg hc] at h; omega
  rw [if_neg h2] at h
  by_cases h3 : 0xE0 ≤ b0 ∧ b0 ≤ 0xEF
  · rw [if_pos h3] at h
    match s, h with
    | b1 :: b2 :: t, h =>
      right; right; left
      dsimp only at h
      by_cases hr : (b1 < if b0 = 0xE0 then 0xA0 else 0x80) ∨ (if b0 = 0xED then 0x9F else 0xBF) < b1
      · rw [if_pos hr] at h; omega
      rw [if_neg hr] at h
      by_cases hc : isContinuation b2 = true
      · rw [if_pos hc] at h
        refine ⟨b1, b2, t, rfl, by omega, h3.1, h3.2, ?_⟩
        clear h
        grind
      · rw [if_neg hc] at h; omega
  rw [if_neg h3] at h
  by_cases h4 : 0xF0 ≤ b0 ∧ b0 ≤ 0xF4
  · rw [if_pos h4] at h
    match s, h with
    | b1 :: b2 :: b3 :: t, h =>
      right; right; right
      dsimp only at h
      by_cases hr : (b1 < if b0 = 0xF0 then 0x90 else 0x80) ∨ (if b0 = 0xF4 then 0x8F else 0xBF) < b1
      · rw [if_pos hr] at h; omega
      rw [if_neg hr] at h
      by_cases hc : isContinuation b2 = true ∧ isContinuation b3 = true
      · rw [if_pos hc] at h
        refine ⟨b1, b2, b3, t, rfl, by omega, h4.1, h4.2, ?_⟩
        clear h
        grind
      · rw [if_neg hc] at h; omega
  rw [if_neg h4] at h
  omega
theorem utf8SequenceLen_sound (h : utf8SequenceLen s = n + 1) :
    ∃ c : Char, s.take (n + 1) = encodeChar c := by
  cases s with
  | nil => cases h
  | cons b0 s =>
    rcases utf8SequenceLen_cases h with ⟨rfl, h0⟩ | ⟨b1, t, rfl, rfl, h0, h0', h1⟩ |
      ⟨b1, b2, t, rfl, rfl, h0, h0', h1, h1', hlow, hsur, h2⟩ |
      ⟨b1, b2, b3, t, rfl, rfl, h0, h0', h1, h1', hlow, hhigh, h2, h3⟩
    · obtain ⟨c, hc, -⟩ := decode_one (UInt8.lt_iff_toNat_lt.mp h0)
      exact ⟨c, hc.symm⟩
    · obtain ⟨c, hc, -⟩ := decode_two (UInt8.le_iff_toNat_le.mp h0)
        (UInt8.le_iff_toNat_le.mp h0') (isContinuation_iff.1 h1)
      exact ⟨c, hc.symm⟩
    · obtain ⟨c, hc, -⟩ := decode_three (UInt8.le_iff_toNat_le.mp h0)
        (UInt8.le_iff_toNat_le.mp h0') ⟨h1, h1'⟩ (fun e => hlow (UInt8.toNat_inj.mp e))
        (fun e => hsur (UInt8.toNat_inj.mp e)) (isContinuation_iff.1 h2)
      exact ⟨c, hc.symm⟩
    · obtain ⟨c, hc, -⟩ := decode_four (UInt8.le_iff_toNat_le.mp h0)
        (UInt8.le_iff_toNat_le.mp h0') ⟨h1, h1'⟩ (fun e => hlow (UInt8.toNat_inj.mp e))
        (fun e => hhigh (UInt8.toNat_inj.mp e)) (isContinuation_iff.1 h2)
        (isContinuation_iff.1 h3)
      exact ⟨c, hc.symm⟩

/-- For a scalar value, `tamga_utf8_encode` appends its UTF-8 encoding. -/
theorem utf8Bytes_eq (c : Char) : utf8Bytes c.val.toNat = encodeChar c := by
  -- the bit operations of the source are sums, because the operands do not overlap
  have hlead : ∀ n < 32, 0xC0 ||| n = n + 192 ∧ (n < 16 → 0xE0 ||| n = n + 224) ∧
      (n < 8 → 0xF0 ||| n = n + 240) := by decide
  have hcont : ∀ n < 64, 0x80 ||| n = n + 128 := by decide
  have hand : ∀ n : Nat, n &&& 0x3F = n % 64 := fun n => Nat.and_two_pow_sub_one_eq_mod n 6
  have hrange := scalar_range c
  unfold utf8Bytes
  simp only [hand, Nat.shiftRight_eq_div_pow]
  by_cases h1 : c.val.toNat < 0x80
  · rw [if_pos h1, encodeChar_one h1]
  rw [if_neg h1]
  by_cases h2 : c.val.toNat < 0x800
  · rw [if_pos h2, encodeChar_two (by omega) h2, (hlead _ (by omega)).1,
      hcont _ (by omega)]
  rw [if_neg h2]
  by_cases h3 : c.val.toNat < 0x10000
  · rw [if_pos h3, encodeChar_three (by omega) h3, (hlead _ (by omega)).2.1 (by omega),
      hcont _ (by omega), hcont _ (by omega)]
  · rw [if_neg h3, encodeChar_four (by omega), (hlead _ (by omega)).2.2 (by omega),
      hcont _ (by omega), hcont _ (by omega), hcont _ (by omega)]

/-! ## Escapes -/

theorem hexDigit_iff {c : UInt8} {v : Nat} : hexDigit c = some v ↔ HexDigit c v := by
  unfold hexDigit HexDigit
  simp only [UInt8.le_iff_toNat_le]
  have hlt := c.toNat_lt
  constructor
  · intro h
    split at h
    · rename_i hr
      injection h with h
      simp at hr; omega
    split at h
    · rename_i hr
      injection h with h
      simp at hr; omega
    split at h
    · rename_i hr
      injection h with h
      simp at hr; omega
    · cases h
  · rintro (⟨hv, hc⟩ | ⟨hv, hv', hc | hc⟩)
    · rw [if_pos (by simp; omega)]; congr 1; omega
    · rw [if_neg (by simp; omega), if_pos (by simp; omega)]; congr 1; omega
    · rw [if_neg (by simp; omega), if_neg (by simp; omega), if_pos (by simp; omega)]
      congr 1; omega

theorem HexDigit.lt {c : UInt8} {v : Nat} (h : HexDigit c v) : v < 16 := by
  rcases h with ⟨h, -⟩ | ⟨-, h, -⟩ <;> omega

theorem shift_or {a b : Nat} (hb : b < 16) : a <<< 4 ||| b = a * 16 + b := by
  rw [← Nat.shiftLeft_add_eq_or_of_lt (i := 4) hb, Nat.shiftLeft_eq]

theorem readHex4_iff {s rest : Bytes} :
    readHex4 s = some (n, rest) ↔ ∃ hex, s = hex ++ rest ∧ Hex4 hex n := by
  constructor
  · intro h
    unfold readHex4 at h
    split at h
    · rename_i a b c d s'
      split at h
      · rename_i w x y z hw hx hy hz
        injection h with h
        injection h with hn hs
        rw [hexDigit_iff] at hw hx hy hz
        subst hs
        refine ⟨[a, b, c, d], rfl, a, b, c, d, w, x, y, z, rfl, hw, hx, hy, hz, ?_⟩
        rw [← hn, shift_or hx.lt, shift_or hy.lt, shift_or hz.lt]
      · cases h
    · cases h
  · rintro ⟨hex, rfl, a, b, c, d, w, x, y, z, rfl, hw, hx, hy, hz, rfl⟩
    show readHex4 (a :: b :: c :: d :: rest) = _
    simp only [readHex4, hexDigit_iff.2 hw, hexDigit_iff.2 hx, hexDigit_iff.2 hy,
      hexDigit_iff.2 hz, shift_or hx.lt, shift_or hy.lt, shift_or hz.lt]

theorem Hex4.length {hex : Bytes} (h : Hex4 hex n) : hex.length = 4 := by
  obtain ⟨a, b, c, d, -, -, -, -, rfl, -⟩ := h
  rfl

theorem Hex4.lt {hex : Bytes} (h : Hex4 hex n) : n < 0x10000 := by
  obtain ⟨a, b, c, d, w, x, y, z, -, hw, hx, hy, hz, rfl⟩ := h
  have := hw.lt; have := hx.lt; have := hy.lt; have := hz.lt
  omega

theorem shortEscape_iff {letter byte : UInt8} :
    shortEscape letter = some byte ↔ (letter, byte) ∈ shortEscapes := by
  constructor
  · intro h
    unfold shortEscape at h
    split_ifs at h <;> subst letter <;> injection h with h <;> subst h <;> decide
  · intro h
    simp only [shortEscapes, List.mem_cons, List.not_mem_nil, or_false, Prod.mk.injEq] at h
    rcases h with ⟨rfl, rfl⟩ | ⟨rfl, rfl⟩ | ⟨rfl, rfl⟩ | ⟨rfl, rfl⟩ | ⟨rfl, rfl⟩ | ⟨rfl, rfl⟩ |
      ⟨rfl, rfl⟩ | ⟨rfl, rfl⟩ <;> decide

variable {r : StringRound}

theorem lowSurrogate_sound {unit : Nat} (h : lowSurrogate unit s = .ok r) :
    ∃ low hex rest, Hex4 hex low ∧ 0xDC00 ≤ low ∧ low ≤ 0xDFFF ∧
      s = backslash :: 0x75 :: hex ++ rest ∧
      r = .unicode (0x10000 + ((unit - 0xD800) <<< 10) + (low - 0xDC00)) rest := by
  unfold lowSurrogate at h
  split at h
  · rename_i c0 c1 s'
    split at h
    · cases h
    rename_i hc
    simp only [not_or, not_not] at hc
    obtain ⟨-, rfl, rfl⟩ := hc
    split at h
    · cases h
    rename_i low rest hread
    obtain ⟨hex, rfl, hhex⟩ := readHex4_iff.1 hread
    split at h
    · cases h
    rename_i hlow
    injection h with h
    exact ⟨low, hex, rest, hhex, by omega, by omega, rfl, h.symm⟩
  · cases h

theorem unicodeEscape_sound (h : unicodeEscape s = .ok r) :
    ∃ (c : Char) (t rest : Bytes), Piece (encodeChar c) (backslash :: 0x75 :: t) ∧
      s = t ++ rest ∧ r = .unicode c.val.toNat rest := by
  unfold unicodeEscape at h
  split at h
  · cases h
  rename_i unit s' hread
  obtain ⟨hex, rfl, hhex⟩ := readHex4_iff.1 hread
  split at h
  · rename_i hhigh
    obtain ⟨low, hex', rest, hhex', hlow, hlow', rfl, rfl⟩ := lowSurrogate_sound h
    rw [Nat.shiftLeft_eq]
    obtain ⟨c, hc⟩ := @exists_scalar
      (0x10000 + (unit - 0xD800) * 2 ^ 10 + (low - 0xDC00)) (by omega)
    refine ⟨c, hex ++ backslash :: 0x75 :: hex', rest, ?_, by simp, by rw [hc]⟩
    refine Piece.pair c (by omega) ?_ ?_
    · convert hhex using 1; omega
    · convert hhex' using 1; omega
  · split at h
    · cases h
    · injection h with h
      obtain ⟨c, hc⟩ := @exists_scalar unit (by have := hhex.lt; omega)
      exact ⟨c, hex, s', Piece.unicode c (by rw [hc]; exact hhex), rfl, by rw [hc]; exact h.symm⟩

theorem unicodeEscape_unicode {c : Char} {hex rest : Bytes} (h : Hex4 hex c.val.toNat) :
    unicodeEscape (hex ++ rest) = .ok (.unicode c.val.toNat rest) := by
  have hrange := scalar_range c
  unfold unicodeEscape
  rw [readHex4_iff.2 ⟨hex, rfl, h⟩]
  dsimp only
  rw [if_neg (by omega), if_neg (by omega)]

theorem unicodeEscape_pair {c : Char} {high low rest : Bytes} (hc : 0x10000 ≤ c.val.toNat)
    (hhigh : Hex4 high (0xD800 + (c.val.toNat - 0x10000) / 0x400))
    (hlow : Hex4 low (0xDC00 + (c.val.toNat - 0x10000) % 0x400)) :
    unicodeEscape (high ++ backslash :: 0x75 :: (low ++ rest)) =
      .ok (.unicode c.val.toNat rest) := by
  have hrange := scalar_range c
  unfold unicodeEscape
  rw [readHex4_iff.2 ⟨high, rfl, hhigh⟩]
  dsimp only
  rw [if_pos (by omega)]
  have hlen := hlow.length
  unfold lowSurrogate
  dsimp only
  rw [if_neg (by simp; omega), readHex4_iff.2 ⟨low, rfl, hlow⟩]
  dsimp only
  have hsum : 0x10000 + (0xD800 + (c.val.toNat - 0x10000) / 0x400 - 0xD800) * 2 ^ 10 +
      (0xDC00 + (c.val.toNat - 0x10000) % 0x400 - 0xDC00) = c.val.toNat := by omega
  rw [if_neg (by omega), Nat.shiftLeft_eq, hsum]

/-! ## One round of the string loop -/

/-- What a round appends and what is left to read; nothing at the closing quote. -/
def StringRound.yields : StringRound → Option (Bytes × Bytes)
  | .close _ => none
  | .escape byte rest => some ([byte], rest)
  | .unicode codepoint rest => some (utf8Bytes codepoint, rest)
  | .raw seq rest => some (seq, rest)

theorem stringRound_quote (rest : Bytes) : stringRound (quote :: rest) = .ok (.close rest) := by
  simp [stringRound]

theorem stringRound_sound (h : stringRound s = .ok r) :
    (∃ rest, r = .close rest ∧ s = quote :: rest) ∨
      ∃ b t rest, Piece b t ∧ s = t ++ rest ∧ r.yields = some (b, rest) := by
  cases s with
  | nil => cases h
  | cons c s =>
    unfold stringRound at h
    dsimp only at h
    split at h
    · rename_i hc
      injection h with h
      exact Or.inl ⟨s, h.symm, by rw [hc]⟩
    rename_i hquote
    right
    split at h
    · rename_i hc
      subst hc
      split at h
      · cases h
      rename_i esc s'
      split at h
      · rename_i byte hbyte
        injection h with h
        subst h
        exact ⟨[byte], [backslash, esc], s', Piece.short (shortEscape_iff.1 hbyte), rfl, rfl⟩
      · split at h
        · rename_i hesc
          subst hesc
          obtain ⟨c, t, rest, hp, rfl, rfl⟩ := unicodeEscape_sound h
          exact ⟨_, _, rest, hp, rfl, by rw [StringRound.yields, utf8Bytes_eq]⟩
        · cases h
    rename_i hbackslash
    split at h
    · cases h
    rename_i hctl
    split at h
    · cases h
    rename_i n hn
    injection h with h
    subst h
    obtain ⟨ch, hch⟩ := utf8SequenceLen_sound hn
    -- a multi-byte sequence starts above every character excluded here
    have hhead : 0x20 ≤ ch.val.toNat ∧ ch.val.toNat ≠ 0x22 ∧ ch.val.toNat ≠ 0x5C := by
      have hq : c.toNat ≠ 0x22 := fun e => hquote (UInt8.toNat_inj.mp e)
      have hb : c.toNat ≠ 0x5C := fun e => hbackslash (UInt8.toNat_inj.mp e)
      have hc : ¬ c.toNat < 0x20 := fun e => hctl (UInt8.lt_iff_toNat_lt.mpr e)
      rcases head_encodeChar hch.symm with ⟨he, -, -⟩ | ⟨-, he⟩ <;> omega
    refine ⟨_, _, _, Piece.raw ch hhead.1 hhead.2.1 hhead.2.2, ?_, by rw [StringRound.yields, hch]⟩
    rw [← hch, List.take_append_drop]

theorem stringRound_complete {b t : Bytes} (h : Piece b t) (rest : Bytes) :
    ∃ r, stringRound (t ++ rest) = .ok r ∧ r.yields = some (b, rest) := by
  have hqb : (backslash : UInt8) ≠ quote := by decide
  cases h with
  | raw c hctl hquote hbackslash =>
    obtain ⟨b0, t, henc⟩ := List.exists_cons_of_ne_nil (encodeChar_ne_nil c)
    have hlen := utf8SequenceLen_encodeChar c rest
    have hne : b0.toNat ≠ 0x22 ∧ b0.toNat ≠ 0x5C ∧ ¬ b0.toNat < 0x20 := by
      rcases head_encodeChar henc with ⟨he, -, -⟩ | ⟨he, -⟩ <;> omega
    refine ⟨.raw (encodeChar c) rest, ?_, rfl⟩
    rw [henc] at hlen ⊢
    rw [List.cons_append] at hlen ⊢
    unfold stringRound
    dsimp only
    rw [if_neg (fun e => hne.1 (congrArg UInt8.toNat e)),
      if_neg (fun e => hne.2.1 (congrArg UInt8.toNat e)),
      if_neg (fun e => hne.2.2 (UInt8.lt_iff_toNat_lt.mp e)), hlen]
    simp
  | @short letter byte h =>
    refine ⟨.escape byte rest, ?_, rfl⟩
    show stringRound (backslash :: letter :: rest) = _
    simp [stringRound, hqb, shortEscape_iff.2 h]
  | @unicode c hex h =>
    refine ⟨.unicode c.val.toNat rest, ?_, by rw [StringRound.yields, utf8Bytes_eq]⟩
    show stringRound (backslash :: 0x75 :: (hex ++ rest)) = _
    simp [stringRound, hqb, show shortEscape 0x75 = none by decide, unicodeEscape_unicode h]
  | @pair c high low hc hhigh hlow =>
    refine ⟨.unicode c.val.toNat rest, ?_, by rw [StringRound.yields, utf8Bytes_eq]⟩
    have hpair := @unicodeEscape_pair c high low rest hc hhigh hlow
    simpa [stringRound, hqb, show shortEscape 0x75 = none by decide] using hpair

/-! ## The string loop -/

section StringLoop

variable {c : Bytes} {out : Buf} {x : Except (Option Error) (Buf × Bytes)}

/-- A round that is not the closing quote: the buffer gets the decoded bytes, the loop goes on. -/
theorem stringLoop_round {fuel : Nat} {s b rest : Bytes}
    (hr : stringRound s = .ok r) (hy : r.yields = some (b, rest)) (hout : out.Filled F c)
    (hlen : (c ++ b).length ≤ Buf.maxGrowth) (h : (stringLoop (fuel + 1) s out).Can F x) :
    ∃ out', out'.Filled F (c ++ b) ∧ (stringLoop fuel rest out').Can F x := by
  have hlen : Buf.maxGrowth < (c ++ b).length → F := fun h => absurd hlen (by omega)
  unfold stringLoop at h
  rw [hr] at h
  cases r with
  | close rest' => cases hy
  | escape byte rest' =>
    injection hy with hy; injection hy with hb hrest; subst hb hrest
    obtain ⟨out', hout', h⟩ := AllocE.can_bind_lift.1 h
    exact ⟨out', hout.append id hlen hout', h⟩
  | unicode codepoint rest' =>
    injection hy with hy; injection hy with hb hrest; subst hb hrest
    obtain ⟨out', hout', h⟩ := AllocE.can_bind_lift.1 h
    exact ⟨out', Buf.Filled.appendBytes id hout hlen hout', h⟩
  | raw seq rest' =>
    injection hy with hy; injection hy with hb hrest; subst hb hrest
    obtain ⟨out', hout', h⟩ := AllocE.can_bind_lift.1 h
    exact ⟨out', hout.append id hlen hout', h⟩

theorem stringLoop_close {fuel : Nat} {rest : Bytes} (hout : out.Filled F c)
    (h : (stringLoop (fuel + 1) (quote :: rest) out).Can F x) :
    (out.failed = false ∧ x = .ok (out, rest)) ∨ F ∧ x = .error none := by
  unfold stringLoop at h
  rw [stringRound_quote] at h
  dsimp only at h
  rcases hout with ⟨hfail, hE⟩ | ⟨hok, -⟩
  · rw [if_pos hfail] at h
    exact Or.inr ⟨hE, (AllocE.can_throw.1 h).symm⟩
  · rw [if_neg (by simp [hok])] at h
    exact Or.inl ⟨hok, (AllocE.can_pure.1 h).symm⟩

theorem Piece.length_pos {b t : Bytes} (h : Piece b t) : 0 < t.length := by
  cases h with
  | raw c => exact List.length_pos_iff.mpr (encodeChar_ne_nil c)
  | _ => simp

/-- **Completeness.** On the inside of a string token the loop runs to the closing quote; only the
    buffer can have failed on the way. -/
theorem stringLoop_complete {bytes body : Bytes} (hbody : StringBody bytes body) :
    ∀ {fuel : Nat} {out : Buf} {c rest : Bytes}, body.length < fuel → out.Filled F c →
      (c ++ bytes).length ≤ Buf.maxGrowth →
      (stringLoop fuel (body ++ quote :: rest) out).Can F x →
      (∃ buf, buf.failed = false ∧ buf.Filled F (c ++ bytes) ∧ x = .ok (buf, rest)) ∨
        F ∧ x = .error none := by
  induction hbody with
  | nil =>
    intro fuel out c rest hfuel hout _ h
    obtain ⟨fuel, rfl⟩ := Nat.exists_eq_add_of_lt hfuel
    rw [List.append_nil]
    rcases stringLoop_close hout (by simpa using h) with ⟨hok, rfl⟩ | hbad
    · exact Or.inl ⟨out, hok, hout, rfl⟩
    · exact Or.inr hbad
  | @cons b t bs ts hp _ ih =>
    intro fuel out c rest hfuel hout hlen h
    have hpos := hp.length_pos
    rw [List.length_append] at hfuel
    obtain ⟨fuel, rfl⟩ : ∃ n, fuel = n + 1 := ⟨fuel - 1, by omega⟩
    rw [List.append_assoc] at h
    obtain ⟨r, hr, hy⟩ := stringRound_complete hp (ts ++ quote :: rest)
    have hlen' : (c ++ b).length ≤ Buf.maxGrowth := by
      simp only [List.length_append] at hlen ⊢; omega
    obtain ⟨out', hout', h⟩ := stringLoop_round hr hy hout hlen' h
    have := ih (by omega) hout' (by simpa using hlen) h
    simpa using this

end StringLoop

theorem parseStringInto_complete {bytes t rest : Bytes}
    {x : Except (Option Error) (Buf × Bytes)} (ht : StringToken bytes t)
    (hlen : bytes.length ≤ Buf.maxGrowth)
    (h : (parseStringInto (t ++ rest) Buf.init).Can F x) :
    (∃ buf, buf.failed = false ∧ buf.Filled F bytes ∧ x = .ok (buf, rest)) ∨
      F ∧ x = .error none := by
  obtain @⟨body, hbody⟩ := ht
  unfold parseStringInto at h
  simp only [List.cons_append, List.append_assoc, List.nil_append] at h
  rw [if_neg (by simp [peek])] at h
  have := stringLoop_complete hbody (by simp) Buf.filled_init (by simpa using hlen) h
  simpa using this

/-! ## Lengths -/

/-- No spelling of a character is shorter than its encoding. -/
theorem Piece.length_le {b t : Bytes} (h : Piece b t) : b.length ≤ t.length := by
  cases h with
  | raw c => exact le_refl _
  | short h => simp
  | @unicode c hex h =>
    have := h.length
    have henc : (encodeChar c).length ≤ 4 := length_encodeChar_le c
    simp only [List.length_cons]; omega
  | @pair c high low hc hhigh hlow =>
    have := hhigh.length
    have henc : (encodeChar c).length ≤ 4 := length_encodeChar_le c
    simp only [List.length_append, List.length_cons]; omega

theorem StringBody.length_le {bytes body : Bytes} (h : StringBody bytes body) :
    bytes.length ≤ body.length := by
  induction h with
  | nil => exact le_refl _
  | cons hp _ ih =>
    have := hp.length_le
    simp only [List.length_append]; omega

theorem StringToken.length_le {bytes t : Bytes} (h : StringToken bytes t) :
    bytes.length + 2 ≤ t.length := by
  obtain ⟨hbody⟩ := h
  have := hbody.length_le
  simp; omega

end Json

end Tamga
