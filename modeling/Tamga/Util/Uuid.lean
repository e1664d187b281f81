import Tamga.Mem

/-!
# `Util.Uuid` — hexadecimal and UUID texts (`util/hex.c`, `util/uuid.c`)

A UUID is accepted in four spellings and always written in one. `UuidSpelling` says what the four
are, by reference to the written one; `uuidParse_eq_some` that the code accepts exactly those, so two
spellings of one UUID are interchangeable wherever the code normalises.
-/

namespace Tamga

/-! ## Hexadecimal -/

def asciiLower (c : UInt8) : UInt8 := if 0x41 ≤ c ∧ c ≤ 0x5A then c + 0x20 else c

/-- `TAMGA_HEX_DIGITS[n]`. -/
def hexDigitLower (n : UInt8) : UInt8 := (ascii "0123456789abcdef").getD n.toNat 0

/-- `tamga_hex_encode`. -/
def hexEncode (bytes : Bytes) : Bytes :=
  bytes.flatMap fun (b : UInt8) =>
    [(ascii "0123456789abcdef").getD (b >>> 4 &&& 0x0F).toNat 0,
      (ascii "0123456789abcdef").getD (b &&& 0x0F).toNat 0]

/-- `tamga_hex_value`. -/
def hexValue (c : UInt8) : Option UInt8 :=
  if 0x30 ≤ c ∧ c ≤ 0x39 then some (c - 0x30)
  else if 0x61 ≤ c ∧ c ≤ 0x66 then some (c - 0x61 + 10)
  else if 0x41 ≤ c ∧ c ≤ 0x46 then some (c - 0x41 + 10)
  else none

/-- `tamga_hex_decode`; an odd length is refused. -/
def hexDecode : Bytes → Option Bytes
  | hi :: lo :: rest =>
      match hexValue hi, hexValue lo with
      | some h, some l => (hexDecode rest).map ((h <<< 4 ||| l) :: ·)
      | _, _ => none
  | [_] => none
  | [] => some []

theorem hexEncode_cons (b : UInt8) (bytes : Bytes) :
    hexEncode (b :: bytes) =
      hexDigitLower (b >>> 4 &&& 0x0F) :: hexDigitLower (b &&& 0x0F) :: hexEncode bytes := rfl

theorem length_hexEncode (bytes : Bytes) : (hexEncode bytes).length = 2 * bytes.length := by
  induction bytes with
  | nil => rfl
  | cons b bytes ih => rw [hexEncode_cons, List.length_cons, List.length_cons, List.length_cons, ih]; ring

/-- The characters of a lowercase hexadecimal text. -/
def isHexLower (c : UInt8) : Bool := 0x30 ≤ c && c ≤ 0x39 || 0x61 ≤ c && c ≤ 0x66

theorem isHexLower_nibbles (b : UInt8) :
    isHexLower (hexDigitLower (b >>> 4 &&& 0x0F)) = true ∧
      isHexLower (hexDigitLower (b &&& 0x0F)) = true := by
  revert b
  exact forall_byte (by decide +kernel)

theorem isHexLower_of_mem_hexEncode {bytes : Bytes} : ∀ c ∈ hexEncode bytes, isHexLower c = true := by
  intro c hc
  obtain ⟨b, -, hc⟩ := List.mem_flatMap.mp hc
  obtain ⟨hhi, hlo⟩ := isHexLower_nibbles b
  simp only [List.mem_cons, List.not_mem_nil, or_false] at hc
  rcases hc with rfl | rfl
  · exact hhi
  · exact hlo

/-- A hexadecimal digit in either case, by its lowercase form. -/
theorem hexValue_spec (c : UInt8) :
    (∀ v ∈ hexValue c, v < 16 ∧ hexDigitLower v = asciiLower c) ∧
      (isHexLower (asciiLower c) = true → (hexValue c).isSome = true) := by
  revert c
  exact forall_byte (by decide +kernel)

theorem nibbles_join (h : UInt8) (hh : h < 16) :
    ∀ l : UInt8, l < 16 → (h <<< 4 ||| l) >>> 4 &&& 0x0F = h ∧ (h <<< 4 ||| l) &&& 0x0F = l := by
  have all : ∀ a < 16, ∀ b < 16,
      (UInt8.ofNat a <<< 4 ||| UInt8.ofNat b) >>> 4 &&& 0x0F = UInt8.ofNat a ∧
        (UInt8.ofNat a <<< 4 ||| UInt8.ofNat b) &&& 0x0F = UInt8.ofNat b := by decide +kernel
  intro l hl
  have := all h.toNat (UInt8.lt_iff_toNat_lt.mp hh) l.toNat (UInt8.lt_iff_toNat_lt.mp hl)
  rwa [UInt8.ofNat_toNat, UInt8.ofNat_toNat] at this

theorem nibbles_split (b : UInt8) : (b >>> 4 &&& 0x0F) <<< 4 ||| (b &&& 0x0F) = b := by
  revert b
  exact forall_byte (by decide +kernel)

theorem hexDigitLower_inj : ∀ v w : UInt8, v < 16 → w < 16 → hexDigitLower v = hexDigitLower w → v = w := by
  have all : ∀ a < 16, ∀ b < 16, hexDigitLower (UInt8.ofNat a) = hexDigitLower (UInt8.ofNat b) →
      UInt8.ofNat a = UInt8.ofNat b := by decide +kernel
  intro v w hv hw h
  have := all v.toNat (UInt8.lt_iff_toNat_lt.mp hv) w.toNat (UInt8.lt_iff_toNat_lt.mp hw)
  rw [UInt8.ofNat_toNat, UInt8.ofNat_toNat] at this
  exact this h

/-- **Decoding** accepts the encoded text in any letter case, and nothing else. -/
theorem hexDecode_eq_some :
    ∀ s b : Bytes, hexDecode s = some b ↔ s.map asciiLower = hexEncode b
  | [], [] => ⟨fun _ => rfl, fun _ => rfl⟩
  | [], c :: b => ⟨nofun, fun h => by rw [hexEncode_cons] at h; cases h⟩
  | [_], [] => ⟨nofun, fun h => by cases h⟩
  | [_], c :: b => ⟨nofun, fun h => by
    have hlen := congrArg List.length h
    rw [length_hexEncode, List.length_map, List.length_cons, List.length_cons] at hlen
    simp at hlen
    omega⟩
  | hi :: lo :: rest, b => by
    have ih := hexDecode_eq_some rest
    obtain ⟨hhi, hhi'⟩ := hexValue_spec hi
    obtain ⟨hlo, hlo'⟩ := hexValue_spec lo
    rw [hexDecode]
    constructor
    · intro h
      cases hh : hexValue hi with
      | none => rw [hh] at h; cases h
      | some x =>
        cases hl : hexValue lo with
        | none => rw [hh, hl] at h; cases h
        | some y =>
          rw [hh, hl] at h
          obtain ⟨b', hb', rfl⟩ := Option.map_eq_some_iff.mp h
          obtain ⟨hx, hx'⟩ := hhi x hh
          obtain ⟨hy, hy'⟩ := hlo y hl
          obtain ⟨h1, h2⟩ := nibbles_join x hx y hy
          rw [hexEncode_cons, h1, h2, hx', hy', List.map_cons, List.map_cons, (ih b').mp hb']
    · intro h
      cases b with
      | nil => cases h
      | cons c b =>
        rw [hexEncode_cons, List.map_cons, List.map_cons] at h
        injection h with h1 h
        injection h with h2 h3
        obtain ⟨n1, n2⟩ := isHexLower_nibbles c
        obtain ⟨x, hx⟩ := Option.isSome_iff_exists.mp (hhi' (h1 ▸ n1))
        obtain ⟨y, hy⟩ := Option.isSome_iff_exists.mp (hlo' (h2 ▸ n2))
        have hc : ∀ c : UInt8, (c >>> 4 &&& 0x0F) < 16 ∧ (c &&& 0x0F) < 16 :=
          forall_byte (by decide +kernel)
        have hx' := hexDigitLower_inj _ _ (hhi x hx).1 (hc c).1 ((hhi x hx).2.trans h1)
        have hy' := hexDigitLower_inj _ _ (hlo y hy).1 (hc c).2 ((hlo y hy).2.trans h2)
        rw [hx, hy, (ih b).mpr h3, hx', hy']
        exact congrArg some (congrArg (· :: b) (nibbles_split c))

/-! ## UUIDs -/

/-- `TAMGA_UUID_GROUP_BYTES`. -/
def uuidGroupBytes : List Nat := [4, 2, 2, 2, 6]

def hyphen : UInt8 := 0x2D

/-- The loop of `tamga_uuid_parse_hyphenated`, over the groups after the first. -/
def uuidParseGroups : List Nat → Bytes → Option Bytes
  | [], _ => some []
  | nbytes :: groups, str =>
      if str.head? ≠ some hyphen then none
      else
        match hexDecode ((str.drop 1).take (nbytes * 2)),
            uuidParseGroups groups ((str.drop 1).drop (nbytes * 2)) with
        | some decoded, some rest => some (decoded ++ rest)
        | _, _ => none

/-- `tamga_uuid_parse_hyphenated`, which reads the first 36 characters. -/
def uuidParseHyphenated (str : Bytes) : Option Bytes :=
  match hexDecode (str.take 8), uuidParseGroups (uuidGroupBytes.drop 1) (str.drop 8) with
  | some decoded, some rest => some (decoded ++ rest)
  | _, _ => none

/-- `tamga_uuid_parse`: the 16 bytes. -/
def uuidParse (str : Bytes) : Option Bytes :=
  if str.length = 45 then
    if (str.take 9).map asciiLower = ascii "urn:uuid:" then uuidParseHyphenated (str.drop 9)
    else none
  else if str.length = 38 then
    if str.head? = some 0x7B ∧ str.getLast? = some 0x7D then
      uuidParseHyphenated ((str.drop 1).take 36)
    else none
  else if str.length = 36 then uuidParseHyphenated str
  else if str.length = 32 then hexDecode str
  else none

/-- `tamga_uuid_format`. -/
def uuidFormat (uuid : Bytes) : Bytes :=
  let hex := hexEncode uuid
  hex.take 8 ++ [hyphen] ++ (hex.drop 8).take 4 ++ [hyphen] ++ (hex.drop 12).take 4 ++ [hyphen] ++
    (hex.drop 16).take 4 ++ [hyphen] ++ (hex.drop 20).take 12

/-- `tamga_uuid_normalize`. -/
def uuidNormalize (str : Bytes) : Option Bytes := (uuidParse str).map uuidFormat

/-! ## The four spellings -/

/-- `s` spells the 16 bytes `uuid`: hyphenated, bare, braced or as a URN, in any letter case. -/
def UuidSpelling (uuid s : Bytes) : Prop :=
  s.map asciiLower = uuidFormat uuid ∨ s.map asciiLower = hexEncode uuid ∨
    (∃ t, s = [0x7B] ++ t ++ [0x7D] ∧ t.map asciiLower = uuidFormat uuid) ∨
    ∃ p t, s = p ++ t ∧ p.map asciiLower = ascii "urn:uuid:" ∧ t.map asciiLower = uuidFormat uuid

section Spelling

variable {str uuid s : Bytes}

theorem asciiLower_eq_hyphen (c : UInt8) : asciiLower c = hyphen ↔ c = hyphen := by
  revert c
  exact forall_byte (by decide +kernel)

theorem length_of_lower {t : Bytes} (h : s.map asciiLower = t) : s.length = t.length := by
  rw [← h, List.length_map]

/-- The text of the groups after the first. -/
def groupsText (parts : List Bytes) : Bytes := parts.flatMap fun part => hyphen :: hexEncode part

theorem uuidParseGroups_of_text : ∀ (parts : List Bytes) (str : Bytes),
    str.map asciiLower = groupsText parts →
      uuidParseGroups (parts.map List.length) str = some parts.flatten
  | [], _, _ => rfl
  | part :: parts, [], h => nomatch h
  | part :: parts, c :: str, h => by
    injection h with hc h
    have hsplit : str.map asciiLower = hexEncode part ++ groupsText parts := h
    have hlen := length_hexEncode part
    have htake : (str.take (part.length * 2)).map asciiLower = hexEncode part := by
      rw [List.map_take, hsplit, List.take_left' (by omega)]
    have hdrop : (str.drop (part.length * 2)).map asciiLower = groupsText parts := by
      rw [List.map_drop, hsplit, List.drop_left' (by omega)]
    obtain rfl := (asciiLower_eq_hyphen c).mp hc
    rw [List.map_cons, uuidParseGroups, List.head?_cons, if_neg (not_not.mpr rfl), List.drop_one,
      List.tail_cons,
      (hexDecode_eq_some _ part).mpr htake, uuidParseGroups_of_text parts _ hdrop]
    rfl

theorem text_of_uuidParseGroups : ∀ (groups : List Nat) (str rest : Bytes),
    str.length = (groups.map fun n => 2 * n + 1).sum → uuidParseGroups groups str = some rest →
      ∃ parts, parts.map List.length = groups ∧ rest = parts.flatten ∧
        str.map asciiLower = groupsText parts
  | [], str, rest, hlen, h => by
    obtain rfl := List.eq_nil_of_length_eq_zero hlen
    injection h with h
    exact ⟨[], rfl, h.symm, rfl⟩
  | n :: groups, [], rest, hlen, h => by simp at hlen; omega
  | n :: groups, c :: str, rest, hlen, h => by
    rw [uuidParseGroups, List.drop_one, List.tail_cons, List.head?_cons] at h
    by_cases hc : c = hyphen
    · rw [if_neg (not_not.mpr (congrArg some hc))] at h
      cases hd : hexDecode (str.take (n * 2)) with
      | none => rw [hd] at h; cases h
      | some decoded =>
        cases hr : uuidParseGroups groups (str.drop (n * 2)) with
        | none => rw [hd, hr] at h; cases h
        | some tail =>
          rw [hd, hr] at h
          injection h with h
          have hlen : str.length = 2 * n + (groups.map fun n => 2 * n + 1).sum := by
            rw [List.length_cons, List.map_cons, List.sum_cons] at hlen; omega
          have htext := (hexDecode_eq_some _ _).mp hd
          have hn : decoded.length = n := by
            have := length_of_lower htext
            rw [List.length_take, length_hexEncode] at this
            omega
          obtain ⟨parts, hparts, htail, hrest⟩ := text_of_uuidParseGroups groups _ tail
            (by rw [List.length_drop]; omega) hr
          refine ⟨decoded :: parts, by rw [List.map_cons, hn, hparts], ?_, ?_⟩
          · rw [← h, htail]; rfl
          · show asciiLower c :: str.map asciiLower =
              hyphen :: (hexEncode decoded ++ groupsText parts)
            rw [(asciiLower_eq_hyphen c).mpr hc, ← htext, ← hrest, ← List.map_append,
              List.take_append_drop]
    · rw [if_pos (fun h' => hc (Option.some.inj h'))] at h
      cases h

theorem hexEncode_append (a b : Bytes) : hexEncode (a ++ b) = hexEncode a ++ hexEncode b :=
  List.flatMap_append

/-- The written form, group by group. -/
theorem uuidFormat_groups {a b c d e : Bytes} (ha : a.length = 4) (hb : b.length = 2)
    (hc : c.length = 2) (hd : d.length = 2) (he : e.length = 6) :
    uuidFormat (a ++ [b, c, d, e].flatten) = hexEncode a ++ groupsText [b, c, d, e] := by
  have la := length_hexEncode a
  have lb := length_hexEncode b
  have lc := length_hexEncode c
  have ld := length_hexEncode d
  have le := length_hexEncode e
  unfold uuidFormat groupsText
  simp only [List.flatten_cons, List.flatten_nil, List.append_nil, hexEncode_append,
    List.flatMap_cons, List.flatMap_nil]
  have e12 : (12 : Nat) = 8 + 4 := rfl
  have e16 : (16 : Nat) = 8 + (4 + 4) := rfl
  have e20 : (20 : Nat) = 8 + (4 + (4 + 4)) := rfl
  have d8 : ∀ x : Bytes, (hexEncode a ++ x).drop 8 = x := fun x => List.drop_left' (by omega)
  have d4 : ∀ x, (hexEncode b ++ x).drop 4 = x := fun x => List.drop_left' (by omega)
  have d4' : ∀ x, (hexEncode c ++ x).drop 4 = x := fun x => List.drop_left' (by omega)
  have d4'' : ∀ x, (hexEncode d ++ x).drop 4 = x := fun x => List.drop_left' (by omega)
  rw [e12, e16, e20, ← List.drop_drop, ← List.drop_drop, ← List.drop_drop, ← List.drop_drop,
    ← List.drop_drop, ← List.drop_drop, d8, d4, d4', d4'', List.take_left' (by omega),
    List.take_left' (by omega), List.take_left' (by omega), List.take_left' (by omega),
    List.take_of_length_le (by omega)]
  simp

/-- Sixteen bytes, cut into the groups. -/
theorem exists_groups (h : uuid.length = 16) : ∃ a b c d e : Bytes, a.length = 4 ∧ b.length = 2 ∧
    c.length = 2 ∧ d.length = 2 ∧ e.length = 6 ∧ uuid = a ++ [b, c, d, e].flatten := by
  refine ⟨uuid.take 4, (uuid.drop 4).take 2, (uuid.drop 6).take 2, (uuid.drop 8).take 2, uuid.drop 10,
    ?_, ?_, ?_, ?_, ?_, ?_⟩
  · rw [List.length_take]; omega
  · rw [List.length_take, List.length_drop]; omega
  · rw [List.length_take, List.length_drop]; omega
  · rw [List.length_take, List.length_drop]; omega
  · rw [List.length_drop]; omega
  · have h4 := List.take_append_drop 4 uuid
    have h6 := List.take_append_drop 2 (uuid.drop 4)
    have h8 := List.take_append_drop 2 (uuid.drop 6)
    have h10 := List.take_append_drop 2 (uuid.drop 8)
    rw [List.drop_drop] at h6 h8 h10
    simp only [List.flatten_cons, List.flatten_nil, List.append_nil]
    rw [h10, h8, h6, h4]

theorem length_uuidFormat (h : uuid.length = 16) : (uuidFormat uuid).length = 36 := by
  obtain ⟨a, b, c, d, e, ha, hb, hc, hd, he, rfl⟩ := exists_groups h
  rw [uuidFormat_groups ha hb hc hd he]
  simp [groupsText, length_hexEncode, ha, hb, hc, hd, he]

/-- **The hyphenated form.** -/
theorem uuidParseHyphenated_eq_some (hlen : str.length = 36) :
    uuidParseHyphenated str = some uuid ↔
      uuid.length = 16 ∧ str.map asciiLower = uuidFormat uuid := by
  unfold uuidParseHyphenated
  constructor
  · intro h
    cases hd : hexDecode (str.take 8) with
    | none => rw [hd] at h; cases h
    | some a =>
      cases hr : uuidParseGroups (uuidGroupBytes.drop 1) (str.drop 8) with
      | none => rw [hd, hr] at h; cases h
      | some rest =>
        rw [hd, hr] at h
        injection h with h
        have ha := (hexDecode_eq_some _ _).mp hd
        have hlena : a.length = 4 := by
          have := length_of_lower ha
          rw [List.length_take, length_hexEncode] at this
          omega
        obtain ⟨parts, hparts, rfl, htext⟩ := text_of_uuidParseGroups _ _ _
          (by rw [List.length_drop, hlen]; rfl) hr
        have hfour : parts.length = 4 := by
          have := congrArg List.length hparts
          rwa [List.length_map] at this
        match parts, hfour with
        | [b, c, d, e], _ =>
          simp only [uuidGroupBytes, List.drop_succ_cons, List.drop_zero, List.map_cons,
            List.map_nil, List.cons.injEq, and_true] at hparts
          obtain ⟨hb, hc, hd', he⟩ := hparts
          subst h
          refine ⟨by simp [hlena, hb, hc, hd', he], ?_⟩
          rw [uuidFormat_groups hlena hb hc hd' he, ← ha, ← htext, ← List.map_append,
            List.take_append_drop]
  · rintro ⟨hu, htext⟩
    obtain ⟨a, b, c, d, e, ha, hb, hc, hd, he, rfl⟩ := exists_groups hu
    rw [uuidFormat_groups ha hb hc hd he] at htext
    have hla := length_hexEncode a
    have htake : (str.take 8).map asciiLower = hexEncode a := by
      rw [List.map_take, htext, List.take_left' (by omega)]
    have hdrop : (str.drop 8).map asciiLower = groupsText [b, c, d, e] := by
      rw [List.map_drop, htext, List.drop_left' (by omega)]
    have hgroups : uuidGroupBytes.drop 1 = [b, c, d, e].map List.length := by
      simp [uuidGroupBytes, hb, hc, hd, he]
    rw [(hexDecode_eq_some _ a).mpr htake, hgroups, uuidParseGroups_of_text _ _ hdrop]

theorem eq_braced (hlen : str.length = 38) (hhead : str.head? = some 0x7B)
    (hlast : str.getLast? = some 0x7D) : str = [0x7B] ++ (str.drop 1).take 36 ++ [0x7D] := by
  cases str with
  | nil => cases hhead
  | cons c str =>
    rw [List.head?_cons, Option.some.injEq] at hhead
    rw [List.length_cons] at hlen
    rw [List.getLast?_eq_some_iff] at hlast
    obtain ⟨init, hinit⟩ := hlast
    cases init with
    | nil => rw [List.nil_append] at hinit; injection hinit with _ h; rw [h] at hlen; cases hlen
    | cons d init =>
      injection hinit with _ hinit
      have hinit : str = init ++ [0x7D] := hinit
      rw [hinit, List.length_append, List.length_singleton] at hlen
      have : (init ++ [(0x7D : UInt8)]).take 36 = init := List.take_left' (by omega)
      rw [List.drop_one, List.tail_cons, hinit, this, hhead]
      rfl

/-- **Parsing** accepts the four spellings and nothing else. -/
theorem uuidParse_eq_some :
    uuidParse str = some uuid ↔ uuid.length = 16 ∧ UuidSpelling uuid str := by
  unfold uuidParse UuidSpelling
  constructor
  · intro h
    split_ifs at h with h45 hurn h38 hbraces h36 h32
    · obtain ⟨hu, htext⟩ := (uuidParseHyphenated_eq_some (by rw [List.length_drop]; omega)).mp h
      exact ⟨hu, Or.inr (Or.inr (Or.inr ⟨_, _, (List.take_append_drop 9 str).symm, hurn, htext⟩))⟩
    · obtain ⟨hu, htext⟩ := (uuidParseHyphenated_eq_some
        (by rw [List.length_take, List.length_drop]; omega)).mp h
      exact ⟨hu, Or.inr (Or.inr (Or.inl ⟨_, eq_braced h38 hbraces.1 hbraces.2, htext⟩))⟩
    · obtain ⟨hu, htext⟩ := (uuidParseHyphenated_eq_some h36).mp h
      exact ⟨hu, Or.inl htext⟩
    · have htext := (hexDecode_eq_some _ _).mp h
      have hlen := length_of_lower htext
      rw [length_hexEncode] at hlen
      exact ⟨by omega, Or.inr (Or.inl htext)⟩
  · rintro ⟨hu, htext | htext | ⟨t, rfl, htext⟩ | ⟨p, t, rfl, hp, htext⟩⟩
    · have h36 := (length_of_lower htext).trans (length_uuidFormat hu)
      rw [if_neg (by omega), if_neg (by omega), if_pos h36]
      exact (uuidParseHyphenated_eq_some h36).mpr ⟨hu, htext⟩
    · have h32 : str.length = 32 := by
        rw [length_of_lower htext, length_hexEncode, hu]
      rw [if_neg (by omega), if_neg (by omega), if_neg (by omega), if_pos h32]
      exact (hexDecode_eq_some _ _).mpr htext
    · have h36 := (length_of_lower htext).trans (length_uuidFormat hu)
      have h38 : ([0x7B] ++ t ++ [0x7D]).length = 38 := by simp [h36]
      have hinner : (([0x7B] ++ t ++ [0x7D]).drop 1).take 36 = t := List.take_left' h36
      rw [if_neg (by omega), if_pos h38, if_pos ⟨rfl, List.getLast?_concat⟩, hinner]
      exact (uuidParseHyphenated_eq_some h36).mpr ⟨hu, htext⟩
    · have h36 := (length_of_lower htext).trans (length_uuidFormat hu)
      have h9 : p.length = 9 := (length_of_lower hp).trans rfl
      have h45 : (p ++ t).length = 45 := by rw [List.length_append]; omega
      rw [if_pos h45, List.take_left' h9, if_pos hp, List.drop_left' h9]
      exact (uuidParseHyphenated_eq_some h36).mpr ⟨hu, htext⟩

/-! ## The canonical form -/

/-- The characters of a canonical UUID. -/
def isCanonical (c : UInt8) : Bool := isHexLower c || c = hyphen

theorem isCanonical_of_mem_uuidFormat : ∀ c ∈ uuidFormat uuid, isCanonical c = true := by
  intro c hc
  have hhex : ∀ {l : Bytes}, l ⊆ hexEncode uuid → c ∈ l → isCanonical c = true := fun hl hc => by
    rw [isCanonical, isHexLower_of_mem_hexEncode c (hl hc), Bool.true_or]
  have hhyphen : c ∈ [hyphen] → isCanonical c = true := fun hc => by
    rw [List.mem_singleton.mp hc]; rfl
  have hsub : ∀ m n, ((hexEncode uuid).drop m).take n ⊆ hexEncode uuid := fun m n =>
    List.Subset.trans (List.take_subset _ _) (List.drop_subset _ _)
  unfold uuidFormat at hc
  simp only [List.mem_append] at hc
  rcases hc with (((((((hc | hc) | hc) | hc) | hc) | hc) | hc) | hc) | hc
  · exact hhex (List.take_subset _ _) hc
  · exact hhyphen hc
  · exact hhex (hsub _ _) hc
  · exact hhyphen hc
  · exact hhex (hsub _ _) hc
  · exact hhyphen hc
  · exact hhex (hsub _ _) hc
  · exact hhyphen hc
  · exact hhex (hsub _ _) hc

/-- **Normalising** gives 36 characters, all of them lowercase digits or hyphens. -/
theorem uuidNormalize_eq_some {canonical : Bytes} :
    uuidNormalize str = some canonical ↔
      ∃ uuid, uuid.length = 16 ∧ UuidSpelling uuid str ∧ canonical = uuidFormat uuid := by
  unfold uuidNormalize
  rw [Option.map_eq_some_iff]
  constructor
  · rintro ⟨uuid, h, rfl⟩
    obtain ⟨hlen, hspells⟩ := uuidParse_eq_some.1 h
    exact ⟨uuid, hlen, hspells, rfl⟩
  · rintro ⟨uuid, hlen, hspells, rfl⟩
    exact ⟨uuid, uuidParse_eq_some.2 ⟨hlen, hspells⟩, rfl⟩

/-- The canonical form is itself a spelling. -/
theorem uuidParse_uuidFormat (h : uuid.length = 16) : uuidParse (uuidFormat uuid) = some uuid := by
  have hlower : ∀ c, isCanonical c = true → asciiLower c = c := forall_byte (by decide +kernel)
  refine uuidParse_eq_some.2 ⟨h, Or.inl ?_⟩
  exact (List.map_congr_left fun c hc => hlower c (isCanonical_of_mem_uuidFormat c hc)).trans
    (List.map_id _)

theorem uuidFormat_inj {uuid' : Bytes} (h : uuid.length = 16) (h' : uuid'.length = 16)
    (heq : uuidFormat uuid = uuidFormat uuid') : uuid = uuid' := by
  have := uuidParse_uuidFormat h
  rw [heq, uuidParse_uuidFormat h'] at this
  injection this with this
  exact this.symm

end Spelling

end Tamga
