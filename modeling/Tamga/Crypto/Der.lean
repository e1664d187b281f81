import Tamga.Lib.Ber
import Tamga.Mem

/-!
# `Crypto.Der` — the strict reader (`crypto/der.c`)

A reader walks attacker-supplied bytes element by element. Nothing here trusts a length: `none` stands
for a byte read outside the buffer or an unsigned subtraction that would wrap, and no sequence of calls
reaches it (`run_moves`). What `tamga_der_read` takes is one element with its shortest header
(`derRead_cases`), and it takes every such element (`derRead_element`), so an element has one spelling.
-/

namespace Tamga.Der

open Octets Ber

/-! ## The program -/

/-- `TamgaDer`: the bytes, and how many of them are behind the reader. -/
structure Reader where
  data : Bytes
  pos : Nat

/-- `tamga_der_init`: a NULL buffer has no bytes. -/
def derInit (data : Option Bytes) : Reader := ⟨data.getD [], 0⟩

/-- `tamga_der_at_end`. -/
def derAtEnd (r : Reader) : Bool := decide (r.pos ≥ r.data.length)

/-- `reader->len - reader->pos`, where it does not wrap. -/
def Reader.remaining (r : Reader) : Option Nat :=
  if r.pos ≤ r.data.length then some (r.data.length - r.pos) else none

/-- `reader->data[reader->pos]`, inside the buffer. -/
def Reader.byte (r : Reader) : Option UInt8 := r.data[r.pos]?

/-- `reader->pos += n`. -/
def Reader.skip (r : Reader) (n : Nat) : Reader := { r with pos := r.pos + n }

/-- The loop over the octets of a long length. -/
def lengthLoop : (count length : Nat) → Reader → Option (Nat × Reader)
  | 0, length, r => some (length, r)
  | count + 1, length, r => do
      let byte ← r.byte
      lengthLoop count ((length <<< 8) ||| byte.toNat) (r.skip 1)

/-- The end of `tamga_der_read`: the contents, if they are all there. -/
def readContent (tag : UInt8) (length : Nat) (r : Reader) : Option (Option (UInt8 × Bytes) × Reader) := do
  let left ← r.remaining
  if left < length then return (none, r)
  return (some (tag, (r.data.drop r.pos).take length), r.skip length)

/-- The long form of a length in `tamga_der_read`, and what follows it. -/
def readLong (tag : UInt8) (count : Nat) (r : Reader) : Option (Option (UInt8 × Bytes) × Reader) := do
  -- 0x80 is the indefinite form
  if count = 0 ∨ count > 4 then return (none, r)
  let left ← r.remaining
  if left < count then return (none, r)
  let lead ← r.byte
  if lead = 0 then return (none, r)
  let (length, r) ← lengthLoop count 0 r
  if length < 0x80 then return (none, r)
  readContent tag length r

/-- `tamga_der_read`: the tag and the contents, or that it refuses, and the reader left behind. -/
def derRead (r : Reader) : Option (Option (UInt8 × Bytes) × Reader) := do
  let remaining ← r.remaining
  if r.pos ≥ r.data.length ∨ remaining < 2 then return (none, r)
  let tag ← r.byte
  -- the high-tag-number form
  if tag &&& 0x1F = 0x1F then return (none, r)
  let r := r.skip 1
  let first ← r.byte
  let r := r.skip 1
  if first &&& 0x80 = 0 then readContent tag first.toNat r
  else readLong tag (first &&& 0x7F).toNat r

/-- `tamga_der_expect`. -/
def derExpect (tag : Nat) (r : Reader) : Option (Option Bytes × Reader) := do
  let (element, r) ← derRead r
  match element with
  | none => return (none, r)
  | some (actual, content) => return (if actual.toNat = tag then some content else none, r)

def derInteger : Nat := 0x02
def derBitString : Nat := 0x03
def derOid : Nat := 0x06
def derSequence : Nat := 0x30

/-- What `tamga_der_read_unsigned` makes of the contents of an integer. -/
def magnitude (content : Bytes) : Option (Option Bytes) := do
  if content.length = 0 then return none
  let lead ← content[0]?
  if lead &&& 0x80 ≠ 0 then return none
  if lead = 0 then
    if content.length = 1 then return some content
    let next ← content[1]?
    if next &&& 0x80 = 0 then return none
    return some (content.drop 1)
  return some content

/-- `tamga_der_read_unsigned`. -/
def derReadUnsigned (r : Reader) : Option (Option Bytes × Reader) := do
  let (content, r) ← derExpect derInteger r
  match content with
  | none => return (none, r)
  | some content => return (← magnitude content, r)

/-- `tamga_der_read_bit_string`: only whole bytes. -/
def derReadBitString (r : Reader) : Option (Option Bytes × Reader) := do
  let (content, r) ← derExpect derBitString r
  match content with
  | none => return (none, r)
  | some content =>
      if content.length < 1 then return (none, r)
      let unused ← content[0]?
      if unused ≠ 0 then return (none, r)
      return (some (content.drop 1), r)

/-- `tamga_der_expect_oid`. -/
def derExpectOid (expected : Option Bytes) (r : Reader) : Option (Bool × Reader) := do
  match expected with
  | none => return (false, r)
  | some expected =>
      let (content, r) ← derExpect derOid r
      match content with
      | none => return (false, r)
      | some content =>
          if content.length ≠ expected.length then return (false, r)
          return (content == expected, r)

/-! ## What is ahead of the reader -/

/-- The position is inside the buffer, or at its end. -/
def Reader.Valid (r : Reader) : Prop := r.pos ≤ r.data.length

/-- The bytes not read yet. -/
def Reader.rest (r : Reader) : Bytes := r.data.drop r.pos

/-- `r'` is `r` later on: the same bytes, no position given back, none past the end. -/
def Moves (r r' : Reader) : Prop := r'.data = r.data ∧ r.pos ≤ r'.pos ∧ r'.Valid

/-- The bytes read between two states. -/
def consumed (r r' : Reader) : Bytes := (r.data.drop r.pos).take (r'.pos - r.pos)

variable {r : Reader}

theorem derInit_valid (data : Option Bytes) : (derInit data).Valid := Nat.zero_le _

theorem Moves.refl (h : r.Valid) : Moves r r := ⟨rfl, le_refl _, h⟩

theorem Moves.trans {r' r'' : Reader} (h : Moves r r') (h' : Moves r' r'') : Moves r r'' :=
  ⟨h'.1.trans h.1, le_trans h.2.1 h'.2.1, h'.2.2⟩

theorem Reader.Valid.length_rest (h : r.Valid) : r.pos + r.rest.length = r.data.length := by
  unfold Valid at h
  rw [rest, List.length_drop]
  omega

@[simp] theorem rest_skip (n : Nat) : (r.skip n).rest = r.rest.drop n := by
  simp [Reader.rest, Reader.skip, List.drop_drop]

theorem skip_skip (m n : Nat) : (r.skip m).skip n = r.skip (m + n) := by
  simp [Reader.skip, Nat.add_assoc]

theorem skip_moves (h : r.Valid) {n : Nat} (hn : n ≤ r.rest.length) : Moves r (r.skip n) := by
  have hlen := h.length_rest
  refine ⟨rfl, Nat.le_add_right _ _, ?_⟩
  show r.pos + n ≤ r.data.length
  omega

theorem consumed_skip (n : Nat) : consumed r (r.skip n) = r.rest.take n := by
  simp [consumed, Reader.skip, Reader.rest]

theorem remaining_eq (h : r.Valid) : r.remaining = some r.rest.length := by
  unfold Reader.Valid at h
  rw [Reader.remaining, if_pos h, Reader.rest, List.length_drop]

theorem byte_eq : r.byte = r.rest.head? := by
  rw [Reader.byte, Reader.rest, List.head?_drop]

/-! ## Lengths -/

theorem and_80_eq_zero : ∀ b : UInt8, b &&& 0x80 = 0 ↔ b.toNat < 128 :=
  forall_byte (by decide +kernel)

theorem toNat_and_7f (b : UInt8) : (b &&& 0x7F).toNat = b.toNat % 128 := by
  rw [UInt8.toNat_and]
  exact Nat.and_two_pow_sub_one_eq_mod b.toNat 7

/-- The loop reads the octets ahead, most significant first. -/
theorem lengthLoop_eq (octets : Bytes) : ∀ (length : Nat) (r : Reader) (post : Bytes),
    r.rest = octets ++ post →
    lengthLoop octets.length length r =
      some (length * 256 ^ octets.length + be octets, r.skip octets.length) := by
  induction octets with
  | nil =>
    intro length r post _
    simp [lengthLoop, Reader.skip]
  | cons b octets ih =>
    intro length r post hrest
    have hbyte : r.byte = some b := by rw [byte_eq, hrest]; rfl
    have hor : (length <<< 8) ||| b.toNat = length * 256 + b.toNat := by
      rw [← Nat.shiftLeft_add_eq_or_of_lt (show b.toNat < 2 ^ 8 from b.toNat_lt), Nat.shiftLeft_eq]
    have hnext := ih (length * 256 + b.toNat) (r.skip 1) post (by rw [rest_skip, hrest]; rfl)
    rw [List.length_cons, lengthLoop, hbyte, Option.bind_eq_bind, Option.bind_some, hor, hnext, be_cons,
      skip_skip, Nat.add_comm 1]
    congr 2
    ring

theorem readContent_eq (h : r.Valid) (tag : UInt8) (length : Nat) : readContent tag length r =
    if r.rest.length < length then some (none, r) else some (some (tag, r.rest.take length),
        r.skip length) := by
  rw [readContent, remaining_eq h]
  dsimp only [Option.bind_eq_bind, Option.bind_some]
  split <;> rfl

/-- Too few bytes for a tag and a length. -/
theorem derRead_of_short (h : r.Valid) (hlen : r.rest.length < 2) : derRead r = some (none, r) := by
  rw [derRead, remaining_eq h]
  dsimp only [Option.bind_eq_bind, Option.bind_some]
  rw [if_pos (Or.inr hlen)]
  rfl

/-- A tag and the first length octet are there. -/
theorem derRead_of_header (h : r.Valid) {tag first : UInt8} {ahead : Bytes}
    (hrest : r.rest = tag :: first :: ahead) :
    derRead r = if tag &&& 0x1F = 0x1F then some (none, r)
      else if first.toNat < 128 then readContent tag first.toNat (r.skip 2)
      else readLong tag (first.toNat - 128) (r.skip 2) := by
  have hlen := h.length_rest
  rw [hrest, List.length_cons, List.length_cons] at hlen
  have htag : r.byte = some tag := by rw [byte_eq, hrest]; rfl
  have hfirst : (r.skip 1).byte = some first := by rw [byte_eq, rest_skip, hrest]; rfl
  rw [derRead, remaining_eq h, hrest]
  dsimp only [Option.bind_eq_bind, Option.bind_some]
  rw [if_neg (by simp only [List.length_cons]; omega), htag]
  dsimp only [Option.bind_some]
  rw [hfirst, skip_skip]
  dsimp only [Option.bind_some]
  split
  · rfl
  · by_cases hshort : first.toNat < 128
    · rw [if_pos ((and_80_eq_zero first).2 hshort), if_pos hshort]
    · have hmod : first.toNat % 128 = first.toNat - 128 := by
        have := first.toNat_lt
        omega
      rw [if_neg (fun hz => hshort ((and_80_eq_zero first).1 hz)), if_neg hshort, toNat_and_7f, hmod]

/-- The octets of a long length, and what is done with the length they spell. -/
theorem readLong_of_octets (h : r.Valid) (tag lead : UInt8) {more ahead : Bytes}
    (hrest : r.rest = lead :: more ++ ahead) (hcount : more.length < 4) :
    readLong tag (more.length + 1) r = if lead = 0 then some (none, r)
      else if be (lead :: more) < 128 then some (none, r.skip (more.length + 1))
      else readContent tag (be (lead :: more)) (r.skip (more.length + 1)) := by
  have hlead : r.byte = some lead := by rw [byte_eq, hrest]; rfl
  have hloop := lengthLoop_eq (lead :: more) 0 r ahead hrest
  rw [List.length_cons, Nat.zero_mul, Nat.zero_add] at hloop
  rw [readLong, if_neg (by omega), remaining_eq h, hrest]
  dsimp only [Option.bind_eq_bind, Option.bind_some]
  rw [if_neg (by simp), hlead]
  dsimp only [Option.bind_some]
  rw [hloop]
  dsimp only [Option.bind_some]
  split
  · rfl
  · split <;> rfl

/-- A count that the buffer, or the reader, does not take. -/
theorem readLong_of_bad_count (h : r.Valid) (tag : UInt8) {count : Nat}
    (hcount : count = 0 ∨ 4 < count ∨ r.rest.length < count) : readLong tag count r = some (none, r) := by
  rw [readLong, remaining_eq h]
  dsimp only [Option.bind_eq_bind, Option.bind_some]
  split
  · rfl
  · rw [if_pos (by omega)]
    rfl

/-! ## Elements -/

/-- The one spelling of an element: the tag, the shortest length, the contents. -/
structure Element (tag : UInt8) (content bytes : Bytes) : Prop where
  low : tag &&& 0x1F ≠ 0x1F
  short : content.length < 2 ^ 32
  spelled : ∃ octets, Shortest LengthOctets content.length octets ∧ bytes = tag :: octets ++ content

variable {tag : UInt8}

theorem Element.eq {content x y : Bytes} (hx : Element tag content x) (hy : Element tag content y) :
    x = y := by
  obtain ⟨octets, hoctets, rfl⟩ := hx.spelled
  obtain ⟨octets', hoctets', rfl⟩ := hy.spelled
  rw [hoctets.eq lengthOctets_inj hoctets']

/-- The contents are all there. -/
theorem readContent_of_append (h : r.Valid) (tag : UInt8) {content post : Bytes}
    (hrest : r.rest = content ++ post) :
    readContent tag content.length r = some (some (tag, content), r.skip content.length) := by
  rw [readContent_eq h, hrest, if_neg (by simp), List.take_left]

variable {content bytes post : Bytes}

/-- **Complete.** Every element is read, with whatever follows it. -/
theorem derRead_element (h : r.Valid) (helement : Element tag content bytes)
    (hrest : r.rest = bytes ++ post) : derRead r = some (some (tag, content), r.skip bytes.length) := by
  obtain ⟨octets, hoctets, rfl⟩ := helement.spelled
  have hshort := helement.short
  have hvalid : ∀ n ≤ r.rest.length, (r.skip n).Valid := fun n hn => (skip_moves h hn).2.2
  rcases shortest_length_iff.1 hoctets with ⟨hsmall, rfl⟩ | ⟨hbig, lead, more, hlead, -, hbe, rfl⟩
  · have hfirst : (UInt8.ofNat content.length).toNat = content.length :=
        UInt8.toNat_ofNat_of_lt' (show content.length < 256 by omega)
    have hafter : (r.skip 2).rest = content ++ post := by rw [rest_skip, hrest]; rfl
    rw [derRead_of_header h hrest, if_neg helement.low, hfirst, if_pos hsmall,
      readContent_of_append (hvalid 2 (by rw [hrest]; simp)) tag hafter, skip_skip]
    congr 3
    rw [Nat.add_comm]
    rfl
  · -- four octets hold the length, since it is below `2 ^ 32`
    have hcount : more.length < 4 := by
      have hlow := pow_le_be hlead more
      rw [hbe] at hlow
      exact (Nat.pow_lt_pow_iff_right (by decide : 1 < 256)).mp (lt_of_le_of_lt hlow hshort)
    have hfirst : (UInt8.ofNat (128 + (more.length + 1))).toNat = 128 + (more.length + 1) :=
      UInt8.toNat_ofNat_of_lt' (show 128 + (more.length + 1) < 256 by omega)
    have hafter : (r.skip 2).rest = lead :: more ++ (content ++ post) := by
      rw [rest_skip, hrest]
      simp
    have hlen : r.rest.length = 2 + (more.length + 1) + content.length + post.length := by
      rw [hrest]
      simp only [List.length_cons, List.length_append]
      omega
    have hcontent : (r.skip (2 + (more.length + 1))).rest = content ++ post := by
      rw [← skip_skip, rest_skip, hafter, ← List.length_cons, List.drop_left]
    rw [derRead_of_header h hrest, if_neg helement.low, hfirst, if_neg (by omega), Nat.add_sub_cancel_left,
      readLong_of_octets (hvalid 2 (by omega)) tag lead hafter hcount, if_neg hlead, hbe, if_neg (by omega),
      skip_skip, readContent_of_append (hvalid _ (by omega)) tag hcontent, skip_skip]
    congr 3
    simp only [List.length_cons, List.length_append]
    omega

/-- A long length is refused, or it is the shortest one of contents that are all there. -/
theorem readLong_cases (h : r.Valid) (tag : UInt8) (count : Nat) :
    (∃ r', readLong tag count r = some (none, r') ∧ Moves r r') ∨
      ∃ octets content post, r.rest = octets ++ (content ++ post) ∧ content.length < 2 ^ 32 ∧
        Shortest LengthOctets content.length (UInt8.ofNat (128 + count) :: octets) := by
  by_cases hbad : count = 0 ∨ 4 < count ∨ r.rest.length < count
  · exact Or.inl ⟨r, readLong_of_bad_count h tag hbad, .refl h⟩
  obtain ⟨lead, tail, hrest⟩ : ∃ lead tail, r.rest = lead :: tail := by
    apply List.exists_cons_of_ne_nil
    intro hnil
    rw [hnil, List.length_nil] at hbad
    omega
  obtain ⟨more, rfl⟩ : ∃ more, count = more + 1 := ⟨count - 1, by omega⟩
  rw [hrest, List.length_cons] at hbad
  have hmore : (tail.take more).length = more := by rw [List.length_take]; omega
  have hsplit : r.rest = lead :: tail.take more ++ tail.drop more := by rw [hrest]; simp
  have hread := readLong_of_octets h tag lead hsplit (by omega)
  have hmoved : Moves r (r.skip (more + 1)) := skip_moves h (by rw [hrest, List.length_cons]; omega)
  have hafter : (r.skip (more + 1)).rest = tail.drop more := by rw [rest_skip, hrest]; rfl
  have hbound := be_lt (lead :: tail.take more)
  rw [hmore, readContent_eq hmoved.2.2, hafter] at hread
  rw [List.length_cons, hmore] at hbound
  by_cases hlead : lead = 0
  · exact Or.inl ⟨r, by rw [hread, if_pos hlead], .refl h⟩
  rw [if_neg hlead] at hread
  by_cases hpadded : be (lead :: tail.take more) < 128
  · exact Or.inl ⟨_, by rw [hread, if_pos hpadded], hmoved⟩
  rw [if_neg hpadded] at hread
  by_cases hmissing : (tail.drop more).length < be (lead :: tail.take more)
  · exact Or.inl ⟨_, by rw [hread, if_pos hmissing], hmoved⟩
  have htake : ((tail.drop more).take (be (lead :: tail.take more))).length =
      be (lead :: tail.take more) := by
    rw [List.length_take]
    omega
  refine Or.inr ⟨lead :: tail.take more, (tail.drop more).take (be (lead :: tail.take more)),
    (tail.drop more).drop (be (lead :: tail.take more)), ?_, ?_, ?_⟩
  · rw [List.take_append_drop, hsplit]
  · rw [htake]
    exact lt_of_lt_of_le hbound (Nat.pow_le_pow_right (by decide : 0 < 256) (by omega : more + 1 ≤ 4))
  · rw [htake]
    refine shortest_length_iff.2 (Or.inr ⟨by omega, lead, tail.take more, hlead, by omega, rfl, ?_⟩)
    rw [hmore]

/-- `tamga_der_read` refuses, or it reads one element. -/
theorem derRead_cases (h : r.Valid) : (∃ r', derRead r = some (none, r') ∧ Moves r r') ∨
    ∃ tag content bytes post, Element tag content bytes ∧ r.rest = bytes ++ post ∧
      derRead r = some (some (tag, content), r.skip bytes.length) := by
  -- it is enough to find the element: reading it is `derRead_element`
  suffices hfind : (∃ r', derRead r = some (none, r') ∧ Moves r r') ∨
      ∃ tag content bytes post, Element tag content bytes ∧ r.rest = bytes ++ post by
    rcases hfind with hrefused | ⟨tag, content, bytes, post, helement, hrest⟩
    · exact Or.inl hrefused
    · exact Or.inr ⟨tag, content, bytes, post, helement, hrest, derRead_element h helement hrest⟩
  by_cases hlen : r.rest.length < 2
  · exact Or.inl ⟨r, derRead_of_short h hlen, .refl h⟩
  obtain ⟨tag, first, ahead, hrest⟩ : ∃ tag first ahead, r.rest = tag :: first :: ahead := by
    obtain ⟨tag, tail, htail⟩ := List.exists_cons_of_length_pos (by omega : 0 < r.rest.length)
    rw [htail, List.length_cons] at hlen
    obtain ⟨first, ahead, rfl⟩ := List.exists_cons_of_length_pos (by omega : 0 < tail.length)
    exact ⟨tag, first, ahead, htail⟩
  have hread := derRead_of_header h hrest
  have hmoved : Moves r (r.skip 2) := skip_moves h (by omega)
  have hafter : (r.skip 2).rest = ahead := by rw [rest_skip, hrest]; rfl
  by_cases hlow : tag &&& 0x1F = 0x1F
  · exact Or.inl ⟨r, by rw [hread, if_pos hlow], .refl h⟩
  rw [if_neg hlow] at hread
  by_cases hshort : first.toNat < 128
  · rw [if_pos hshort, readContent_eq hmoved.2.2, hafter] at hread
    by_cases hmissing : ahead.length < first.toNat
    · exact Or.inl ⟨r.skip 2, by rw [hread, if_pos hmissing], hmoved⟩
    have htake : (ahead.take first.toNat).length = first.toNat := by rw [List.length_take]; omega
    refine Or.inr ⟨tag, ahead.take first.toNat, tag :: [first] ++ ahead.take first.toNat,
      ahead.drop first.toNat, ⟨hlow, by omega, [first], ?_, rfl⟩, by rw [hrest]; simp⟩
    rw [htake]
    exact shortest_length_iff.2 (Or.inl ⟨hshort, by simp⟩)
  · rw [if_neg hshort] at hread
    rcases readLong_cases hmoved.2.2 tag (first.toNat - 128) with
      ⟨r', hrefused, hmoved'⟩ | ⟨octets, content, post, hsplit, hlength, hoctets⟩
    · exact Or.inl ⟨r', hread.trans hrefused, hmoved.trans hmoved'⟩
    · rw [Nat.add_sub_cancel' (by omega), UInt8.ofNat_toNat] at hoctets
      refine Or.inr ⟨tag, content, tag :: (first :: octets) ++ content, post,
        ⟨hlow, hlength, first :: octets, hoctets, rfl⟩, ?_⟩
      rw [hrest, ← hafter, hsplit]
      simp

theorem element_moves (h : r.Valid) {bytes post : Bytes} (hrest : r.rest = bytes ++ post) :
    Moves r (r.skip bytes.length) := skip_moves h (by rw [hrest]; simp)

theorem derRead_moves (h : r.Valid) : ∃ element r', derRead r = some (element, r') ∧ Moves r r' := by
  rcases derRead_cases h with ⟨r', hread, hmoved⟩ | ⟨tag, content, bytes, post, -, hrest, hread⟩
  · exact ⟨none, r', hread, hmoved⟩
  · exact ⟨some (tag, content), _, hread, element_moves h hrest⟩

variable {r' : Reader}

/-- **Sound.** What was read is one element, and exactly its bytes were consumed. -/
theorem element_of_derRead (h : r.Valid) {content : Bytes}
    (hread : derRead r = some (some (tag, content), r')) :
    ∃ bytes post, Element tag content bytes ∧ r.rest = bytes ++ post ∧ r' = r.skip bytes.length := by
  rcases derRead_cases h with ⟨r'', hrefused, -⟩ | ⟨tag', content', bytes, post, helement, hrest, hread'⟩
  · rw [hrefused] at hread
    simp at hread
  · rw [hread'] at hread
    simp only [Option.some.injEq, Prod.mk.injEq] at hread
    obtain ⟨⟨rfl, rfl⟩, rfl⟩ := hread
    exact ⟨bytes, post, helement, hrest, rfl⟩

theorem consumed_element {bytes post : Bytes} (hrest : r.rest = bytes ++ post) :
    consumed r (r.skip bytes.length) = bytes := by
  rw [consumed_skip, hrest, List.take_left]

/-! ## The other calls -/

theorem derExpect_eq {tag : Nat} {element : Option (UInt8 × Bytes)} (hread : derRead r = some (element, r')) :
    derExpect tag r = some ((element.filter fun e => e.1.toNat = tag).map Prod.snd, r') := by
  rw [derExpect, hread]
  cases element with
  | none => rfl
  | some e =>
    obtain ⟨actual, content⟩ := e
    by_cases h : actual.toNat = tag <;> simp [h]

theorem derExpect_moves (h : r.Valid) (tag : Nat) :
    ∃ content r', derExpect tag r = some (content, r') ∧ Moves r r' := by
  obtain ⟨element, r', hread, hmoved⟩ := derRead_moves h
  exact ⟨_, r', derExpect_eq hread, hmoved⟩

theorem derExpect_element (h : r.Valid) (helement : Element tag content bytes)
    (hrest : r.rest = bytes ++ post) : derExpect tag.toNat r = some (some content, r.skip bytes.length) := by
  rw [derExpect_eq (derRead_element h helement hrest)]
  simp

theorem element_of_derExpect (h : r.Valid) {tag : Nat} {content : Bytes}
    (hexpect : derExpect tag r = some (some content, r')) : ∃ (actual : UInt8) (bytes post : Bytes),
      actual.toNat = tag ∧ Element actual content bytes ∧ r.rest = bytes ++ post ∧
        r' = r.skip bytes.length := by
  obtain ⟨element, r'', hread, -⟩ := derRead_moves h
  rw [derExpect_eq hread] at hexpect
  simp only [Option.some.injEq, Prod.mk.injEq, Option.map_eq_some_iff, Option.filter_eq_some_iff,
    decide_eq_true_eq] at hexpect
  obtain ⟨⟨⟨actual, content'⟩, ⟨rfl, htag⟩, rfl⟩, rfl⟩ := hexpect
  obtain ⟨bytes, post, helement, hrest, rfl⟩ := element_of_derRead h hread
  exact ⟨actual, bytes, post, htag, helement, hrest, rfl⟩

/-- The magnitude is taken from the shortest contents of a number, and from nothing else. -/
theorem magnitude_cases (content : Bytes) :
    (∃ value, magnitude content = some (some value) ∧ Shortest IntegerOctets (be value) content) ∨
      magnitude content = some none ∧ ∀ n : Nat, ¬Shortest IntegerOctets n content := by
  cases content with
  | nil => exact Or.inr ⟨rfl, fun n hn => hn.1.1 rfl⟩
  | cons lead rest =>
    have hhigh := and_80_eq_zero lead
    by_cases hneg : lead.toNat < 128
    · by_cases hzero : lead = 0
      · cases rest with
        | nil =>
          refine Or.inl ⟨[lead], by simp [magnitude, hzero], shortest_integer_iff.2 ⟨hneg, rfl, ?_⟩⟩
          intro _ c more hnil
          simp at hnil
        | cons next more =>
          have hnext := and_80_eq_zero next
          by_cases hminimal : next.toNat < 128
          · refine Or.inr ⟨by simp [magnitude, hzero, hnext.2 hminimal], ?_⟩
            intro n hn
            have := (shortest_integer_iff.1 hn).2.2 hzero next more rfl
            omega
          · refine Or.inl ⟨next :: more, ?_, shortest_integer_iff.2 ⟨hneg, ?_, ?_⟩⟩
            · have hset : ¬(next &&& 0x80 = 0) := fun hz => hminimal (hnext.1 hz)
              simp [magnitude, hzero, hset]
            · rw [be_cons lead, hzero]
              simp
            · intro _ c tail hcons
              obtain ⟨rfl, rfl⟩ := List.cons.inj hcons
              omega
      · refine Or.inl ⟨lead :: rest, by simp [magnitude, hhigh.2 hneg, hzero], ?_⟩
        exact shortest_integer_iff.2 ⟨hneg, rfl, fun hz => absurd hz hzero⟩
    · have hset : lead &&& 0x80 ≠ 0 := fun hz => hneg (hhigh.1 hz)
      refine Or.inr ⟨by simp [magnitude, hset], ?_⟩
      intro n hn
      exact hneg (shortest_integer_iff.1 hn).1

/-- A call that asks for an element and then looks at its contents. -/
def onContent {α : Type} (tag : Nat) (f : Bytes → Option (Option α))
    (r : Reader) : Option (Option α × Reader) := do
  let (content, r) ← derExpect tag r
  match content with
  | none => return (none, r)
  | some content => return (← f content, r)

section OnContent

variable {α : Type} {f : Bytes → Option (Option α)}

theorem onContent_eq {tag : Nat} {content : Option Bytes} (hexpect : derExpect tag r = some (content, r')) :
    onContent tag f r = (content.elim (some none) f).map (·, r') := by
  rw [onContent, hexpect]
  cases content with
  | none => rfl
  | some content =>
    show (f content >>= fun value => some (value, r')) = (f content).map (·, r')
    cases f content <;> rfl

theorem onContent_moves (h : r.Valid) (hf : ∀ content, (f content).isSome) (tag : Nat) :
    ∃ value r', onContent tag f r = some (value, r') ∧ Moves r r' := by
  obtain ⟨content, r', hexpect, hmoved⟩ := derExpect_moves h tag
  rw [onContent_eq hexpect]
  cases content with
  | none => exact ⟨none, r', rfl, hmoved⟩
  | some content =>
    obtain ⟨value, hvalue⟩ := Option.isSome_iff_exists.mp (hf content)
    exact ⟨value, r', by rw [Option.elim_some, hvalue, Option.map_some], hmoved⟩

/-- Such a call takes the elements whose contents it likes. -/
theorem onContent_iff (h : r.Valid) (tag : UInt8) {a : α} : onContent tag.toNat f r = some (some a, r') ↔
    ∃ content bytes post, f content = some (some a) ∧ Element tag content bytes ∧ r.rest = bytes ++ post ∧
      r' = r.skip bytes.length := by
  constructor
  · intro hread
    obtain ⟨content, r'', hexpect, -⟩ := derExpect_moves h tag.toNat
    rw [onContent_eq hexpect] at hread
    obtain ⟨value, hvalue, heq⟩ := Option.map_eq_some_iff.mp hread
    cases heq
    cases content with
    | none => cases hvalue
    | some content =>
      obtain ⟨actual, bytes, post, htag, helement, hrest, rfl⟩ := element_of_derExpect h hexpect
      cases UInt8.toNat_inj.mp htag
      exact ⟨content, bytes, post, hvalue, helement, hrest, rfl⟩
  · rintro ⟨content, bytes, post, hvalue, helement, hrest, rfl⟩
    rw [onContent_eq (derExpect_element h helement hrest), Option.elim_some, hvalue, Option.map_some]

end OnContent

theorem magnitude_isSome (content : Bytes) : (magnitude content).isSome := by
  rcases magnitude_cases content with ⟨value, hm, -⟩ | ⟨hm, -⟩ <;> simp [hm]

/-- What `tamga_der_read_bit_string` makes of the contents. -/
def wholeBytes : Bytes → Option Bytes
  | 0 :: value => some value
  | _ => none

theorem wholeBytes_iff {value : Bytes} : wholeBytes content = some value ↔ content = 0 :: value := by
  unfold wholeBytes
  split
  · simp
  · rename_i hne
    simp only [reduceCtorEq, false_iff]
    rintro rfl
    exact hne value rfl

theorem derReadBitString_eq :
    derReadBitString r = onContent derBitString (fun c => some (wholeBytes c)) r := by
  unfold derReadBitString onContent
  refine bind_congr fun (content, r') => ?_
  rcases content with _ | _ | ⟨unused, value⟩
  · rfl
  · rfl
  · by_cases hzero : unused = 0
    · simp [hzero, wholeBytes]
    · simp [hzero, wholeBytes]

theorem derExpectOid_eq (expected : Bytes) : derExpectOid (some expected) r =
    (onContent derOid (fun c => some (if c = expected then some () else none)) r).map
      fun (answer, r') => (answer.isSome, r') := by
  unfold derExpectOid onContent
  cases derExpect derOid r with
  | none => rfl
  | some e =>
    obtain ⟨_ | content, r'⟩ := e
    · rfl
    · by_cases hsame : content = expected
      · simp [hsame]
      · by_cases hlen : content.length = expected.length <;> simp [hsame, hlen]

/-! ## Sequences of calls -/

/-- A call on a reader. -/
inductive Call where
  | atEnd
  | read
  | expect (tag : Nat)
  | readUnsigned
  | readBitString
  | expectOid (expected : Option Bytes)

/-- The reader a call leaves behind, whatever it answers. -/
def Call.run : Call → Reader → Option Reader
  | .atEnd, r => some r
  | .read, r => (derRead r).map Prod.snd
  | .expect tag, r => (derExpect tag r).map Prod.snd
  | .readUnsigned, r => (derReadUnsigned r).map Prod.snd
  | .readBitString, r => (derReadBitString r).map Prod.snd
  | .expectOid expected, r => (derExpectOid expected r).map Prod.snd

/-- One call after another. -/
def run (calls : List Call) (r : Reader) : Option Reader := calls.foldlM (fun r call => call.run r) r

/-- One call: it answers, and the reader only moves forward, inside the buffer. -/
theorem call_moves (h : r.Valid) (call : Call) : ∃ r', call.run r = some r' ∧ Moves r r' := by
  have hsnd {α : Type} {x : Option (α × Reader)} (hx : ∃ a r', x = some (a, r') ∧ Moves r r') :
      ∃ r', x.map Prod.snd = some r' ∧ Moves r r' := by
    obtain ⟨a, r', rfl, hmoved⟩ := hx
    exact ⟨r', rfl, hmoved⟩
  cases call with
  | atEnd => exact ⟨r, rfl, .refl h⟩
  | read => exact hsnd (derRead_moves h)
  | expect tag => exact hsnd (derExpect_moves h tag)
  | readUnsigned => exact hsnd (onContent_moves h magnitude_isSome derInteger)
  | readBitString =>
    rw [Call.run, derReadBitString_eq]
    exact hsnd (onContent_moves h (fun _ => rfl) _)
  | expectOid expected =>
    cases expected with
    | none => exact ⟨r, rfl, .refl h⟩
    | some expected =>
      rw [Call.run, derExpectOid_eq, Option.map_map]
      exact hsnd (onContent_moves h (fun _ => rfl) _)

/-- Any number of them. -/
theorem run_moves (calls : List Call) : ∀ r : Reader, r.Valid → ∃ r', run calls r = some r' ∧ Moves r r' := by
  induction calls with
  | nil =>
    intro r h
    exact ⟨r, rfl, .refl h⟩
  | cons call calls ih =>
    intro r h
    obtain ⟨r', hcall, hmoved⟩ := call_moves h call
    obtain ⟨r'', hrun, hmoved'⟩ := ih r' hmoved.2.2
    refine ⟨r'', ?_, hmoved.trans hmoved'⟩
    rw [run, List.foldlM_cons, hcall]
    exact hrun

/-- A reader some calls have led to. -/
def Reached (r : Reader) : Prop := ∃ data calls, run calls (derInit data) = some r

theorem Reached.valid (h : Reached r) : r.Valid := by
  obtain ⟨data, calls, hrun⟩ := h
  obtain ⟨r', hrun', hmoved⟩ := run_moves calls _ (derInit_valid data)
  cases hrun.symm.trans hrun'
  exact hmoved.2.2

/-- What a strict reader does in one state. -/
structure Strict (r : Reader) : Prop where
  inside : r.pos ≤ r.data.length
  forward : ∀ call : Call, ∃ r', call.run r = some r' ∧ r'.data = r.data ∧ r.pos ≤ r'.pos
  sound : ∀ tag content r', derRead r = some (some (tag, content), r') → ∃ octets,
    Shortest LengthOctets content.length octets ∧ consumed r r' = tag :: octets ++ content
  complete : ∀ (tag : UInt8) content octets post, tag &&& 0x1F ≠ 0x1F → content.length < 2 ^ 32 →
    Shortest LengthOctets content.length octets → r.rest = tag :: octets ++ content ++ post →
      ∃ r', derRead r = some (some (tag, content), r') ∧ consumed r r' = tag :: octets ++ content
  soundUnsigned : ∀ value r', derReadUnsigned r = some (some value, r') → ∃ content,
    derRead r = some (some (0x02, content), r') ∧ Shortest IntegerOctets (be value) content
  completeUnsigned : ∀ (n : Nat) content r', derRead r = some (some (0x02, content), r') →
    Shortest IntegerOctets n content → ∃ value, derReadUnsigned r = some (some value, r') ∧ be value = n

theorem strict_of_valid (h : r.Valid) : Strict r where
  inside := h
  forward := by
    intro call
    obtain ⟨r', hcall, hmoved⟩ := call_moves h call
    exact ⟨r', hcall, hmoved.1, hmoved.2.1⟩
  sound := by
    intro tag content r' hread
    obtain ⟨bytes, post, helement, hrest, rfl⟩ := element_of_derRead h hread
    obtain ⟨octets, hoctets, rfl⟩ := helement.spelled
    exact ⟨octets, hoctets, consumed_element hrest⟩
  complete := by
    intro tag content octets post hlow hlen hoctets hrest
    exact ⟨_, derRead_element h ⟨hlow, hlen, octets, hoctets, rfl⟩ hrest, consumed_element hrest⟩
  soundUnsigned := by
    intro value r' hread
    obtain ⟨content, bytes, post, hvalue, helement, hrest, rfl⟩ := (onContent_iff h 0x02).1 hread
    refine ⟨content, derRead_element h helement hrest, ?_⟩
    rcases magnitude_cases content with ⟨other, hm, hshortest⟩ | ⟨hm, -⟩
    · cases hm.symm.trans hvalue
      exact hshortest
    · cases hm.symm.trans hvalue
  completeUnsigned := by
    intro n content r' hread hshortest
    obtain ⟨bytes, post, helement, hrest, rfl⟩ := element_of_derRead h hread
    rcases magnitude_cases content with ⟨value, hm, hshortest'⟩ | ⟨-, hnone⟩
    · refine ⟨value, (onContent_iff h 0x02).2 ⟨content, bytes, post, hm, helement, hrest, rfl⟩, ?_⟩
      have hsame : ((be value : Nat) : Int) = n := hshortest'.1.2.symm.trans hshortest.1.2
      exact_mod_cast hsame
    · exact absurd hshortest (hnone n)

/-- **The reader is strict.** No sequence of calls reads outside the buffer; wherever it leads, what is
    read next is one element under its shortest header, every such element is read, and two readings of
    one element consumed the same bytes. -/
theorem reader_strict :
    (∀ data calls, ∃ r, run calls (derInit data) = some r ∧ r.data = data.getD []) ∧
      (∀ r, Reached r → Strict r) ∧
      (∀ n < 2 ^ 32, ∃ octets, Shortest LengthOctets n octets ∧
        ∀ other, Shortest LengthOctets n other → other = octets) ∧
      ∀ r s tag content r' s', Reached r → Reached s → derRead r = some (some (tag, content), r') →
        derRead s = some (some (tag, content), s') → consumed r r' = consumed s s' := by
  refine ⟨?_, fun r hr => strict_of_valid hr.valid, ?_, ?_⟩
  · intro data calls
    obtain ⟨r, hrun, hmoved⟩ := run_moves calls _ (derInit_valid data)
    exact ⟨r, hrun, hmoved.1⟩
  · intro n hn
    obtain ⟨octets, hoctets⟩ := exists_shortest_length (lt_trans hn (by norm_num))
    exact ⟨octets, hoctets, fun other hother => hother.eq lengthOctets_inj hoctets⟩
  · intro r s tag content r' s' hr hs hread hread'
    obtain ⟨bytes, post, helement, hrest, rfl⟩ := element_of_derRead hr.valid hread
    obtain ⟨bytes', post', helement', hrest', rfl⟩ := element_of_derRead hs.valid hread'
    rw [consumed_element hrest, consumed_element hrest', helement.eq helement']

/-- The integer 128 behind its tag: one byte of length, a zero that keeps it positive. -/
theorem reader_strict_integer : Reached (derInit (some [0x02, 0x02, 0x00, 0x80])) ∧
    Strict (derInit (some [0x02, 0x02, 0x00, 0x80])) ∧
    derReadUnsigned (derInit (some [0x02, 0x02, 0x00, 0x80])) =
      some (some [0x80], ⟨[0x02, 0x02, 0x00, 0x80], 4⟩) :=
  ⟨⟨_, [], rfl⟩, reader_strict.2.1 _ ⟨_, [], rfl⟩, rfl⟩

end Tamga.Der
