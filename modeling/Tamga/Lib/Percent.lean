import Mathlib.Tactic

/-!
# `Lib.Percent` — percent-encoding and query strings

`encode` keeps RFC 3986's unreserved bytes and writes every other byte as `%` and two upper-case hex
digits; `decode` reads that back. A query is rendered as `name=value` parts joined by `&`, both sides
encoded, and parsed by splitting at `&` and then at the first `=`. Neither separator is an unreserved
byte, so parsing undoes rendering (`parse_render`), whatever bytes the names and values have.
-/

namespace Percent

def percent : UInt8 := 0x25
def ampersand : UInt8 := 0x26
def equals : UInt8 := 0x3D

/-- `A-Z a-z 0-9 - _ . ~` -/
def unreserved (c : UInt8) : Bool :=
  (0x41 ≤ c && c ≤ 0x5A) || (0x61 ≤ c && c ≤ 0x7A) || (0x30 ≤ c && c ≤ 0x39) || c = 0x2D || c = 0x5F ||
    c = 0x2E || c = 0x7E

def hexDigit (n : Nat) : UInt8 := UInt8.ofNat (if n < 10 then 0x30 + n else 0x37 + n)

def hexValue (c : UInt8) : Option Nat :=
  if 0x30 ≤ c ∧ c ≤ 0x39 then some (c.toNat - 0x30)
  else if 0x41 ≤ c ∧ c ≤ 0x46 then some (c.toNat - 0x37)
  else if 0x61 ≤ c ∧ c ≤ 0x66 then some (c.toNat - 0x57)
  else none

def encodeByte (c : UInt8) : List UInt8 :=
  if unreserved c then [c] else [percent, hexDigit (c.toNat / 16), hexDigit (c.toNat % 16)]

def encode (s : List UInt8) : List UInt8 := s.flatMap encodeByte

/-- A `%` that two hex digits do not follow stands for itself. -/
def decode : List UInt8 → List UInt8
  | [] => []
  | c :: rest =>
      if c ≠ percent then c :: decode rest
      else
        match rest with
        | h :: l :: rest =>
            match hexValue h, hexValue l with
            | some h, some l => UInt8.ofNat (16 * h + l) :: decode rest
            | _, _ => c :: decode (h :: l :: rest)
        | rest => c :: decode rest

theorem hexValue_hexDigit {n : Nat} (h : n < 16) : hexValue (hexDigit n) = some n := by
  interval_cases n <;> decide

theorem unreserved_hexDigit {n : Nat} (h : n < 16) : unreserved (hexDigit n) = true := by
  interval_cases n <;> decide

theorem unreserved_ne {c : UInt8} (h : unreserved c = true) :
    c ≠ percent ∧ c ≠ ampersand ∧ c ≠ equals := by
  refine ⟨?_, ?_, ?_⟩
  · rintro rfl; exact absurd h (by decide)
  · rintro rfl; exact absurd h (by decide)
  · rintro rfl; exact absurd h (by decide)

/-- One byte is read back, whatever follows. -/
theorem decode_encodeByte_append (c : UInt8) (rest : List UInt8) :
    decode (encodeByte c ++ rest) = c :: decode rest := by
  unfold encodeByte
  split
  · rename_i hc
    show decode (c :: rest) = _
    rw [decode.eq_def]
    exact if_pos (unreserved_ne hc).1
  · have hhi : c.toNat / 16 < 16 := by have := c.toNat_lt; omega
    show decode (percent :: hexDigit (c.toNat / 16) :: hexDigit (c.toNat % 16) :: rest) = _
    rw [decode.eq_def]
    simp only [ne_eq, not_true_eq_false, if_false, hexValue_hexDigit hhi,
      hexValue_hexDigit (Nat.mod_lt _ (by decide : 16 > 0))]
    rw [show 16 * (c.toNat / 16) + c.toNat % 16 = c.toNat by omega, UInt8.ofNat_toNat]

/-- **Round trip.** -/
theorem decode_encode (s : List UInt8) : decode (encode s) = s := by
  induction s with
  | nil => rfl
  | cons c s ih =>
    show decode (encodeByte c ++ encode s) = _
    rw [decode_encodeByte_append, ih]

/-- A text of unreserved bytes is its own encoding. -/
theorem encode_eq_self {s : List UInt8} (h : ∀ c ∈ s, unreserved c = true) : encode s = s := by
  induction s with
  | nil => rfl
  | cons c s ih =>
    show encodeByte c ++ encode s = _
    rw [ih fun d hd => h d (List.mem_cons_of_mem _ hd), encodeByte, if_pos (h c List.mem_cons_self)]
    rfl

/-- An encoded text has unreserved bytes and `%` only. -/
theorem mem_encode {s : List UInt8} {c : UInt8} (h : c ∈ encode s) :
    unreserved c = true ∨ c = percent := by
  obtain ⟨b, -, hc⟩ := List.mem_flatMap.mp h
  unfold encodeByte at hc
  split at hc
  · rename_i hb
    rw [List.mem_singleton] at hc
    exact Or.inl (hc ▸ hb)
  · have hhi : b.toNat / 16 < 16 := by have := b.toNat_lt; omega
    simp only [List.mem_cons, List.not_mem_nil, or_false] at hc
    rcases hc with rfl | rfl | rfl
    · exact Or.inr rfl
    · exact Or.inl (unreserved_hexDigit hhi)
    · exact Or.inl (unreserved_hexDigit (Nat.mod_lt _ (by decide)))

theorem separator_notMem_encode (s : List UInt8) : ampersand ∉ encode s ∧ equals ∉ encode s := by
  constructor
  · intro h
    rcases mem_encode h with h | h
    · exact absurd h (by decide)
    · exact absurd h (by decide)
  · intro h
    rcases mem_encode h with h | h
    · exact absurd h (by decide)
    · exact absurd h (by decide)

/-! ## Queries -/

def renderPair (pair : List UInt8 × List UInt8) : List UInt8 :=
  encode pair.1 ++ equals :: encode pair.2

/-- `name=value` parts joined by `&`. -/
def render (pairs : List (List UInt8 × List UInt8)) : List UInt8 :=
  [ampersand].intercalate (pairs.map renderPair)

/-- One part, cut at the first `=`. -/
def parsePair (part : List UInt8) : List UInt8 × List UInt8 :=
  (decode (part.takeWhile (· ≠ equals)), decode ((part.dropWhile (· ≠ equals)).drop 1))

def parse (query : List UInt8) : List (List UInt8 × List UInt8) :=
  (query.splitOn ampersand).map parsePair

theorem parsePair_renderPair (pair : List UInt8 × List UInt8) :
    parsePair (renderPair pair) = pair := by
  obtain ⟨name, value⟩ := pair
  have hname : ∀ c ∈ encode name, decide (c ≠ equals) = true := by
    intro c hc
    simp only [ne_eq, decide_not, Bool.not_eq_true', decide_eq_false_iff_not]
    rintro rfl
    exact (separator_notMem_encode name).2 hc
  unfold parsePair renderPair
  rw [List.takeWhile_append_of_pos hname, List.dropWhile_append_of_pos hname]
  rw [List.takeWhile_cons_of_neg (by simp), List.dropWhile_cons_of_neg (by simp)]
  rw [List.append_nil, decode_encode, List.drop_one, List.tail_cons, decode_encode]

/-- **Queries.** Parsing gives back the pairs that were rendered. -/
theorem parse_render {pairs : List (List UInt8 × List UInt8)} (h : pairs ≠ []) :
    parse (render pairs) = pairs := by
  unfold parse render
  rw [List.splitOn_intercalate ampersand _ (by simpa using h)]
  · rw [List.map_map]
    calc pairs.map (parsePair ∘ renderPair)
        = pairs.map id := List.map_congr_left fun pair _ => parsePair_renderPair pair
      _ = pairs := List.map_id pairs
  · intro part hpart hamp
    obtain ⟨pair, -, rfl⟩ := List.mem_map.mp hpart
    rcases List.mem_append.mp hamp with h | h
    · exact (separator_notMem_encode pair.1).1 h
    · rcases List.mem_cons.mp h with h | h
      · exact absurd h (by decide)
      · exact (separator_notMem_encode pair.2).1 h

theorem render_cons_cons (p q : List UInt8 × List UInt8) (pairs : List (List UInt8 × List UInt8)) :
    render (p :: q :: pairs) = renderPair p ++ ampersand :: render (q :: pairs) := by
  unfold render
  rw [List.map_cons, List.map_cons, List.intercalate_cons_cons, List.append_assoc]
  rfl

/-- One more pair at the end. -/
theorem render_append {pairs : List (List UInt8 × List UInt8)} (h : pairs ≠ [])
    (p : List UInt8 × List UInt8) :
    render (pairs ++ [p]) = render pairs ++ ampersand :: renderPair p := by
  induction pairs with
  | nil => exact absurd rfl h
  | cons q pairs ih =>
    cases pairs with
    | nil =>
      show render [q, p] = _
      rw [render_cons_cons]
      simp [render]
    | cons r pairs =>
      show render (q :: r :: (pairs ++ [p])) = _
      have := ih (by simp)
      rw [List.cons_append] at this
      rw [render_cons_cons, render_cons_cons, this, List.append_assoc]
      rfl

end Percent
