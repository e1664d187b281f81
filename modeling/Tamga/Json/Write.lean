import Tamga.Json.Parse
import Tamga.Lib.MergeSort

/-!
# `Json.Write` — the two serializers (`util/json_write.c`)

`writeValue` appends to a buffer whose failure is sticky, exactly as the source does, so a refused
request in the middle is only seen when the text is detached.

The recursion over an object goes through its members in **sorted** order when the output is
canonical. To keep it structural, the writers of the members are collected first (`memberWriters`)
and the collected list is permuted; a writer is run where the source calls `tamga_json_write_value`.
-/

namespace Tamga

namespace Json

/-! ## Strings -/

/-- Lowercase hexadecimal digit. -/
def hexChar (n : UInt8) : UInt8 := if n < 10 then 0x30 + n else 0x57 + n

/-- What one byte of a string is written as. -/
def escapeByte (c : UInt8) : Bytes :=
  if c = quote then [backslash, quote]
  else if c = backslash then [backslash, backslash]
  else if c = 0x08 then [backslash, 0x62]
  else if c = 0x0C then [backslash, 0x66]
  else if c = 0x0A then [backslash, 0x6E]
  else if c = 0x0D then [backslash, 0x72]
  else if c = 0x09 then [backslash, 0x74]
  else if c < 0x20 then
    [backslash, 0x75, 0x30, 0x30, hexChar (c >>> 4 &&& 0x0F), hexChar (c &&& 0x0F)]
  else [c]

/-- `tamga_json_write_escaped`. -/
def writeEscaped (bytes : Bytes) (out : Buf) : Alloc Buf := do
  let out ← out.appendByte quote
  let out ← bytes.foldlM (fun out c => out.append (escapeByte c)) out
  out.appendByte quote

/-! ## Doubles -/

/-- The precision search: the first of `remaining` precisions, from `precision` on, that reads back
    as the value. `none` covers the two ways out that write `null`. -/
def searchPrecision (L : Libc) (value : Double) : (remaining precision : Nat) → Option Bytes
  | 0, _ => none
  | remaining + 1, precision =>
      let scratch := L.formatE precision value
      if 64 ≤ scratch.length then none
      else if (L.strtod scratch).1.eq value then some scratch
      else searchPrecision L value remaining (precision + 1)

/-- The parts of `[-]d[.ddd]e[+-]dd`. -/
structure Scientific where
  negative : Bool
  digits : Bytes
  exponent10 : Int

/-- Where the decimal point stands, counted from the first digit. -/
def Scientific.kk (s : Scientific) : Int := s.exponent10 + 1

def isExponentMark (c : UInt8) : Bool := c = 0x65 || c = 0x45

/-- `while (digit_count > 1 && digits[digit_count - 1] == '0')`. -/
def stripZeros (digits : Bytes) : Bytes :=
  match (digits.reverse.dropWhile (· = 0x30)).reverse with
  | [] => digits.take 1
  | kept => kept

/-- Taking the scratch text apart; `none` when it has no digits or more than 32. -/
def splitScientific (scratch : Bytes) : Option Scientific :=
  let negative : Bool := scratch.head? = some 0x2D
  let cursor := if negative then scratch.tail else scratch
  let digits := (cursor.takeWhile fun c => !isExponentMark c).filter (· ≠ 0x2E)
  let exponent10 := (readInteger (cursor.dropWhile fun c => !isExponentMark c).tail).1
  if digits.length > 32 ∨ digits.length = 0 then none
  else some ⟨negative, stripZeros digits, exponent10⟩

/-- The zeros of a padding loop, one append each. -/
def writeZeros (n : Nat) (out : Buf) : Alloc Buf :=
  (List.replicate n (0x30 : UInt8)).foldlM Buf.appendByte out

def writeSign (negative : Bool) (out : Buf) : Alloc Buf :=
  if negative then out.appendByte 0x2D else pure out

/-- The digits after the first, behind a point, when there are any. -/
def writeTail (digits : Bytes) (out : Buf) : Alloc Buf :=
  if 1 < digits.length then do
    let out ← out.appendByte 0x2E
    out.append (digits.drop 1)
  else pure out

/-- The digits in decimal, `0.000…`, or exponential notation. -/
def writeDigits (s : Scientific) (out : Buf) : Alloc Buf :=
  if 0 < s.kk ∧ s.kk ≤ 16 then
    if s.digits.length ≤ s.kk.toNat then do
      let out ← out.append s.digits
      let out ← writeZeros (s.kk.toNat - s.digits.length) out
      out.append (ascii ".0")
    else do
      let out ← out.append (s.digits.take s.kk.toNat)
      let out ← out.appendByte 0x2E
      out.append (s.digits.drop s.kk.toNat)
  else if -5 < s.kk ∧ s.kk ≤ 0 then do
    let out ← out.append (ascii "0.")
    let out ← writeZeros (-s.kk).toNat out
    out.append s.digits
  else do
    let out ← out.append (s.digits.take 1)
    let out ← writeTail s.digits out
    out.appendFmt (0x65 :: printSigned (s.kk - 1))

/-- The notation half of `tamga_json_write_double`. -/
def writeScientific (s : Scientific) (out : Buf) : Alloc Buf := do
  let out ← writeSign s.negative out
  writeDigits s out

/-- `tamga_json_write_double`. -/
def writeDouble (L : Libc) (value : Double) (out : Buf) : Alloc Buf :=
  if ¬ value.isFinite then out.append (ascii "null") else
  match (searchPrecision L value 18 0).bind splitScientific with
  | none => out.append (ascii "null")
  | some s => writeScientific s out

/-! ## Key order -/

/-- `tamga_json_key_cmp`, on what a C string comparison sees of the two keys. -/
def keyCmp : Bytes → Bytes → Ordering
  | [], [] => .eq
  | [], _ :: _ => .lt
  | _ :: _, [] => .gt
  | x :: a, y :: b => if x ≠ y then (if x < y then .lt else .gt) else keyCmp a b

/-- `take_left`: the left key does not come after the right one. -/
def keyLe (a b : Bytes) : Bool := keyCmp (cstr a) (cstr b) != .gt

/-- The order array of `tamga_json_sort_keys`: indices into the members. -/
def sortOrder (keys : List Bytes) : List Nat :=
  MergeSort.sort (fun i j => keyLe (keys.getD i []) (keys.getD j [])) (List.range keys.length)

/-- The members in that order. -/
def sortMembers {α : Type} (members : List (Bytes × α)) : List (Bytes × α) :=
  (sortOrder (members.map Prod.fst)).filterMap fun i => members[i]?

/-- `tamga_json_sort_keys`: the index array and the scratch array, then the sort. -/
def sortKeys {α : Type} (members : List (Bytes × α)) : Alloc (Option (List (Bytes × α))) := do
  match checkedMul members.length 8 with
  | none => return none
  | some _ =>
      if ← malloc then
        if ← malloc then return some (sortMembers members) else return none
      else return none

/-! ## Values -/

/-- A comma before every item or member but the first. -/
def writeSeparator (first : Bool) (out : Buf) : Alloc Buf :=
  if first then pure out else out.appendByte comma

/-- The loop over items or members. -/
def writeAll : (first : Bool) → List (Buf → Alloc Buf) → Buf → Alloc Buf
  | _, [], out => pure out
  | first, writer :: writers, out => do
      let out ← writeSeparator first out
      let out ← writer out
      writeAll false writers out

/-- One member: its key, a colon, its value. -/
def writeMember (m : Bytes × (Buf → Alloc Buf)) (out : Buf) : Alloc Buf := do
  let out ← writeEscaped (cstr m.1) out
  let out ← out.appendByte colon
  m.2 out

/-- The members in the order they are written; `none` when the sort was refused its memory. -/
def writeOrder {α : Type} (canonical : Bool) (members : List (Bytes × α)) :
    Alloc (Option (List (Bytes × α))) :=
  if canonical && decide (1 < members.length) then sortKeys members else pure (some members)

/-- `tamga_json_write_object`, on the members' keys and writers. A refused sort fails the buffer. -/
def writeObject (canonical : Bool) (members : List (Bytes × (Buf → Alloc Buf))) (out : Buf) :
    Alloc Buf := do
  let out ← out.appendByte lbrace
  match ← writeOrder canonical members with
  | none => return out.markFailed
  | some members =>
      let out ← writeAll true (members.map writeMember) out
      out.appendByte rbrace

mutual

/-- `tamga_json_write_value`. -/
def writeValue (L : Libc) (canonical : Bool) : Json → Buf → Alloc Buf
  | .null, out => out.append (ascii "null")
  | .bool true, out => out.append (ascii "true")
  | .bool false, out => out.append (ascii "false")
  | .int n, out => out.appendFmt (printInt n.toInt)
  | .double d, out => writeDouble L d out
  | .str bytes, out => writeEscaped bytes out
  | .arr items, out => do
      let out ← out.appendByte lbracket
      let out ← writeAll true (itemWriters L canonical items) out
      out.appendByte rbracket
  | .obj members, out => writeObject canonical (memberWriters L canonical members) out

def itemWriters (L : Libc) (canonical : Bool) : List Json → List (Buf → Alloc Buf)
  | [] => []
  | v :: items => writeValue L canonical v :: itemWriters L canonical items

def memberWriters (L : Libc) (canonical : Bool) :
    List (Bytes × Json) → List (Bytes × (Buf → Alloc Buf))
  | [] => []
  | (key, v) :: members => (key, writeValue L canonical v) :: memberWriters L canonical members

end

/-- `tamga_json_write_impl`. -/
def writeImpl (L : Libc) (canonical : Bool) (value : Json) : Alloc (Option Bytes) := do
  let out ← writeValue L canonical value Buf.init
  out.detachString

/-- `tamga_json_write_canonical`. -/
def writeCanonical (L : Libc) (value : Json) : Alloc (Option Bytes) := writeImpl L true value

/-- `tamga_json_write`. -/
def write (L : Libc) (value : Json) : Alloc (Option Bytes) := writeImpl L false value

end Json

end Tamga
