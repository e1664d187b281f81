import Tamga.Libc

/-!
# `Json.Parse` — the recursive-descent parser (`util/json_parse.c`)

The parser state `{text, len, pos}` is the list of bytes still to read, and `depth` is a parameter
that counts down: `parseValue d` runs with `TAMGA_JSON_MAX_DEPTH - depth = d`.

`p->error` is the error of the `AllocE` computation. Since every call to `tamga_json_fail` is
followed by an immediate return, "the first error wins" is what an exception does anyway. A function
that returns `NULL` **without** setting `p->error` throws `none`; `parseValue` turns that into
`outOfMemory`, as the end of `tamga_json_parse_value` does.

The three loops take a `fuel` that starts above the number of bytes left; every round reads at least
one byte.
-/

namespace Tamga

namespace Json

/-- What `*error_out` says: the shared out-of-memory object, or a message about the document. -/
inductive Error where
  | outOfMemory
  | malformed (message : String)
  deriving DecidableEq

abbrev Parser (α : Type) : Type := AllocE (Option Error) α

def fail {α : Type} (message : String) : Parser α := throw (some (.malformed message))

def failOutOfMemory {α : Type} : Parser α := throw (some .outOfMemory)

/-- Returning `NULL` with `p->error` left as it is. -/
def failSilently {α : Type} : Parser α := throw none

/-- A node, or `NULL` and no error. -/
def orSilent {α : Type} (x : Alloc (Option α)) : Parser α := do
  match ← (liftM x : Parser (Option α)) with
  | some a => return a
  | none => failSilently

/-- `TAMGA_JSON_MAX_DEPTH`. -/
def maxDepth : Nat := 64

/-- `TAMGA_JSON_MAX_NUMBER_CHARS`. -/
def maxNumberChars : Nat := 340

/-! ## Characters -/

def quote : UInt8 := 0x22
def backslash : UInt8 := 0x5C
def comma : UInt8 := 0x2C
def colon : UInt8 := 0x3A
def lbracket : UInt8 := 0x5B
def rbracket : UInt8 := 0x5D
def lbrace : UInt8 := 0x7B
def rbrace : UInt8 := 0x7D

/-- `tamga_json_peek`: NUL at the end. -/
def peek (s : Bytes) : UInt8 := s.headD 0

def isWs (c : UInt8) : Bool := c = 0x20 || c = 0x09 || c = 0x0A || c = 0x0D

/-- `tamga_json_skip_ws`. -/
def skipWs (s : Bytes) : Bytes := s.dropWhile isWs

/-- `tamga_json_match_literal`. -/
def matchLiteral (literal s : Bytes) : Option Bytes :=
  if literal.isPrefixOf s then some (s.drop literal.length) else none

/-! ## UTF-8 -/

def isContinuation (c : UInt8) : Bool := c &&& 0xC0 = 0x80

/-- `tamga_utf8_sequence_len`: the length of the UTF-8 sequence at the front, 0 if malformed. -/
def utf8SequenceLen : Bytes → Nat
  | [] => 0
  | b0 :: s =>
      if b0 < 0x80 then 1
      else if 0xC2 ≤ b0 ∧ b0 ≤ 0xDF then
        match s with
        | b1 :: _ => if isContinuation b1 then 2 else 0
        | _ => 0
      else if 0xE0 ≤ b0 ∧ b0 ≤ 0xEF then
        let lower : UInt8 := if b0 = 0xE0 then 0xA0 else 0x80
        let upper : UInt8 := if b0 = 0xED then 0x9F else 0xBF
        match s with
        | b1 :: b2 :: _ =>
            if b1 < lower ∨ upper < b1 then 0 else if isContinuation b2 then 3 else 0
        | _ => 0
      else if 0xF0 ≤ b0 ∧ b0 ≤ 0xF4 then
        let lower : UInt8 := if b0 = 0xF0 then 0x90 else 0x80
        let upper : UInt8 := if b0 = 0xF4 then 0x8F else 0xBF
        match s with
        | b1 :: b2 :: b3 :: _ =>
            if b1 < lower ∨ upper < b1 then 0
            else if isContinuation b2 ∧ isContinuation b3 then 4 else 0
        | _ => 0
      else 0

/-- The bytes `tamga_utf8_encode` appends. -/
def utf8Bytes (codepoint : Nat) : Bytes :=
  if codepoint < 0x80 then [UInt8.ofNat codepoint]
  else if codepoint < 0x800 then
    [UInt8.ofNat (0xC0 ||| codepoint >>> 6), UInt8.ofNat (0x80 ||| codepoint &&& 0x3F)]
  else if codepoint < 0x10000 then
    [UInt8.ofNat (0xE0 ||| codepoint >>> 12), UInt8.ofNat (0x80 ||| (codepoint >>> 6) &&& 0x3F),
      UInt8.ofNat (0x80 ||| codepoint &&& 0x3F)]
  else
    [UInt8.ofNat (0xF0 ||| codepoint >>> 18), UInt8.ofNat (0x80 ||| (codepoint >>> 12) &&& 0x3F),
      UInt8.ofNat (0x80 ||| (codepoint >>> 6) &&& 0x3F), UInt8.ofNat (0x80 ||| codepoint &&& 0x3F)]

/-- `tamga_utf8_encode`: one append for each byte. -/
def utf8Encode (codepoint : Nat) (out : Buf) : Alloc Buf :=
  (utf8Bytes codepoint).foldlM Buf.appendByte out

def hexDigit (c : UInt8) : Option Nat :=
  if 0x30 ≤ c ∧ c ≤ 0x39 then some (c.toNat - 0x30)
  else if 0x61 ≤ c ∧ c ≤ 0x66 then some (c.toNat - 0x61 + 10)
  else if 0x41 ≤ c ∧ c ≤ 0x46 then some (c.toNat - 0x41 + 10)
  else none

/-- `tamga_json_read_hex4`. -/
def readHex4 : Bytes → Option (Nat × Bytes)
  | a :: b :: c :: d :: s =>
      match hexDigit a, hexDigit b, hexDigit c, hexDigit d with
      | some a, some b, some c, some d => some (((a <<< 4 ||| b) <<< 4 ||| c) <<< 4 ||| d, s)
      | _, _, _, _ => none
  | _ => none

/-! ## Strings -/

/-- What one round of the loop in `tamga_json_parse_string_into` finds. -/
inductive StringRound where
  | close (rest : Bytes)
  | escape (byte : UInt8) (rest : Bytes)
  | unicode (codepoint : Nat) (rest : Bytes)
  | raw (seq rest : Bytes)

/-- The two-character escapes: the letter after the backslash and the byte it stands for. -/
def shortEscape (esc : UInt8) : Option UInt8 :=
  if esc = quote then some quote
  else if esc = backslash then some backslash
  else if esc = 0x2F then some 0x2F
  else if esc = 0x62 then some 0x08
  else if esc = 0x66 then some 0x0C
  else if esc = 0x6E then some 0x0A
  else if esc = 0x72 then some 0x0D
  else if esc = 0x74 then some 0x09
  else none

/-- After a high surrogate: its low half has to follow as an escape of its own. -/
def lowSurrogate (unit : Nat) (s : Bytes) : Except String StringRound :=
  match s with
  | c0 :: c1 :: s' =>
      if s.length < 6 ∨ c0 ≠ backslash ∨ c1 ≠ 0x75 then .error "unpaired high surrogate"
      else
        match readHex4 s' with
        | none => .error "malformed unicode escape"
        | some (low, s) =>
            if low < 0xDC00 ∨ 0xDFFF < low then .error "unpaired high surrogate"
            else .ok (.unicode (0x10000 + ((unit - 0xD800) <<< 10) + (low - 0xDC00)) s)
  | _ => .error "unpaired high surrogate"

/-- After `\u`. -/
def unicodeEscape (s : Bytes) : Except String StringRound :=
  match readHex4 s with
  | none => .error "malformed unicode escape"
  | some (unit, s) =>
      if 0xD800 ≤ unit ∧ unit ≤ 0xDBFF then lowSurrogate unit s
      else if 0xDC00 ≤ unit ∧ unit ≤ 0xDFFF then .error "unpaired low surrogate"
      else .ok (.unicode unit s)

/-- One round of the loop, up to what it appends. -/
def stringRound : Bytes → Except String StringRound
  | [] => .error "unterminated string"
  | c :: s =>
      if c = quote then .ok (.close s)
      else if c = backslash then
        match s with
        | [] => .error "unterminated escape sequence"
        | esc :: s =>
            match shortEscape esc with
            | some byte => .ok (.escape byte s)
            | none => if esc = 0x75 then unicodeEscape s else .error "unknown escape sequence"
      else if c < 0x20 then .error "unescaped control character in string"
      else
        match utf8SequenceLen (c :: s) with
        | 0 => .error "invalid UTF-8 in string"
        | seq + 1 => .ok (.raw ((c :: s).take (seq + 1)) ((c :: s).drop (seq + 1)))

/-- The loop of `tamga_json_parse_string_into`. A buffer that failed on the way is only noticed at
    the closing quote, where the result is `tamga_buf_ok`. -/
def stringLoop : (fuel : Nat) → Bytes → Buf → Parser (Buf × Bytes)
  | 0, _, _ => fail "unterminated string"
  | fuel + 1, s, out =>
      match stringRound s with
      | .error message => fail message
      | .ok (.close rest) => if out.failed then failSilently else pure (out, rest)
      | .ok (.escape byte rest) => do
          stringLoop fuel rest (← (liftM (out.appendByte byte) : Parser Buf))
      | .ok (.unicode codepoint rest) => do
          stringLoop fuel rest (← (liftM (utf8Encode codepoint out) : Parser Buf))
      | .ok (.raw seq rest) => do
          stringLoop fuel rest (← (liftM (out.append seq) : Parser Buf))

/-- `tamga_json_parse_string_into`: the filled buffer and what follows the closing quote. -/
def parseStringInto (s : Bytes) (out : Buf) : Parser (Buf × Bytes) :=
  if peek s ≠ quote then fail "expected a string" else stringLoop s.length s.tail out

/-! ## Numbers -/

/-- A digit run and what follows it. -/
def digitRun (s : Bytes) : Bytes × Bytes :=
  (s.takeWhile Decimal.isDigit, s.dropWhile Decimal.isDigit)

def scanMinus (s : Bytes) : Bytes × Bytes :=
  if peek s = 0x2D then ([0x2D], s.tail) else ([], s)

/-- The integer part: a single `0`, or digits that do not start with one. -/
def scanInteger (s : Bytes) : Except String (Bytes × Bytes) :=
  if peek s = 0x30 then .ok ([0x30], s.tail)
  else if 0x31 ≤ peek s ∧ peek s ≤ 0x39 then .ok (digitRun s)
  else .error "malformed number"

def scanFraction (s : Bytes) : Except String (Bytes × Bytes) :=
  if peek s = 0x2E then
    if Decimal.isDigit (peek s.tail) then
      .ok (0x2E :: (digitRun s.tail).1, (digitRun s.tail).2)
    else .error "malformed number: no digits after the decimal point"
  else .ok ([], s)

def scanSign (s : Bytes) : Bytes × Bytes :=
  if peek s = 0x2B ∨ peek s = 0x2D then ([peek s], s.tail) else ([], s)

def scanExponent (s : Bytes) : Except String (Bytes × Bytes) :=
  if peek s = 0x65 ∨ peek s = 0x45 then
    let (sign, s') := scanSign s.tail
    if Decimal.isDigit (peek s') then
      .ok (peek s :: sign ++ (digitRun s').1, (digitRun s').2)
    else .error "malformed number: no digits in exponent"
  else .ok ([], s)

/-- A number token. -/
structure Scanned where
  token : Bytes
  isInteger : Bool
  rest : Bytes

/-- The scanning half of `tamga_json_parse_number`. -/
def scanNumber (s : Bytes) : Except String Scanned := do
  let (minus, s) := scanMinus s
  let (integer, s) ← scanInteger s
  let (fraction, s) ← scanFraction s
  let (exponent, s) ← scanExponent s
  return ⟨minus ++ integer ++ fraction ++ exponent, fraction.isEmpty && exponent.isEmpty, s⟩

/-- An integer token that fits `int64_t` is that integer; anything else goes through `strtod`. -/
def readNumber (L : Libc) (token : Bytes) (isInteger : Bool) : Option Json :=
  let integer? : Option Int64 :=
    if isInteger then
      match strtoll token with
      | some (n, used) => if used = token.length then some n else none
      | none => none
    else none
  match integer? with
  | some n => some (.int n)
  | none =>
      let (d, used) := L.strtod token
      if used ≠ token.length then none else some (.double d)

/-- `tamga_json_parse_number`. -/
def parseNumber (L : Libc) (s : Bytes) : Parser (Json × Bytes) :=
  match scanNumber s with
  | .error message => fail message
  | .ok ⟨token, isInteger, rest⟩ =>
      if maxNumberChars < token.length then fail "number literal is unreasonably long" else
      match readNumber L token isInteger with
      | none => fail "malformed number"
      | some v => do return (← orSilent (new v), rest)

/-! ## Composites -/

section Composites

variable (item : Bytes → Parser (Json × Bytes))

/-- The loop of `tamga_json_parse_array`; `item` is `tamga_json_parse_value` one level down. -/
def arrayLoop : (fuel : Nat) → Bytes → Json → Parser (Json × Bytes)
  | 0, _, _ => fail "malformed JSON"
  | fuel + 1, s, array => do
      let (v, s) ← item s
      match ← (liftM (arrayAppend array (some v)) : Parser (Option Json)) with
      | none => failOutOfMemory
      | some array =>
          let s := skipWs s
          if peek s = comma then arrayLoop fuel (skipWs s.tail) array
          else if peek s = rbracket then return (array, s.tail)
          else fail "expected a comma or a closing bracket in array"

/-- `tamga_json_parse_array`, at the opening bracket. -/
def parseArray (s : Bytes) : Parser (Json × Bytes) := do
  match ← (liftM newArray : Parser (Option Json)) with
  | none => failOutOfMemory
  | some array =>
      let rest := skipWs s.tail
      if peek rest = rbracket then return (array, rest.tail)
      arrayLoop item s.length rest array

/-- An object key. A refused request and an embedded NUL end in the same message. -/
def parseKey (s : Bytes) : Parser (Bytes × Bytes) := do
  let (keyBuf, s) ← parseStringInto s Buf.init
  match ← (liftM keyBuf.detachString : Parser (Option Bytes)) with
  | none => fail "invalid object key"
  | some key => return (key, s)

/-- The loop of `tamga_json_parse_object`. -/
def objectLoop : (fuel : Nat) → Bytes → Json → Parser (Json × Bytes)
  | 0, _, _ => fail "malformed JSON"
  | fuel + 1, s, object => do
      let (key, s) ← parseKey s
      let s := skipWs s
      if peek s ≠ colon then fail "expected a colon after the object key" else
      let (v, s) ← item s.tail
      match ← (liftM (objectSet object key (some v)) : Parser (Option Json)) with
      | none => failOutOfMemory
      | some object =>
          let s := skipWs s
          if peek s = comma then objectLoop fuel (skipWs s.tail) object
          else if peek s = rbrace then return (object, s.tail)
          else fail "expected a comma or a closing brace in object"

/-- `tamga_json_parse_object`, at the opening brace. -/
def parseObject (s : Bytes) : Parser (Json × Bytes) := do
  match ← (liftM newObject : Parser (Option Json)) with
  | none => failOutOfMemory
  | some object =>
      let rest := skipWs s.tail
      if peek rest = rbrace then return (object, rest.tail)
      objectLoop item s.length rest object

end Composites

/-! ## Values -/

def parseString (s : Bytes) : Parser (Json × Bytes) := do
  let (buf, s) ← parseStringInto s Buf.init
  let raw ← orSilent buf.detach
  return (← orSilent (newString raw), s)

def parseLiteral (literal : Bytes) (value : Json) (s : Bytes) : Parser (Json × Bytes) :=
  match matchLiteral literal s with
  | none => fail "unexpected token"
  | some s => do return (← orSilent (new value), s)

/-- `if (value == NULL && p->error == NULL)` at the end of `tamga_json_parse_value`. -/
def nullMeansOutOfMemory {α : Type} (x : Parser α) : Parser α :=
  ExceptT.mk <| x.run >>= fun r => pure <|
    match r with
    | .error none => .error (some .outOfMemory)
    | r => r

/-- The `switch` of `tamga_json_parse_value`, at a character that is not whitespace. -/
def parseToken (L : Libc) (item : Bytes → Parser (Json × Bytes)) (s : Bytes) :
    Parser (Json × Bytes) :=
  if peek s = lbrace then parseObject item s
  else if peek s = lbracket then parseArray item s
  else if peek s = quote then parseString s
  else if peek s = 0x74 then parseLiteral (ascii "true") (.bool true) s
  else if peek s = 0x66 then parseLiteral (ascii "false") (.bool false) s
  else if peek s = 0x6E then parseLiteral (ascii "null") .null s
  else if peek s = 0x2D ∨ Decimal.isDigit (peek s) then parseNumber L s
  else fail "unexpected token"

/-- `tamga_json_parse_value`, with `depth` levels left. -/
def parseValue (L : Libc) : (depth : Nat) → Bytes → Parser (Json × Bytes)
  | 0, _ => fail "maximum nesting depth exceeded"
  | depth + 1, s => nullMeansOutOfMemory (parseToken L (parseValue L depth) (skipWs s))

/-- `tamga_json_parse`. -/
def parse (L : Libc) (text : Option Bytes) : AllocE Error Json :=
  match text with
  | none => throw (.malformed "input is null")
  | some text =>
      if maxReasonableLen < text.length then
        throw (.malformed "input exceeds the maximum accepted size")
      else ExceptT.mk <| (parseValue L maxDepth text).run >>= fun r => pure <|
        match r with
        | .error e => .error (e.getD (.malformed "malformed JSON"))
        | .ok (value, rest) =>
            if (skipWs rest).isEmpty then .ok value
            else .error (.malformed "trailing content after the top-level value")

end Json

end Tamga
