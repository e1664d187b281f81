import Tamga.Json.Parse
import Tamga.Lib.Utf8

/-!
# `Json.Grammar` — which texts are JSON, and what they mean

The specification the parser is measured against, stated without reference to it: the grammar of
RFC 8259 as a relation between a **document tree** `Doc` (duplicate members kept, numbers as they are
spelled) and its texts, and the value a document tree denotes.

* `Text doc t` — `t` is a JSON text of `doc`: whitespace anywhere the RFC allows it, strings in any
  mixture of raw UTF-8 and escapes.
* `Doc.Accepted` — the SDK's own limits: nesting, key bytes, number length.
* `Doc.value` — integers that fit `int64_t` exactly, other numbers through `strtod`, strings decoded,
  of the members with one key the first position and the last value.
-/

namespace Tamga

namespace Json

/-! ## Document trees -/

inductive Doc : Type where
  | null
  | bool (b : Bool)
  | num (token : Bytes)
  | str (bytes : Bytes)
  | arr (items : List Doc)
  | obj (members : List (Bytes × Doc))

mutual

def Doc.depth : Doc → Nat
  | .arr items => Doc.itemsDepth items + 1
  | .obj members => Doc.membersDepth members + 1
  | _ => 1

def Doc.itemsDepth : List Doc → Nat
  | [] => 0
  | d :: items => max d.depth (Doc.itemsDepth items)

def Doc.membersDepth : List (Bytes × Doc) → Nat
  | [] => 0
  | (_, d) :: members => max d.depth (Doc.membersDepth members)

end

mutual

/-- Every object key in the document, at any depth, repeated ones included. -/
def Doc.keys : Doc → List Bytes
  | .arr items => Doc.itemsKeys items
  | .obj members => Doc.membersKeys members
  | _ => []

def Doc.itemsKeys : List Doc → List Bytes
  | [] => []
  | d :: items => d.keys ++ Doc.itemsKeys items

def Doc.membersKeys : List (Bytes × Doc) → List Bytes
  | [] => []
  | (k, d) :: members => k :: (d.keys ++ Doc.membersKeys members)

end

mutual

/-- Every number token in the document. -/
def Doc.tokens : Doc → List Bytes
  | .num token => [token]
  | .arr items => Doc.itemsTokens items
  | .obj members => Doc.membersTokens members
  | _ => []

def Doc.itemsTokens : List Doc → List Bytes
  | [] => []
  | d :: items => d.tokens ++ Doc.itemsTokens items

def Doc.membersTokens : List (Bytes × Doc) → List Bytes
  | [] => []
  | (_, d) :: members => d.tokens ++ Doc.membersTokens members

end

/-- The limits this SDK puts on a document, with `depth` levels of nesting allowed. -/
structure Doc.Within (depth : Nat) (doc : Doc) : Prop where
  depth_le : doc.depth ≤ depth
  keys_nulFree : ∀ k ∈ doc.keys, NulFree k
  tokens_le : ∀ t ∈ doc.tokens, t.length ≤ maxNumberChars

def Doc.Accepted (doc : Doc) : Prop := doc.Within maxDepth

/-! ## Meaning -/

/-- The integer a token spells, if it has neither fraction nor exponent. -/
def literalInt (token : Bytes) : Option Int :=
  match token with
  | 0x2D :: digits => if digits.all Decimal.isDigit then some (-(Decimal.value digits : Int)) else none
  | digits => if digits.all Decimal.isDigit then some (Decimal.value digits : Int) else none

def fitsInt64 (n : Int) : Prop := -2 ^ 63 ≤ n ∧ n < 2 ^ 63

instance (n : Int) : Decidable (fitsInt64 n) := inferInstanceAs (Decidable (_ ∧ _))

def numberValue (L : Libc) (token : Bytes) : Json :=
  match literalInt token with
  | some n => if fitsInt64 n then .int (Int64.ofInt n) else .double (L.strtod token).1
  | none => .double (L.strtod token).1

/-- Each distinct key once, where it first occurs, with the value it has last. -/
def lastWins (members : List (Bytes × Json)) : List (Bytes × Json) :=
  (members.map Prod.fst).eraseDups.filterMap fun key =>
    (lookup members.reverse key).map fun v => (key, v)

mutual

def Doc.value (L : Libc) : Doc → Json
  | .null => .null
  | .bool b => .bool b
  | .num token => numberValue L token
  | .str bytes => .str bytes
  | .arr items => .arr (Doc.itemsValue L items)
  | .obj members => .obj (lastWins (Doc.membersValue L members))

def Doc.itemsValue (L : Libc) : List Doc → List Json
  | [] => []
  | d :: items => d.value L :: Doc.itemsValue L items

def Doc.membersValue (L : Libc) : List (Bytes × Doc) → List (Bytes × Json)
  | [] => []
  | (k, d) :: members => (k, d.value L) :: Doc.membersValue L members

end

/-! ## Tokens -/

def Ws (w : Bytes) : Prop := ∀ c ∈ w, isWs c = true

def Digits (t : Bytes) : Prop := t ≠ [] ∧ ∀ c ∈ t, Decimal.isDigit c = true

def Fraction (t : Bytes) : Prop := t = [] ∨ ∃ digits, Digits digits ∧ t = 0x2E :: digits

def Exponent (t : Bytes) : Prop :=
  t = [] ∨ ∃ e sign digits, (e = 0x65 ∨ e = 0x45) ∧ (sign = [] ∨ sign = [0x2B] ∨ sign = [0x2D]) ∧
    Digits digits ∧ t = e :: sign ++ digits

/-- `number = [ minus ] int [ frac ] [ exp ]`. -/
inductive NumberToken : Bytes → Prop where
  | mk {minus integer fraction exponent : Bytes} (hminus : minus = [] ∨ minus = [0x2D])
      (hinteger : Decimal.Plain integer) (hfraction : Fraction fraction)
      (hexponent : Exponent exponent) :
      NumberToken (minus ++ integer ++ fraction ++ exponent)

/-- What `strtod` is documented to do in the C numeric locale: it reads a JSON number to its end. -/
def ConsumesNumbers (L : Libc) : Prop := ∀ t, NumberToken t → (L.strtod t).2 = t.length

/-- A hexadecimal digit of either case and its value. -/
def HexDigit (c : UInt8) (v : Nat) : Prop :=
  v < 10 ∧ c.toNat = 0x30 + v ∨ 10 ≤ v ∧ v < 16 ∧ (c.toNat = 0x57 + v ∨ c.toNat = 0x37 + v)

/-- Four hexadecimal digits. -/
def Hex4 (t : Bytes) (n : Nat) : Prop :=
  ∃ a b c d w x y z, t = [a, b, c, d] ∧ HexDigit a w ∧ HexDigit b x ∧ HexDigit c y ∧ HexDigit d z ∧
    n = ((w * 16 + x) * 16 + y) * 16 + z

/-- The letter of a two-character escape and the character it stands for. -/
def shortEscapes : List (UInt8 × UInt8) :=
  [(quote, quote), (backslash, backslash), (0x2F, 0x2F), (0x62, 0x08), (0x66, 0x0C), (0x6E, 0x0A),
    (0x72, 0x0D), (0x74, 0x09)]

/-- `Piece bytes t`: `t` spells one character, whose UTF-8 encoding is `bytes`. -/
inductive Piece : Bytes → Bytes → Prop where
  | raw (c : Char) (hctl : 0x20 ≤ c.val.toNat) (hquote : c.val.toNat ≠ 0x22)
      (hbackslash : c.val.toNat ≠ 0x5C) : Piece (Utf8.encodeChar c) (Utf8.encodeChar c)
  | short {letter byte : UInt8} (h : (letter, byte) ∈ shortEscapes) :
      Piece [byte] [backslash, letter]
  | unicode (c : Char) {hex : Bytes} (h : Hex4 hex c.val.toNat) :
      Piece (Utf8.encodeChar c) (backslash :: 0x75 :: hex)
  | pair (c : Char) {high low : Bytes} (hc : 0x10000 ≤ c.val.toNat)
      (hhigh : Hex4 high (0xD800 + (c.val.toNat - 0x10000) / 0x400))
      (hlow : Hex4 low (0xDC00 + (c.val.toNat - 0x10000) % 0x400)) :
      Piece (Utf8.encodeChar c) (backslash :: 0x75 :: high ++ backslash :: 0x75 :: low)

/-- The inside of a string token. -/
inductive StringBody : Bytes → Bytes → Prop where
  | nil : StringBody [] []
  | cons {b t bs ts : Bytes} (h : Piece b t) (hs : StringBody bs ts) :
      StringBody (b ++ bs) (t ++ ts)

inductive StringToken (bytes : Bytes) : Bytes → Prop where
  | mk {body : Bytes} (h : StringBody bytes body) : StringToken bytes (quote :: body ++ [quote])

/-! ## Texts -/

/-- One or more, separated by commas, each with whitespace around it. -/
inductive Sep {α : Type} (P : α → Bytes → Prop) : List α → Bytes → Prop where
  | one {a : α} {before t after : Bytes} (hbefore : Ws before) (h : P a t) (hafter : Ws after) :
      Sep P [a] (before ++ t ++ after)
  | cons {a : α} {as : List α} {before t after ts : Bytes} (hbefore : Ws before) (h : P a t)
      (hafter : Ws after) (hs : Sep P as ts) :
      Sep P (a :: as) (before ++ t ++ after ++ comma :: ts)

/-- A name, a colon and a value. -/
inductive MemberText (P : Doc → Bytes → Prop) : Bytes × Doc → Bytes → Prop where
  | mk {key : Bytes} {doc : Doc} {name w w' value : Bytes} (hname : StringToken key name)
      (hw : Ws w) (hw' : Ws w') (hvalue : P doc value) :
      MemberText P (key, doc) (name ++ w ++ colon :: (w' ++ value))

inductive ValueText : Doc → Bytes → Prop where
  | null : ValueText .null (ascii "null")
  | litTrue : ValueText (.bool true) (ascii "true")
  | litFalse : ValueText (.bool false) (ascii "false")
  | num {t : Bytes} (h : NumberToken t) : ValueText (.num t) t
  | str {bytes t : Bytes} (h : StringToken bytes t) : ValueText (.str bytes) t
  | arrNil {w : Bytes} (h : Ws w) : ValueText (.arr []) (lbracket :: w ++ [rbracket])
  | arr {items : List Doc} {t : Bytes} (h : Sep ValueText items t) :
      ValueText (.arr items) (lbracket :: t ++ [rbracket])
  | objNil {w : Bytes} (h : Ws w) : ValueText (.obj []) (lbrace :: w ++ [rbrace])
  | obj {members : List (Bytes × Doc)} {t : Bytes} (h : Sep (MemberText ValueText) members t) :
      ValueText (.obj members) (lbrace :: t ++ [rbrace])

/-- `JSON-text = ws value ws`. -/
def Text (doc : Doc) (t : Bytes) : Prop :=
  ∃ before body after, Ws before ∧ ValueText doc body ∧ Ws after ∧ t = before ++ body ++ after

/-- `t` is a text within the limits, and `v` is the value it denotes. -/
def Denotes (L : Libc) (t : Bytes) (v : Json) : Prop :=
  ∃ doc, Text doc t ∧ doc.Accepted ∧ doc.value L = v

end Json

end Tamga
