import Tamga.Json.Value
import Tamga.Lib.Decimal

/-!
# `Tamga.Libc` — the numeric conversions taken from the C library

`strtoll` in base 10 and the integer conversions of `printf` are exact and are defined here.
`strtod` and `"%.*e"` are correctly rounded conversions whose digits no part of this SDK computes;
they are the fields of `Libc`, and what a result needs to know of them is a named hypothesis there.
-/

namespace Tamga

/-- The two floating-point conversions the JSON code calls. -/
structure Libc where
  /-- The converted value and how many bytes were consumed (`end - token`). -/
  strtod : Bytes → Double × Nat
  /-- `snprintf("%.*e", precision, value)`. -/
  formatE : (precision : Nat) → Double → Bytes

/-- A sign, then as many digits as follow: the value and the number of bytes read. -/
def readInteger (s : Bytes) : Int × Nat :=
  let negative : Bool := s.head? = some 0x2D
  let signed : Bool := negative || s.head? = some 0x2B
  let body := if signed then s.tail else s
  let digits := body.takeWhile Decimal.isDigit
  let magnitude : Int := Decimal.value digits
  (if negative then -magnitude else magnitude,
    if digits.isEmpty then 0 else digits.length + if signed then 1 else 0)

/-- `strtoll(s, &end, 10)` on a token without leading blanks: the value and the bytes consumed, or
    `none` when `errno` becomes `ERANGE`. -/
def strtoll (s : Bytes) : Option (Int64 × Nat) :=
  let (value, used) := readInteger s
  if Int64.minValue.toInt ≤ value ∧ value ≤ Int64.maxValue.toInt then
    some (Int64.ofInt value, used)
  else none

/-- `isspace` in the C locale. -/
def isSpace (c : UInt8) : Bool := c = 0x20 || (0x09 ≤ c && c ≤ 0x0D)

/-- The value of `strtoll(s, NULL, 10)` on any text: blanks are skipped, and a number outside
    `long long` becomes the nearest one inside. -/
def strtollValue (s : Bytes) : Int :=
  max Int64.minValue.toInt (min (readInteger (s.dropWhile isSpace)).1 Int64.maxValue.toInt)

/-- `printf("%lld")`. -/
def printInt (n : Int) : Bytes :=
  if n < 0 then 0x2D :: Decimal.encode n.natAbs else Decimal.encode n.natAbs

/-- `printf("%+d")`. -/
def printSigned (n : Int) : Bytes := if n < 0 then printInt n else 0x2B :: printInt n

end Tamga
