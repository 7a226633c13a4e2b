import ArrowExpr.Decimal.Scaled
import ArrowExpr.Operation
/-!
Numbers in JSON: their grammar, and what a number is as an integer or as a float. An integer is read
exactly. A float is read from the digits that fit in 64 bits and a power of ten, which need not give
the nearest one.
-/

namespace ArrowExpr.Json

/-- A number as it was written: a sign, digits in front of the point, digits after it and a power of
ten. -/
structure Number where
  negative : Bool
  integral : List Char
  fraction : List Char
  exponent : Option Int
deriving DecidableEq, Repr

/-- Floats in JSON have the fewest digits that read back, and no exponent from `0.00001` up to
`1e16`. -/
def floatStyle : FloatStyle where
  digits := .shortest .toEven
  number := ⟨-5, 15, ['.', '0'], [], 'e', ['+']⟩
  notANumber := "null".toList
  infinity := "null".toList

namespace Number

/-- A nonempty run of digits and what follows it. -/
def digits? (text : List Char) : Option (List Char × List Char) :=
  match text.takeWhile Char.isDigit with
  | [] => none
  | digits => some (digits, text.dropWhile Char.isDigit)

/-- The digits in front of the point: no zero leads another digit. -/
def integral? (text : List Char) : Option (List Char × List Char) :=
  match digits? text with
  | some ('0' :: _ :: _, _) => none
  | result => result

/-- The digits after the point, if there is one. -/
def fraction? : List Char → Option (List Char × List Char)
  | '.' :: rest => digits? rest
  | rest => some ([], rest)

/-- The digits of an exponent, after its sign. -/
def signedExponent? : List Char → Option (Int × List Char)
  | '-' :: rest =>
    (digits? rest).map fun (digits, rest) => (-(Nat.ofDigitChars 10 digits 0 : Int), rest)
  | '+' :: rest => (digits? rest).map fun (digits, rest) => (Nat.ofDigitChars 10 digits 0, rest)
  | rest => (digits? rest).map fun (digits, rest) => (Nat.ofDigitChars 10 digits 0, rest)

/-- The exponent, if there is one. -/
def exponent? : List Char → Option (Option Int × List Char)
  | 'e' :: rest | 'E' :: rest => (signedExponent? rest).map fun (n, rest) => (some n, rest)
  | rest => some (none, rest)

/-- The number without its sign, which must take up the whole text. -/
def unsigned? (negative : Bool) (text : List Char) : Option Number := do
  let (integral, text) ← integral? text
  let (fraction, text) ← fraction? text
  let (exponent, text) ← exponent? text
  guard text.isEmpty
  return ⟨negative, integral, fraction, exponent⟩

/-- The number that a text is, if it is one. -/
def ofText? : List Char → Option Number
  | '-' :: text => unsigned? true text
  | text => unsigned? false text

/-- It was written without a fraction and without an exponent. -/
def isWhole (n : Number) : Bool := n.fraction.isEmpty && n.exponent.isNone

/-- A number as a 64-bit integer. It must be written as a whole number; `-0` is a float. -/
def int64? (n : Number) : Option Int64 :=
  let size := Nat.ofDigitChars 10 n.integral 0
  if n.isWhole then
    if n.negative then if size = 0 then none else ArrowExpr.int64? (-size)
    else ArrowExpr.int64? size
  else none

/-- The greatest coefficient that a float is read from. -/
def maxCoefficient : Nat := UInt64.size - 1

/-- Appends digits to a coefficient up to the first one that does not fit, and gives what is left
of them. -/
def appendDigits (coefficient : Nat) : List Char → Nat × List Char
  | [] => (coefficient, [])
  | digit :: rest =>
    let longer := Nat.ofDigitChars 10 [digit] coefficient
    if longer ≤ maxCoefficient then appendDigits longer rest else (coefficient, digit :: rest)

/-- The size of a number by the digits that fit, first those in front of the point, then those after
it. A digit that is left out in front of the point still counts as a place. -/
def decimal (n : Number) : Decimal :=
  let (coefficient, dropped) := appendDigits 0 n.integral
  let (coefficient, unread) := appendDigits coefficient n.fraction
  ⟨coefficient, n.exponent.getD 0 + dropped.length - (n.fraction.length - unread.length : Int)⟩

/-- A number as a float, by the digits that fit. -/
def toFloat (n : Number) : Float :=
  if n.negative then -n.decimal.scaled else n.decimal.scaled

/-- A number as a float of the given rounding, unless it is beyond all of them. -/
def float? (toFloat : Number → Float) (n : Number) : Option Float :=
  if (toFloat n).isFinite then some (toFloat n) else none

end Number

end ArrowExpr.Json
