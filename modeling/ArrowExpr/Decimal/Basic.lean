/-!
Positive decimal numbers, `coefficient * 10 ^ exponent`, and their way to and from binary64.

Every finite float has an exact decimal value (`ofBinary`), so all rounding in this library is done
on exact natural numbers; `toFloat` goes back to the nearest float, a tie to the even mantissa.
-/

namespace ArrowExpr

/-- The number `coefficient * 10 ^ exponent`. -/
structure Decimal where
  coefficient : Nat
  exponent : Int
deriving DecidableEq, Repr

namespace Decimal

/-- The exact decimal form of `mantissa * 2 ^ exponent`: a negative power of two is a power of five
over a power of ten. -/
def ofBinary (mantissa : Nat) (exponent : Int) : Decimal :=
  if 0 ≤ exponent then ⟨mantissa <<< exponent.toNat, 0⟩
  else ⟨mantissa * Nat.pow 5 (-exponent).toNat, exponent⟩

/-- The decimal digits of the coefficient. -/
def digits (d : Decimal) : List Char := Nat.toDigits 10 d.coefficient

/-- The same number without zeros at the end of its digits. -/
def normalize (d : Decimal) : Decimal :=
  let zeros := (d.digits.reverse.takeWhile (· == '0')).length
  ⟨d.coefficient / Nat.pow 10 zeros, d.exponent + zeros⟩

/-- The power of ten of the first digit: `magnitude` of 314.15 is 2. -/
def magnitude (d : Decimal) : Int := d.exponent + d.digits.length - 1

/-- The float nearest to the number, a tie to the even mantissa; infinity beyond the range. Zeros at
the end play no part in it. -/
def toFloat (d : Decimal) : Float :=
  .ofModel (.ofScientific d.normalize.coefficient d.normalize.exponent)

end Decimal

end ArrowExpr
