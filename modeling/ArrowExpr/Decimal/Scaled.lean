import ArrowExpr.Decimal.Basic
/-!
A float near a decimal number, without exact arithmetic: the coefficient and a power of ten are
rounded on their own, then multiplied or divided. The result may miss the nearest float by a few
units in the last place; `toFloat` is the nearest.
-/

namespace ArrowExpr.Decimal

/-- The greatest exponent of a power of ten that is in the range of floats. -/
def maxPower : Nat := 308

/-- The float nearest to a power of ten. -/
def powerOfTen (exponent : Nat) : Float := toFloat ⟨1, exponent⟩

/-- The coefficient times or over a power of ten, as floats. A power above the range of floats is
infinite, and one below the smallest floats takes two divisions. -/
def scaled (d : Decimal) : Float :=
  let x := toFloat ⟨d.coefficient, 0⟩
  let power := d.exponent.natAbs
  if 0 ≤ d.exponent then
    if power ≤ maxPower then x * powerOfTen power
    else if d.coefficient = 0 then 0 else 1 / 0
  else if power ≤ maxPower then x / powerOfTen power
  else if power ≤ 2 * maxPower then x / powerOfTen maxPower / powerOfTen (power - maxPower)
  else 0

end ArrowExpr.Decimal
