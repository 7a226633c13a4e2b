import ArrowExpr.Decimal.Basic
/-!
Fewer digits for a decimal number: to a given count (`round`), or as few as still read back
(`shortest`). Both work on exact naturals.
-/

namespace ArrowExpr

/-- Which neighbour a number takes that lies halfway between two. -/
inductive Tie where
  | up
  | toEven
deriving DecidableEq, Repr

/-- The nearer of `low` and `low + 1` to what lies `rest / unit` above `low`. -/
def Tie.nearest (tie : Tie) (low rest unit : Nat) : Nat :=
  match compare (2 * rest) unit with
  | .lt => low
  | .gt => low + 1
  | .eq =>
    match tie with
    | .up => low + 1
    | .toEven => low + low % 2

namespace Decimal

/-- The number at `count` significant digits, the nearest such number, a tie to the even digit. -/
def round (count : Nat) (d : Decimal) : Decimal :=
  let dropped := d.digits.length - count
  let unit := Nat.pow 10 dropped
  ⟨Tie.toEven.nearest (d.coefficient / unit) (d.coefficient % unit) unit, d.exponent + dropped⟩

/-- The nearest number of `count` digits that is admitted, among the two next to `d`. -/
def admittedAt (tie : Tie) (admitted : Decimal → Bool) (d : Decimal) (count : Nat) :
    Option Decimal :=
  let dropped := d.digits.length - count
  let unit := Nat.pow 10 dropped
  let low := d.coefficient / unit
  let rest := d.coefficient % unit
  let onGrid (coefficient : Nat) : Decimal := ⟨coefficient, d.exponent + dropped⟩
  match admitted (onGrid low), admitted (onGrid (low + 1)) with
  | true, true => some (onGrid (tie.nearest low rest unit))
  | true, false => some (onGrid low)
  | false, true => some (onGrid (low + 1))
  | false, false => none

/-- Seventeen digits tell any two floats apart. -/
def maxDigits : Nat := 17

/-- The fewest digits, at most seventeen, that are admitted, and of those the nearest to `d`; all
digits of `d` if there are none. -/
def shortest (tie : Tie) (admitted : Decimal → Bool) (d : Decimal) : Decimal :=
  ((List.range' 1 maxDigits).findSome? (admittedAt tie admitted d)).getD d

end Decimal

end ArrowExpr
