import ArrowExpr.EvalError
import ArrowExpr.Value.Text
/-!
The operators on values that are already evaluated. Integers stay integers where the result is exact
and fail where it does not fit; an integer beside a float becomes a float.
-/

namespace ArrowExpr

/-- A value or the reason for having none. -/
abbrev Outcome := Except EvalError Value

/-- The float nearest to an integer, a tie to the even mantissa. -/
def floatOfInt (n : Int64) : Float := .ofModel (.ofInt64 n)

/-- The integer, if it fits in 64 bits. -/
def int64? (n : Int) : Option Int64 :=
  if Int64.minValue.toInt ≤ n ∧ n ≤ Int64.maxValue.toInt then some (.ofInt n) else none

namespace Value

/-- Two numbers of which at least one is a float, both as floats. -/
def floats? : Value → Value → Option (Float × Float)
  | int a, float b => some (floatOfInt a, b)
  | float a, int b => some (a, floatOfInt b)
  | float a, float b => some (a, b)
  | _, _ => none

/-- Equality for the operators `==` and `!=`: two numbers are promoted, all else is compared as it
is, also what lists hold. -/
def looselyEqual (left right : Value) : Bool :=
  match floats? left right with
  | some (a, b) => a == b
  | none => left == right

end Value

namespace BinaryOp

/-- The operator does not apply to values of these types. -/
def mismatch (op : BinaryOp) (left right : Value) : EvalError :=
  .binaryTypeMismatch op.symbol left.typeName right.typeName

/-- An exact integer result, or an overflow of the operator. -/
def fitting (op : BinaryOp) (n : Int) : Outcome :=
  match int64? n with
  | some n => .ok (.int n)
  | none => .error (.integerOverflow op.symbol)

/-- Sums, differences and products. -/
def arithmetic (op : BinaryOp) (exact : Int → Int → Int) (rounded : Float → Float → Float) :
    Value → Value → Outcome
  | .int a, .int b => op.fitting (exact a.toInt b.toInt)
  | left, right =>
    match Value.floats? left right with
    | some (a, b) => .ok (.float (rounded a b))
    | none => .error (op.mismatch left right)

/-- A quotient of integers is an integer if it is exact, and else the quotient of two floats. -/
def divide : Value → Value → Outcome
  | .int a, .int b =>
    if b = 0 then .error .divisionByZero
    else if a.toInt.tmod b.toInt = 0 then div.fitting (a.toInt.tdiv b.toInt)
    else .ok (.float (floatOfInt a / floatOfInt b))
  | left, right =>
    match Value.floats? left right with
    | some (a, b) => if b == 0.0 then .error .divisionByZero else .ok (.float (a / b))
    | none => .error (div.mismatch left right)

/-- The remainder of the division that truncates, for integers only. It fails, as the division
itself does, if the quotient does not fit. -/
def remainder : Value → Value → Outcome
  | .int a, .int b =>
    if b = 0 then .error .moduloByZero
    else
      match int64? (a.toInt.tdiv b.toInt) with
      | some _ => .ok (.int (.ofInt (a.toInt.tmod b.toInt)))
      | none => .error (.integerOverflow mod.symbol)
  | left, right => .error (mod.mismatch left right)

/-- The two texts joined. -/
def join (left right : Value) : Outcome :=
  match left.text?, right.text? with
  | some a, some b => .ok (.str (a ++ b))
  | _, _ => .error (concat.mismatch left right)

/-- How two numbers are ordered; a NaN is not ordered at all. -/
def compareFloats (a b : Float) : Option Ordering :=
  if a < b then some .lt
  else if b < a then some .gt
  else if a == b then some .eq
  else none

/-- How two values are ordered: two strings by their characters, two numbers by size. The outer
`none` says that they cannot be compared. -/
def order? : Value → Value → Option (Option Ordering)
  | .int a, .int b => some (some (compare a.toInt b.toInt))
  | .str a, .str b => some (some (compare a b))
  | left, right => (Value.floats? left right).map fun (a, b) => compareFloats a b

/-- A comparison, which is false if one side is a NaN. -/
def comparison (op : BinaryOp) (holds : Ordering → Bool) (left right : Value) : Outcome :=
  match order? left right with
  | some ordering => .ok (.bool (ordering.any holds))
  | none => .error (op.mismatch left right)

/-- The operator applied to two values. -/
def apply : BinaryOp → Value → Value → Outcome
  | add, left, right => add.arithmetic (· + ·) (· + ·) left right
  | sub, left, right => sub.arithmetic (· - ·) (· - ·) left right
  | mul, left, right => mul.arithmetic (· * ·) (· * ·) left right
  | div, left, right => divide left right
  | mod, left, right => remainder left right
  | concat, left, right => join left right
  | eq, left, right => .ok (.bool (left.looselyEqual right))
  | notEq, left, right => .ok (.bool !(left.looselyEqual right))
  | lt, left, right => lt.comparison Ordering.isLT left right
  | ltEq, left, right => ltEq.comparison Ordering.isLE left right
  | gt, left, right => gt.comparison Ordering.isGT left right
  | gtEq, left, right => gtEq.comparison Ordering.isGE left right
  | and, left, right => .ok (.bool (left.isTruthy && right.isTruthy))
  | or, left, right => .ok (.bool (left.isTruthy || right.isTruthy))

end BinaryOp

/-- The operator applied to a value. -/
def UnaryOp.apply : UnaryOp → Value → Outcome
  | neg, .int n =>
    match int64? (-n.toInt) with
    | some n => .ok (.int n)
    | none => .error (.integerOverflow neg.symbol)
  | neg, .float x => .ok (.float (-x))
  | pos, .int n => .ok (.int n)
  | pos, .float x => .ok (.float x)
  | not, operand => .ok (.bool !operand.isTruthy)
  | op, operand => .error (.unaryTypeMismatch op.symbol operand.typeName)

/-- Invoking a value as such never succeeds: a callable runs only for those who ask for it by a call
of their own. -/
def Value.invoke : Value → List Value → Outcome
  | callable _, _ => .error .invocationForbidden
  | value, _ => .error (.notCallable value.typeName)

end ArrowExpr
