import ArrowExpr.Syntax.Node
/-!
Runtime values. A callable value is only a name for a closure: what the closure does is looked up in
the `World` that an evaluation runs in, so values can be compared, copied and printed without it.

`==` on values compares floats as numbers and callables by identity; it does not promote integers.
-/

namespace ArrowExpr

/-- The identity of a callable. -/
inductive CallableId where
  /-- The one callable of all arrow functions without a body. -/
  | noop
  /-- The closure that was made after `index` others. -/
  | made (index : Nat)
deriving DecidableEq, Repr

/-- What an expression evaluates to. -/
inductive Value where
  | null
  | bool (b : Bool)
  | int (n : Int64)
  | float (x : Float)
  | str (s : String)
  | list (items : List Value)
  | callable (id : CallableId)

namespace Value

mutual

/-- Equality without promotion: floats as numbers, callables by identity. -/
protected def beq : Value → Value → Bool
  | null, null => true
  | bool a, bool b => a == b
  | int a, int b => a == b
  | float a, float b => a == b
  | str a, str b => a == b
  | list as, list bs => Value.beqAll as bs
  | callable a, callable b => a == b
  | _, _ => false

/-- Equality of two lists of values, position by position. -/
protected def beqAll : List Value → List Value → Bool
  | [], [] => true
  | a :: as, b :: bs => Value.beq a b && Value.beqAll as bs
  | _, _ => false

end

instance : BEq Value := ⟨Value.beq⟩

/-- The value that a literal stands for. -/
def ofLiteral : Literal → Value
  | .null => null
  | .bool b => bool b
  | .int n => int n
  | .float x => float x
  | .str s => str s

/-- A count as an integer value; counts beyond the integers stop at the greatest. -/
def ofCount (n : Nat) : Value := int (.ofInt (min n Int64.maxValue.toInt))

/-- The name of the value's type in error messages. -/
def typeName : Value → String
  | null => "null"
  | bool _ => "bool"
  | int _ => "int"
  | float _ => "float"
  | str _ => "string"
  | list _ => "list"
  | callable _ => "callable"

/-- What counts as true for `and`, `or` and `not`. The strings `""` and `"0"` are false, a NaN is
true. -/
def isTruthy : Value → Bool
  | null => false
  | bool b => b
  | int n => n != 0
  | float x => x != 0.0
  | str s => s != "" && s != "0"
  | list items => !items.isEmpty
  | callable _ => true

/-- The identity of a callable value. -/
def callable? : Value → Option CallableId
  | callable id => some id
  | _ => none

end Value

end ArrowExpr
