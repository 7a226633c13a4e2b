/-!
The ways in which an evaluation fails, and their messages.
-/

namespace ArrowExpr

/-- Why an evaluation failed. -/
inductive EvalError where
  /-- An arrow function was called with fewer arguments than it has parameters. -/
  | arityMismatch (expected got : Nat)
  /-- A callable was invoked as if it were any value. -/
  | invocationForbidden
  | undefinedVariable (name : String)
  | undefinedFunction (name : String)
  /-- A value that is no callable was invoked. -/
  | notCallable (typeName : String)
  | binaryTypeMismatch (op left right : String)
  | unaryTypeMismatch (op operand : String)
  | divisionByZero
  | moduloByZero
  | integerOverflow (operation : String)
  /-- A failure that a host function describes itself. -/
  | custom (message : String)
deriving DecidableEq, Repr

namespace EvalError

/-- The message for people. -/
def message : EvalError → String
  | arityMismatch expected got =>
    "invalid arrow function call: expected at least " ++ expected.repr ++
      " argument(s), got " ++ got.repr
  | invocationForbidden =>
    "callback wrapper cannot be invoked, use `SafeCallable::callback()` instead"
  | undefinedVariable name => "undefined variable: " ++ name
  | undefinedFunction name => "undefined function: " ++ name
  | notCallable typeName => "value of type " ++ typeName ++ " is not callable"
  | binaryTypeMismatch op left right =>
    "invalid operands for `" ++ op ++ "`: " ++ left ++ " and " ++ right
  | unaryTypeMismatch op operand => "invalid operand for `" ++ op ++ "`: " ++ operand
  | divisionByZero => "division by zero"
  | moduloByZero => "modulo by zero"
  | integerOverflow operation => "integer overflow in " ++ operation
  | custom message => message

end EvalError

end ArrowExpr
