/-!
The operators of expressions, and how each is spelled in expression source and in error messages.
-/

namespace ArrowExpr

/-- Operators between two operands. -/
inductive BinaryOp where
  | add | sub | mul | div | mod
  | concat
  | eq | notEq | lt | ltEq | gt | gtEq
  | and | or
deriving DecidableEq, Repr

/-- Operators in front of one operand. -/
inductive UnaryOp where
  | neg | pos | not
deriving DecidableEq, Repr

namespace BinaryOp

/-- The spelling in expression source. -/
def symbol : BinaryOp → String
  | add => "+"
  | sub => "-"
  | mul => "*"
  | div => "/"
  | mod => "%"
  | concat => "~"
  | eq => "=="
  | notEq => "!="
  | lt => "<"
  | ltEq => "<="
  | gt => ">"
  | gtEq => ">="
  | and => "and"
  | or => "or"

/-- The left operand alone may decide the result. -/
def isShortCircuit : BinaryOp → Bool
  | and | or => true
  | _ => false

/-- Every binary operator once. -/
def all : List BinaryOp :=
  [add, sub, mul, div, mod, concat, eq, notEq, lt, ltEq, gt, gtEq, and, or]

theorem mem_all (op : BinaryOp) : op ∈ all := by
  cases op <;> decide

end BinaryOp

namespace UnaryOp

/-- The spelling in expression source. -/
def symbol : UnaryOp → String
  | neg => "-"
  | pos => "+"
  | not => "not"

/-- Every unary operator once. -/
def all : List UnaryOp := [neg, pos, not]

theorem mem_all (op : UnaryOp) : op ∈ all := by
  cases op <;> decide

end UnaryOp

end ArrowExpr
