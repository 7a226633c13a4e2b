import ArrowExpr.Syntax.Operator
/-!
Expression trees. There is no concrete syntax here: a host builds trees, and the rest of the library
evaluates them, turns them into target code, dumps them or exchanges them as JSON.

`==` on literals and nodes is the language's structural equality, which compares float constants as
numbers: `0.0` equals `-0.0`, and a tree that holds a NaN differs from itself.
-/

namespace ArrowExpr

/-- A constant that is written in an expression. -/
inductive Literal where
  | null
  | bool (b : Bool)
  | int (n : Int64)
  | float (x : Float)
  | str (s : String)
deriving BEq

/-- An expression. -/
inductive Node where
  /-- A literal constant. -/
  | constant (literal : Literal)
  /-- A variable. -/
  | name (name : String)
  /-- An operator in front of its operand. -/
  | unary (op : UnaryOp) (operand : Node)
  /-- An operator between its operands. -/
  | binary (op : BinaryOp) (left right : Node)
  /-- A call of a registered function. -/
  | call (function : String) (arguments : List Node)
  /-- A list of the values of its items. -/
  | list (items : List Node)
  /-- An anonymous function. Parameters may repeat; without a body it does nothing. -/
  | arrow (parameters : List String) (body : Option Node)

namespace Node

mutual

/-- Structural equality, with float constants compared as numbers. -/
protected def beq : Node → Node → Bool
  | constant a, constant b => a == b
  | name x, name y => x == y
  | unary op a, unary op' b => op == op' && Node.beq a b
  | binary op a b, binary op' a' b' => op == op' && Node.beq a a' && Node.beq b b'
  | call f as, call g bs => f == g && Node.beqAll as bs
  | list as, list bs => Node.beqAll as bs
  | arrow ps none, arrow qs none => ps == qs
  | arrow ps (some a), arrow qs (some b) => ps == qs && Node.beq a b
  | _, _ => false

/-- Equality of two lists of nodes, position by position. -/
protected def beqAll : List Node → List Node → Bool
  | [], [] => true
  | a :: as, b :: bs => Node.beq a b && Node.beqAll as bs
  | _, _ => false

end

instance : BEq Node := ⟨Node.beq⟩

end Node

end ArrowExpr
