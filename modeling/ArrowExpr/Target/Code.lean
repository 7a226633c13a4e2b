import ArrowExpr.Host.Registry
import ArrowExpr.Text.Quoted
/-!
The target code of an expression: `$name` variables, `.` for joining, anonymous `function`s. Each
text is built from the texts of the children alone, a registered function says itself how its calls
are written.
-/

namespace ArrowExpr

/-- Floats in target code, which has names for the special ones. -/
def FloatStyle.target : FloatStyle :=
  { FloatStyle.debug with notANumber := "NAN".toList, infinity := "INF".toList }

/-- The target spelling of a binary operator. -/
def BinaryOp.code : BinaryOp → String
  | and => "&&"
  | or => "||"
  | concat => "."
  | op => op.symbol

/-- The target spelling of a unary operator. -/
def UnaryOp.code : UnaryOp → String
  | not => "!"
  | op => op.symbol

namespace Literal

/-- A target string escapes NUL, the tab, the double quote, the dollar sign and the backslash. -/
def codeEscape : Char → List Char
  | '\x00' => ['\\', '0']
  | '\t' => ['\\', 't']
  | '"' => ['\\', '"']
  | '$' => ['\\', '$']
  | '\\' => ['\\', '\\']
  | c => [c]

/-- The target code of a literal. -/
def code : Literal → String
  | null => "null"
  | bool true => "true"
  | bool false => "false"
  | int n => n.toInt.repr
  | float x => FloatStyle.target.write x
  | str s => Quoted.write codeEscape s

end Literal

/-- The target code of a call: what the registered function says, or a plain call. -/
def Registry.callCode (registry : Registry) (name : String) (arguments : List String) : String :=
  match registry.find? name with
  | some function => function.compile arguments
  | none => HostFunction.plainCode name arguments

namespace Node

/-- The target code of a variable. -/
def variableCode (name : String) : String := "$" ++ name

/-- The target code of an anonymous function, from the code of its parameters and its body. -/
def functionCode (parameters : List String) (body : String) : String :=
  "function (" ++ commaSeparated parameters ++ ") \x7b return " ++ body ++ "; \x7d"

/-- The target code of an arrow function, from the code of its body. -/
def arrowCode (parameters : List String) (body : String) : String :=
  functionCode (parameters.map variableCode) body

mutual

/-- The target code of a node, with the functions of a registry. A missing body is `null`. -/
def code (registry : Registry) : Node → String
  | constant literal => literal.code
  | name x => variableCode x
  | unary op operand => "(" ++ op.code ++ code registry operand ++ ")"
  | binary op left right =>
    "(" ++ code registry left ++ " " ++ op.code ++ " " ++ code registry right ++ ")"
  | call function arguments => registry.callCode function (codeAll registry arguments)
  | list items => "[" ++ commaSeparated (codeAll registry items) ++ "]"
  | arrow parameters none => arrowCode parameters "null"
  | arrow parameters (some body) => arrowCode parameters (code registry body)

/-- The target code of several nodes. -/
def codeAll (registry : Registry) : List Node → List String
  | [] => []
  | node :: rest => code registry node :: codeAll registry rest

end

theorem codeAll_eq_map (registry : Registry) (nodes : List Node) :
    codeAll registry nodes = nodes.map (code registry) := by
  induction nodes with
  | nil => rfl
  | cons node rest ih => simp only [codeAll, ih, List.map_cons]

end Node

end ArrowExpr
