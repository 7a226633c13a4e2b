import ArrowExpr.Json.Reader
import ArrowExpr.Syntax.Node
/-!
Expressions as JSON documents. A node is an object with one member, whose key names the form of the
node; so is a literal, except that `"Null"` is a bare string. Fields have a fixed order when written
and any order when read; unknown fields are left out, repeated and missing ones are errors. Only the
body of an arrow function may be missing. A group of fields may also be read from an array of all of
them in order.

How floats are read and how deep documents may be nested is up to the reading (`Json.Reading`). As
a rule 127 arrays and objects may be open at once in what is read; what is left out has no such
limit.

Writers and readers of this kind are derived from the forms of nodes and literals, on top of a JSON
package. How the two behave is stated here and assumed of them. Beside what is said above:

* A form without fields is a bare string, and may also be read from an object whose member is null.
* A float that is not finite is written as null, and null is not read as a float. A number beyond
  all floats is an error, whatever the rounding is (`Json.Number.float?`).
* Where a float is expected any number may stand. Where an integer is expected a number with a point
  or an exponent is an error, and so are `-0` and a number that does not fit in 64 bits.

Errors are not told apart: a text that stands for no node has none (`Json.Reading.read?`).
-/

namespace ArrowExpr

open Json (object array str)

namespace Json

/-- An object with one member. -/
def tagged (tag : String) (payload : Json) : Json := object [(some tag, payload)]

/-- A text. -/
def ofString (text : String) : Json := str (some text)

/-- A float, or null if it is not finite. -/
def ofFloat (x : Float) : Json :=
  if x.isFinite then number (floatStyle.write x).toList else null

/-- An integer. -/
def ofInt (n : Int) : Json := number n.repr.toList

end Json

open Json (tagged ofString)

/-- The name of the operator in JSON. -/
def BinaryOp.tag : BinaryOp → String
  | add => "Add"
  | sub => "Sub"
  | mul => "Mul"
  | div => "Div"
  | mod => "Mod"
  | concat => "Concat"
  | eq => "Eq"
  | notEq => "NotEq"
  | lt => "Lt"
  | ltEq => "LtEq"
  | gt => "Gt"
  | gtEq => "GtEq"
  | and => "And"
  | or => "Or"

/-- The name of the operator in JSON. -/
def UnaryOp.tag : UnaryOp → String
  | neg => "Neg"
  | pos => "Pos"
  | not => "Not"

/-- The operator of a name. -/
def BinaryOp.ofTag? (tag : String) : Option BinaryOp := all.find? (·.tag == tag)

/-- The operator of a name. -/
def UnaryOp.ofTag? (tag : String) : Option UnaryOp := all.find? (·.tag == tag)

theorem BinaryOp.ofTag?_tag (op : BinaryOp) : ofTag? op.tag = some op := by
  cases op <;> rfl

theorem UnaryOp.ofTag?_tag (op : UnaryOp) : ofTag? op.tag = some op := by
  cases op <;> rfl

/-! ## Writing -/

/-- The document of a literal. -/
def Literal.toJson : Literal → Json
  | null => ofString "Null"
  | bool b => tagged "Bool" (.bool b)
  | int n => tagged "Int" (.ofInt n.toInt)
  | float x => tagged "Float" (.ofFloat x)
  | str s => tagged "Str" (ofString s)

namespace Node

/-- The document of a variable or a parameter. -/
def nameToJson (name : String) : Json := object [(some "name", ofString name)]

mutual

/-- The document of a node. -/
def toJson : Node → Json
  | constant literal => tagged "Constant" literal.toJson
  | name x => tagged "Name" (nameToJson x)
  | unary op operand =>
    tagged "Unary" (object [(some "op", ofString op.tag), (some "operand", toJson operand)])
  | binary op left right =>
    tagged "Binary" (object
      [(some "op", ofString op.tag), (some "left", toJson left), (some "right", toJson right)])
  | call function arguments =>
    tagged "Function" (object
      [(some "name", ofString function), (some "arguments", array (allToJson arguments))])
  | list items => tagged "Array" (array (allToJson items))
  | arrow parameters none =>
    tagged "ArrowFunc" (object
      [(some "parameters", array (parameters.map nameToJson)), (some "body", .null)])
  | arrow parameters (some body) =>
    tagged "ArrowFunc" (object
      [(some "parameters", array (parameters.map nameToJson)), (some "body", toJson body)])

/-- The documents of several nodes. -/
def allToJson : List Node → List Json
  | [] => []
  | node :: rest => toJson node :: allToJson rest

end

end Node

/-! ## Reading -/

mutual

/-- How many arrays and objects are open at once in a document. -/
def Json.depth : Json → Nat
  | .array items => depthAll items + 1
  | .object members => depthMembers members + 1
  | _ => 0

/-- How many arrays and objects are open at once in the items of an array. -/
def Json.depthAll : List Json → Nat
  | [] => 0
  | item :: rest => max (depth item) (depthAll rest)

/-- How many arrays and objects are open at once in the members of an object. -/
def Json.depthMembers : List (Option String × Json) → Nat
  | [] => 0
  | (_, value) :: rest => max (depth value) (depthMembers rest)

end

/-- A way to read documents. -/
structure Json.Reading where
  /-- The float that a number is rounded to. It is infinite if the number is beyond all floats. -/
  toFloat : Number → Float
  /-- How many arrays and objects may be open at once in what is read, if that has a limit. -/
  maxDepth : Option Nat

/-- The reading without further wishes: floats are read from the digits that fit. -/
def Json.Reading.default : Reading := ⟨Number.toFloat, some 127⟩

/-! The readers take the number of arrays and objects that may still be opened. -/

/-- The unit variant that a document names: a bare string, or an object whose member is null. -/
def Json.unitTag? : Nat → Json → Option String
  | _, str (some tag) => some tag
  | _ + 1, object [(some tag, .null)] => some tag
  | _, _ => none

/-- The operator that a document names. -/
def BinaryOp.ofJson? (depth : Nat) (json : Json) : Option BinaryOp :=
  (Json.unitTag? depth json).bind ofTag?

/-- The operator that a document names. -/
def UnaryOp.ofJson? (depth : Nat) (json : Json) : Option UnaryOp :=
  (Json.unitTag? depth json).bind ofTag?

/-- The text of a document that is one. -/
def Json.text? : Json → Option String
  | str text => text
  | _ => none

section

variable (toFloat : Json.Number → Float)

/-- The literal of a document. -/
def Literal.ofJson? : Nat → Json → Option Literal
  | _, .str (some tag) => if tag = "Null" then some null else none
  | _ + 1, object [(some tag, payload)] =>
    match tag, payload with
    | "Null", .null => some null
    | "Bool", .bool b => some (bool b)
    | "Int", .number text => (Json.Number.ofText? text).bind (·.int64?) |>.map int
    | "Float", .number text => (Json.Number.ofText? text).bind (·.float? toFloat) |>.map float
    | "Str", .str (some text) => some (str text)
    | _, _ => none
  | _, _ => none

namespace Node

/-- The name among the fields of a variable or a parameter, which may have been read already. -/
def nameFields? : List (Option String × Json) → Option String → Option String
  | [], found => found
  | (none, _) :: _, _ => none
  | (some key, json) :: rest, found =>
    if key = "name" then
      if found.isSome then none else do nameFields? rest (some (← json.text?))
    else nameFields? rest found

/-- The name of a variable or a parameter. -/
def nameOfJson? : Nat → Json → Option String
  | _ + 1, object members => nameFields? members none
  | _ + 1, array [json] => json.text?
  | _, _ => none

/-- The names of a list of parameters. -/
def parametersOfJson? : Nat → Json → Option (List String)
  | depth + 1, array items => items.mapM (nameOfJson? depth)
  | _, _ => none

/-- The body of an arrow function, from its document and what that is as a node. Null leaves it
out. -/
def bodyOfJson? : Json → Option Node → Option (Option Node)
  | .null, _ => some none
  | _, node => node.map some

mutual

/-- The node of a document. -/
def ofJson? : Nat → Json → Option Node
  | depth + 1, object [(some tag, payload)] =>
    if tag = "Constant" then (Literal.ofJson? toFloat depth payload).map constant
    else if tag = "Name" then (nameOfJson? depth payload).map name
    else if tag = "Unary" then unaryOfJson? depth payload
    else if tag = "Binary" then binaryOfJson? depth payload
    else if tag = "Function" then callOfJson? depth payload
    else if tag = "Array" then (itemsOfJson? depth payload).map list
    else if tag = "ArrowFunc" then arrowOfJson? depth payload
    else none
  | _, _ => none

/-- The nodes of an array. -/
def itemsOfJson? : Nat → Json → Option (List Node)
  | depth + 1, array items => allOfJson? depth items
  | _, _ => none

/-- The nodes of several documents. -/
def allOfJson? : Nat → List Json → Option (List Node)
  | _, [] => some []
  | depth, json :: rest => do return (← ofJson? depth json) :: (← allOfJson? depth rest)

/-- A unary operation. -/
def unaryOfJson? : Nat → Json → Option Node
  | depth + 1, object members => unaryFields? depth members none none
  | depth + 1, array [op, operand] => do
    return unary (← UnaryOp.ofJson? depth op) (← ofJson? depth operand)
  | _, _ => none

/-- A binary operation. -/
def binaryOfJson? : Nat → Json → Option Node
  | depth + 1, object members => binaryFields? depth members none none none
  | depth + 1, array [op, left, right] => do
    return binary (← BinaryOp.ofJson? depth op) (← ofJson? depth left) (← ofJson? depth right)
  | _, _ => none

/-- A call. -/
def callOfJson? : Nat → Json → Option Node
  | depth + 1, object members => callFields? depth members none none
  | depth + 1, array [function, arguments] => do
    return call (← function.text?) (← itemsOfJson? depth arguments)
  | _, _ => none

/-- An arrow function. -/
def arrowOfJson? : Nat → Json → Option Node
  | depth + 1, object members => arrowFields? depth members none none
  | depth + 1, array [parameters, body] => do
    return arrow (← parametersOfJson? depth parameters) (← bodyOfJson? body (ofJson? depth body))
  | _, _ => none

/-- A unary operation from its fields, of which some have been read. -/
def unaryFields? : Nat → List (Option String × Json) → Option UnaryOp → Option Node → Option Node
  | _, [], some op, some operand => some (unary op operand)
  | _, [], _, _ => none
  | _, (none, _) :: _, _, _ => none
  | depth, (some key, json) :: rest, op, operand =>
    if key = "op" then
      if op.isSome then none
      else do unaryFields? depth rest (some (← UnaryOp.ofJson? depth json)) operand
    else if key = "operand" then
      if operand.isSome then none
      else do unaryFields? depth rest op (some (← ofJson? depth json))
    else unaryFields? depth rest op operand

/-- A binary operation from its fields, of which some have been read. -/
def binaryFields? : Nat → List (Option String × Json) → Option BinaryOp → Option Node →
    Option Node → Option Node
  | _, [], some op, some left, some right => some (binary op left right)
  | _, [], _, _, _ => none
  | _, (none, _) :: _, _, _, _ => none
  | depth, (some key, json) :: rest, op, left, right =>
    if key = "op" then
      if op.isSome then none
      else do binaryFields? depth rest (some (← BinaryOp.ofJson? depth json)) left right
    else if key = "left" then
      if left.isSome then none
      else do binaryFields? depth rest op (some (← ofJson? depth json)) right
    else if key = "right" then
      if right.isSome then none
      else do binaryFields? depth rest op left (some (← ofJson? depth json))
    else binaryFields? depth rest op left right

/-- A call from its fields, of which some have been read. -/
def callFields? : Nat → List (Option String × Json) → Option String → Option (List Node) →
    Option Node
  | _, [], some function, some arguments => some (call function arguments)
  | _, [], _, _ => none
  | _, (none, _) :: _, _, _ => none
  | depth, (some key, json) :: rest, function, arguments =>
    if key = "name" then
      if function.isSome then none
      else do callFields? depth rest (some (← json.text?)) arguments
    else if key = "arguments" then
      if arguments.isSome then none
      else do callFields? depth rest function (some (← itemsOfJson? depth json))
    else callFields? depth rest function arguments

/-- An arrow function from its fields, of which some have been read. -/
def arrowFields? : Nat → List (Option String × Json) → Option (List String) →
    Option (Option Node) → Option Node
  | _, [], some parameters, body => some (arrow parameters (body.getD none))
  | _, [], none, _ => none
  | _, (none, _) :: _, _, _ => none
  | depth, (some key, json) :: rest, parameters, body =>
    if key = "parameters" then
      if parameters.isSome then none
      else do arrowFields? depth rest (some (← parametersOfJson? depth json)) body
    else if key = "body" then
      if body.isSome then none
      else do arrowFields? depth rest parameters (some (← bodyOfJson? json (ofJson? depth json)))
    else arrowFields? depth rest parameters body

end

end Node

end

/-- The text of a node in JSON. -/
def Node.writeJson (node : Node) : String := node.toJson.write

/-- The node that a JSON text stands for. -/
def Json.Reading.read? (reading : Json.Reading) (text : String) : Option Node :=
  (Json.ofText? text).bind fun json =>
    Node.ofJson? reading.toFloat (reading.maxDepth.getD json.depth) json

/-- The node that a JSON text stands for. -/
def Node.readJson? (text : String) : Option Node := Json.Reading.default.read? text

end ArrowExpr
