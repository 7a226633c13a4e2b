import ArrowExpr.Decimal.FloatText
import ArrowExpr.Syntax.Node
import ArrowExpr.Text.Quoted
import ArrowExpr.Text.Separated
/-!
The dump of an expression: a text for people to read, and the parts that it is made of. `parts` goes
one level deep and `dump` all the way; `dump_eq_parts` says that they agree.
-/

namespace ArrowExpr

namespace Literal

/-- A string literal escapes NUL, the tab, the double quote and the backslash. -/
def escape : Char → List Char
  | '\x00' => ['\\', '0']
  | '\t' => ['\\', 't']
  | '"' => ['\\', '"']
  | '\\' => ['\\', '\\']
  | c => [c]

/-- The literal as it is written in expression source. -/
def text : Literal → String
  | null => "null"
  | bool true => "true"
  | bool false => "false"
  | int n => n.toInt.repr
  | float x => FloatStyle.debug.write x
  | str s => Quoted.write escape s

end Literal

/-- A piece of the dump of a node. -/
inductive DumpPart where
  | text (text : String)
  | node (node : Node)
  | name (name : String)

namespace DumpPart

/-- The items with a comma between them. -/
def separated : List DumpPart → List DumpPart
  | [] => []
  | [item] => [item]
  | item :: rest => item :: text ", " :: separated rest

end DumpPart

namespace Node

/-- The pieces of the node's dump, with its children not yet dumped. -/
def parts : Node → List DumpPart
  | constant literal => [.text literal.text]
  | name x => [.text x]
  | unary op operand => [.text "(", .text (op.symbol ++ " "), .node operand, .text ")"]
  | binary op left right =>
    [.text "(", .node left, .text (" " ++ op.symbol ++ " "), .node right, .text ")"]
  | call function arguments =>
    [.text function, .text "("] ++ DumpPart.separated (arguments.map .node) ++ [.text ")"]
  | list items => [.text "["] ++ DumpPart.separated (items.map .node) ++ [.text "]"]
  | arrow parameters body =>
    [.text "("] ++ DumpPart.separated (parameters.map .name) ++ [.text ") -> \x7b"] ++
      (body.map .node).toList ++ [.text "\x7d"]

mutual

/-- The node as readable text. -/
def dump : Node → String
  | constant literal => literal.text
  | name x => x
  | unary op operand => "(" ++ op.symbol ++ " " ++ dump operand ++ ")"
  | binary op left right => "(" ++ dump left ++ " " ++ op.symbol ++ " " ++ dump right ++ ")"
  | call function arguments => function ++ "(" ++ commaSeparated (dumpAll arguments) ++ ")"
  | list items => "[" ++ commaSeparated (dumpAll items) ++ "]"
  | arrow parameters none => "(" ++ commaSeparated parameters ++ ") -> \x7b\x7d"
  | arrow parameters (some body) =>
    "(" ++ commaSeparated parameters ++ ") -> \x7b" ++ dump body ++ "\x7d"

/-- The dumps of several nodes. -/
def dumpAll : List Node → List String
  | [] => []
  | node :: rest => dump node :: dumpAll rest

end

theorem dumpAll_eq_map (nodes : List Node) : dumpAll nodes = nodes.map dump := by
  induction nodes with
  | nil => rfl
  | cons node rest ih => simp only [dumpAll, ih, List.map_cons]

end Node

/-- The text of a piece. -/
def DumpPart.dump : DumpPart → String
  | text s => s
  | node n => n.dump
  | name x => x

namespace DumpPart

theorem join_separated (items : List DumpPart) :
    String.join ((separated items).map dump) = commaSeparated (items.map dump) := by
  apply String.toList_inj.mp
  rw [toList_commaSeparated, String.toList_join]
  induction items with
  | nil => rfl
  | cons item rest ih =>
    cases rest with
    | nil => simp [separated, List.intercalate]
    | cons next others =>
      simp only [separated, List.map_cons, List.flatMap_cons, dump] at ih ⊢
      rw [ih]
      simp [List.intercalate]

theorem map_dump_node (nodes : List Node) : (nodes.map node).map dump = nodes.map Node.dump := by
  simp [dump]

theorem map_dump_name (names : List String) : (names.map name).map dump = names := by
  induction names with
  | nil => rfl
  | cons first rest ih => simp only [List.map_cons, ih, dump]

end DumpPart

/-- The dump of a node is the dumps of its parts, one after the other. -/
theorem Node.dump_eq_parts (node : Node) :
    node.dump = String.join (node.parts.map DumpPart.dump) := by
  cases node with
  | call function arguments =>
    simp [dump, parts, String.join_append, DumpPart.join_separated, DumpPart.map_dump_node,
      dumpAll_eq_map, DumpPart.dump, String.append_assoc, -List.map_map]
  | list items =>
    simp [dump, parts, String.join_append, DumpPart.join_separated, DumpPart.map_dump_node,
      dumpAll_eq_map, DumpPart.dump, String.append_assoc, -List.map_map]
  | arrow parameters body =>
    cases body <;>
      simp [dump, parts, String.join_append, DumpPart.join_separated, DumpPart.map_dump_name,
        DumpPart.dump, String.append_assoc, -List.map_map]
  | _ => simp [dump, parts, DumpPart.dump, String.append_assoc]

end ArrowExpr
