import ArrowExpr.Engine
/-!
# What a writer writes

A node appends its target code to the writer and changes nothing else (`node_eq_raw`), so the code
that an engine compiles is that of the node (`compile_eq_code`).
-/

namespace ArrowExpr

namespace Writer

@[simp] theorem source_raw (writer : Writer) (text : String) :
    (writer.raw text).source = writer.source ++ text := rfl

@[simp] theorem raw_raw (writer : Writer) (first second : String) :
    (writer.raw first).raw second = writer.raw (first ++ second) := by
  simp only [raw, String.append_assoc]

@[simp] theorem source_reset (writer : Writer) : writer.reset.source = "" := rfl

theorem aside_eq {text : String} {write : Writer → Writer}
    (writes : ∀ writer, write writer = writer.raw text) (writer : Writer) :
    writer.aside write = (text, writer) := by
  rw [aside, writes]
  simp only [source_raw, source_reset, String.empty_append]

theorem name_eq_raw (writer : Writer) (x : String) :
    writer.name x = writer.raw (Node.variableCode x) := raw_raw _ _ _

theorem asideNames_eq (names : List String) (writer : Writer) :
    writer.asideNames names = (names.map Node.variableCode, writer) := by
  induction names with
  | nil => rfl
  | cons first rest ih =>
    rw [asideNames, aside_eq fun other => other.name_eq_raw first]
    simp only [ih, List.map_cons]

mutual

/-- A node appends its code. -/
theorem node_eq_raw (registry : Registry) :
    (n : Node) → (writer : Writer) → writer.node registry n = writer.raw (n.code registry)
  | .constant l, writer => rfl
  | .name x, writer => by rw [node, Node.code, name_eq_raw]
  | .unary op operand, writer => by
    rw [node, Node.code, node_eq_raw registry operand]
    simp only [raw_raw, String.append_assoc]
  | .binary op left right, writer => by
    rw [node, Node.code, node_eq_raw registry left]
    simp only [raw_raw, String.append_assoc]
    rw [node_eq_raw registry right]
    simp only [raw_raw, String.append_assoc]
  | .call function arguments, writer => by
    rw [node, Node.code, asideAll_eq registry arguments]
  | .list items, writer => by
    rw [node, Node.code, asideAll_eq registry items]
    simp only [raw_raw, String.append_assoc]
  | .arrow parameters none, writer => by
    rw [node, Node.code, asideNames_eq, Node.arrowCode]
  | .arrow parameters (some body), writer => by
    rw [node, Node.code, asideNames_eq, Node.arrowCode]
    simp only [aside_eq (node_eq_raw registry body)]

theorem asideAll_eq (registry : Registry) :
    (nodes : List Node) → (writer : Writer) →
      writer.asideAll registry nodes = (Node.codeAll registry nodes, writer)
  | [], writer => rfl
  | first :: rest, writer => by
    rw [asideAll, Node.codeAll, aside_eq (node_eq_raw registry first)]
    simp only [asideAll_eq registry rest writer]

end

end Writer

/-- An engine compiles a node to its code with the functions registered now. -/
theorem EngineId.compile_eq_code (engine : EngineId) (node : Node) (world : World) :
    engine.compile node world = node.code (world.registry engine) := by
  rw [compile, Writer.node_eq_raw, Writer.source_raw, Writer.empty, String.empty_append]

end ArrowExpr
