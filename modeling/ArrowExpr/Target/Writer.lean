import ArrowExpr.Target.Code
/-!
A buffer that target code is written into piece by piece. Most children of a node are written in
place; what goes into a call, a list or an arrow function is written aside and then put in as text.
-/

namespace ArrowExpr

/-- The target code that has been written so far. -/
structure Writer where
  source : String
deriving DecidableEq, Repr

namespace Writer

/-- Nothing is written yet. -/
def empty : Writer := ⟨""⟩

/-- Forgets what was written. -/
def reset (_ : Writer) : Writer := empty

/-- Appends a text as it is. -/
def raw (writer : Writer) (text : String) : Writer := ⟨writer.source ++ text⟩

/-- Appends a string literal. -/
def string (writer : Writer) (text : String) : Writer :=
  writer.raw (Quoted.write Literal.codeEscape text)

/-- Appends a literal. -/
def literal (writer : Writer) (l : Literal) : Writer := writer.raw l.code

/-- Appends a variable. -/
def name (writer : Writer) (x : String) : Writer := (writer.raw "$").raw x

/-- Writes with an empty buffer; yields what was written and the buffer as it was before. -/
def aside (writer : Writer) (write : Writer → Writer) : String × Writer :=
  let written := write writer.reset
  (written.source, { written with source := writer.source })

/-- Writes several variables aside, one after the other. -/
def asideNames : List String → Writer → List String × Writer
  | [], writer => ([], writer)
  | first :: rest, writer =>
    let (text, writer) := writer.aside (·.name first)
    let (texts, writer) := asideNames rest writer
    (text :: texts, writer)

mutual

/-- Appends the code of a node. -/
def node (registry : Registry) : Node → Writer → Writer
  | .constant l, writer => writer.literal l
  | .name x, writer => writer.name x
  | .unary op operand, writer =>
    (node registry operand ((writer.raw "(").raw op.code)).raw ")"
  | .binary op left right, writer =>
    let opened := node registry left (writer.raw "(")
    (node registry right (((opened.raw " ").raw op.code).raw " ")).raw ")"
  | .call function arguments, writer =>
    let (texts, writer) := asideAll registry arguments writer
    writer.raw (registry.callCode function texts)
  | .list items, writer =>
    let (texts, writer) := asideAll registry items writer
    ((writer.raw "[").raw (commaSeparated texts)).raw "]"
  | .arrow parameters none, writer =>
    let (names, writer) := asideNames parameters writer
    writer.raw (Node.functionCode names "null")
  | .arrow parameters (some body), writer =>
    let (names, writer) := asideNames parameters writer
    let (text, writer) := writer.aside (node registry body)
    writer.raw (Node.functionCode names text)

/-- Writes several nodes aside, one after the other. -/
def asideAll (registry : Registry) : List Node → Writer → List String × Writer
  | [], writer => ([], writer)
  | first :: rest, writer =>
    let (text, writer) := writer.aside (node registry first)
    let (texts, writer) := asideAll registry rest writer
    (text :: texts, writer)

end

/-- The code of a node, written aside. -/
def sub (registry : Registry) (writer : Writer) (n : Node) : String × Writer :=
  writer.aside (node registry n)

end Writer

end ArrowExpr
