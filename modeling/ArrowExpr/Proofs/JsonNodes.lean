import ArrowExpr.Json.Node
import ArrowExpr.Proofs.JsonNumbers
/-!
# Expressions read back from their documents

The document of a node is read as that node if all its floats are finite, and else not at all
(`Node.ofJson?_toJson`). This takes as much depth as the document has, and floats that are read as
they were written (`ReadsFloats`); an exact reading does that (`Json.Reading.Exact.readsFloats`).
There is one equation for each form of node, from its fields to the documents in them
(`Node.ofJson?_unary` and so on).
-/

namespace ArrowExpr

open Json (tagged ofString object array)

/-! ## Definitions -/

/-- The literal is no float, or a finite one. -/
def Literal.isFinite : Literal → Bool
  | float x => x.isFinite
  | _ => true

namespace Node

mutual

/-- All floats in the node are finite, also those in bodies of arrow functions. -/
def isFinite : Node → Bool
  | constant l => l.isFinite
  | name _ => true
  | unary _ operand => isFinite operand
  | binary _ left right => isFinite left && isFinite right
  | call _ arguments => allFinite arguments
  | list items => allFinite items
  | arrow _ none => true
  | arrow _ (some body) => isFinite body

/-- All floats in the nodes are finite. -/
def allFinite : List Node → Bool
  | [] => true
  | node :: rest => isFinite node && allFinite rest

end

end Node

/-- What a reading must do for documents of any depth to be read as they were written: the text of a
float, in the fewest digits, is rounded to the float nearest to it, and nesting has no bound. -/
structure Json.Reading.Exact (reading : Json.Reading) : Prop where
  shortest : ∀ (x : Float) (n : Json.Number), x.isFinite →
    Json.Number.ofText? (Json.floatStyle.write x).toList = some n →
    reading.toFloat n = n.nearest
  unlimited : reading.maxDepth = none

/-! ## The documents of literals and nodes -/

namespace Json

theorem depth_tagged (tag : String) (payload : Json) :
    (tagged tag payload).depth = payload.depth + 1 := by
  simp [tagged, depth, depthMembers]

end Json

section

variable {toFloat : Json.Number → Float}

/-- The texts of finite floats are read as these floats. -/
def ReadsFloats (toFloat : Json.Number → Float) : Prop :=
  ∀ x : Float, x.isFinite →
    (Json.Number.ofText? (Json.floatStyle.write x).toList).bind (·.float? toFloat) = some x

theorem Json.Reading.Exact.readsFloats {reading : Json.Reading} (exact : reading.Exact) :
    ReadsFloats reading.toFloat := by
  intro x finite
  obtain ⟨n, read, nearest⟩ := Json.Number.ofText?_write finite
  rw [read, Option.bind_some, Json.Number.float?, exact.shortest x n finite read, nearest,
    if_pos finite]

theorem Literal.ofJson?_toJson (reads : ReadsFloats toFloat) (l : Literal) {depth : Nat}
    (enough : l.toJson.depth ≤ depth) :
    ofJson? toFloat depth l.toJson = if l.isFinite then some l else none := by
  cases l with
  | null => simp [toJson, ofString, ofJson?, isFinite]
  | bool b =>
    rw [toJson, Json.depth_tagged] at enough
    cases depth with
    | zero => cases enough
    | succ depth => simp [toJson, tagged, ofJson?, isFinite]
  | int n =>
    rw [toJson, Json.depth_tagged] at enough
    cases depth with
    | zero => cases enough
    | succ depth =>
      simp [toJson, tagged, Json.ofInt, ofJson?, isFinite, Json.Number.ofText?_repr]
  | float x =>
    rw [toJson, Json.depth_tagged] at enough
    cases depth with
    | zero => cases enough
    | succ depth =>
      cases finite : x.isFinite with
      | true => simp [toJson, tagged, Json.ofFloat, ofJson?, isFinite, finite, reads x finite]
      | false => simp [toJson, tagged, Json.ofFloat, ofJson?, isFinite, finite]
  | str s =>
    rw [toJson, Json.depth_tagged] at enough
    cases depth with
    | zero => cases enough
    | succ depth => simp [toJson, tagged, ofString, ofJson?, isFinite]

namespace Node

theorem ofJson?_unary (op : UnaryOp) (json : Json) (depth : Nat) :
    ofJson? toFloat (depth + 2)
        (tagged "Unary" (object [(some "op", ofString op.tag), (some "operand", json)])) =
      (ofJson? toFloat depth json).map (unary op) := by
  cases read : ofJson? toFloat depth json <;>
    simp [tagged, ofJson?, unaryOfJson?, unaryFields?, UnaryOp.ofJson?, Json.unitTag?, ofString,
      UnaryOp.ofTag?_tag, read]

theorem ofJson?_binary (op : BinaryOp) (left right : Json) (depth : Nat) :
    ofJson? toFloat (depth + 2)
        (tagged "Binary" (object
          [(some "op", ofString op.tag), (some "left", left), (some "right", right)])) =
      (ofJson? toFloat depth left).bind fun l => (ofJson? toFloat depth right).map (binary op l) := by
  cases read : ofJson? toFloat depth left <;> cases readToo : ofJson? toFloat depth right <;>
    simp [tagged, ofJson?, binaryOfJson?, binaryFields?, BinaryOp.ofJson?, Json.unitTag?, ofString,
      BinaryOp.ofTag?_tag, read, readToo]

theorem ofJson?_call (function : String) (arguments : List Json) (depth : Nat) :
    ofJson? toFloat (depth + 3)
        (tagged "Function" (object
          [(some "name", ofString function), (some "arguments", array arguments)])) =
      (allOfJson? toFloat depth arguments).map (call function) := by
  cases read : allOfJson? toFloat depth arguments <;>
    simp [tagged, ofJson?, callOfJson?, callFields?, Json.text?, ofString, itemsOfJson?, read]

theorem ofJson?_list (items : List Json) (depth : Nat) :
    ofJson? toFloat (depth + 2) (tagged "Array" (array items)) =
      (allOfJson? toFloat depth items).map list := by
  simp [tagged, ofJson?, itemsOfJson?]

theorem ofJson?_arrow (parameters : Json) (body : Json) (depth : Nat) :
    ofJson? toFloat (depth + 2)
        (tagged "ArrowFunc" (object [(some "parameters", parameters), (some "body", body)])) =
      (parametersOfJson? depth parameters).bind fun names =>
        (bodyOfJson? body (ofJson? toFloat depth body)).map (arrow names) := by
  cases read : parametersOfJson? depth parameters <;>
    cases readToo : bodyOfJson? body (ofJson? toFloat depth body) <;>
    simp [tagged, ofJson?, arrowOfJson?, arrowFields?, read, readToo]

theorem nameOfJson?_nameToJson (x : String) (depth : Nat) :
    nameOfJson? (depth + 1) (nameToJson x) = some x := by
  simp [nameToJson, nameOfJson?, nameFields?, ofString, Json.text?]

theorem mapM_nameOfJson? (parameters : List String) (depth : Nat) :
    (parameters.map nameToJson).mapM (nameOfJson? (depth + 1)) = some parameters := by
  induction parameters with
  | nil => rfl
  | cons first rest ih => simp [List.mapM_cons, nameOfJson?_nameToJson, ih]

theorem parametersOfJson?_array (parameters : List String) {depth : Nat}
    (enough : (array (parameters.map nameToJson)).depth ≤ depth) :
    parametersOfJson? depth (array (parameters.map nameToJson)) = some parameters := by
  rw [Json.depth] at enough
  cases depth with
  | zero => cases enough
  | succ depth =>
    rw [parametersOfJson?]
    cases parameters with
    | nil => rfl
    | cons first rest =>
      cases depth with
      | zero => simp [Json.depthAll, nameToJson, Json.depth] at enough
      | succ depth => exact mapM_nameOfJson? (first :: rest) depth

/-- No node has null for its document, so a body is never taken for a missing one. -/
theorem bodyOfJson?_toJson (body : Node) (read : Option Node) :
    bodyOfJson? body.toJson read = read.map some := by
  cases body with
  | arrow parameters inner => cases inner <;> rfl
  | _ => rfl

mutual

/-- With enough depth, the document of a node is read as that node, if all its floats are finite,
and else not at all. -/
theorem ofJson?_toJson (reads : ReadsFloats toFloat) :
    (node : Node) → (depth : Nat) → node.toJson.depth ≤ depth →
      ofJson? toFloat depth node.toJson = if node.isFinite then some node else none
  | constant l, depth, enough => by
    rw [toJson, Json.depth_tagged] at enough
    obtain ⟨depth, rfl⟩ : ∃ less, depth = less + 1 := ⟨depth - 1, by omega⟩
    have read := Literal.ofJson?_toJson reads l (Nat.le_of_succ_le_succ enough)
    rw [toJson, tagged, ofJson?, if_pos rfl, read, isFinite]
    split <;> rfl
  | name x, depth, enough => by
    rw [toJson, Json.depth_tagged, nameToJson, Json.depth] at enough
    obtain ⟨depth, rfl⟩ : ∃ less, depth = less + 2 := ⟨depth - 2, by omega⟩
    simp [toJson, tagged, ofJson?, nameOfJson?_nameToJson, isFinite]
  | unary op operand, depth, enough => by
    simp only [toJson, Json.depth_tagged, Json.depth, Json.depthMembers] at enough
    obtain ⟨depth, rfl⟩ : ∃ less, depth = less + 2 := ⟨depth - 2, by omega⟩
    have read := ofJson?_toJson reads operand depth (by omega)
    rw [toJson, ofJson?_unary, read, isFinite]
    cases operand.isFinite <;> rfl
  | binary op left right, depth, enough => by
    simp only [toJson, Json.depth_tagged, Json.depth, Json.depthMembers] at enough
    obtain ⟨depth, rfl⟩ : ∃ less, depth = less + 2 := ⟨depth - 2, by omega⟩
    have readLeft := ofJson?_toJson reads left depth (by omega)
    have readRight := ofJson?_toJson reads right depth (by omega)
    rw [toJson, ofJson?_binary, readLeft, readRight, isFinite]
    cases left.isFinite <;> cases right.isFinite <;> rfl
  | call function arguments, depth, enough => by
    simp only [toJson, Json.depth_tagged, Json.depth, Json.depthMembers] at enough
    obtain ⟨depth, rfl⟩ : ∃ less, depth = less + 3 := ⟨depth - 3, by omega⟩
    have read := allOfJson?_allToJson reads arguments depth (by omega)
    rw [toJson, ofJson?_call, read, isFinite]
    cases allFinite arguments <;> rfl
  | list items, depth, enough => by
    simp only [toJson, Json.depth_tagged, Json.depth] at enough
    obtain ⟨depth, rfl⟩ : ∃ less, depth = less + 2 := ⟨depth - 2, by omega⟩
    have read := allOfJson?_allToJson reads items depth (by omega)
    rw [toJson, ofJson?_list, read, isFinite]
    cases allFinite items <;> rfl
  | arrow parameters none, depth, enough => by
    rw [toJson, Json.depth_tagged, Json.depth, Json.depthMembers] at enough
    obtain ⟨depth, rfl⟩ : ∃ less, depth = less + 2 := ⟨depth - 2, by omega⟩
    have small : (array (parameters.map nameToJson)).depth ≤ depth := by omega
    have readNames := parametersOfJson?_array parameters small
    rw [toJson, ofJson?_arrow, readNames]
    rfl
  | arrow parameters (some body), depth, enough => by
    rw [toJson, Json.depth_tagged, Json.depth, Json.depthMembers, Json.depthMembers] at enough
    obtain ⟨depth, rfl⟩ : ∃ less, depth = less + 2 := ⟨depth - 2, by omega⟩
    have small : (array (parameters.map nameToJson)).depth ≤ depth := by omega
    have readNames := parametersOfJson?_array parameters small
    have readBody := ofJson?_toJson reads body depth (by omega)
    rw [toJson, ofJson?_arrow, readNames, bodyOfJson?_toJson, readBody, isFinite]
    cases body.isFinite <;> rfl

theorem allOfJson?_allToJson (reads : ReadsFloats toFloat) :
    (nodes : List Node) → (depth : Nat) → Json.depthAll (allToJson nodes) ≤ depth →
      allOfJson? toFloat depth (allToJson nodes) = if allFinite nodes then some nodes else none
  | [], _, _ => rfl
  | first :: rest, depth, enough => by
    rw [allToJson, Json.depthAll] at enough
    have read := ofJson?_toJson reads first depth (by omega)
    have readRest := allOfJson?_allToJson reads rest depth (by omega)
    rw [allToJson, allOfJson?, read, readRest, allFinite]
    cases first.isFinite <;> cases allFinite rest <;> rfl

end

end Node

end

end ArrowExpr
