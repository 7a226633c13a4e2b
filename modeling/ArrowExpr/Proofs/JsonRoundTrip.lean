import ArrowExpr.Proofs.JsonNodes
import ArrowExpr.Proofs.JsonText
/-!
# Expressions through JSON text

1. The document of a node reads back from its text (`Node.readable_toJson`), also where a float that
   is not finite has become null.
2. Whatever the text, a node that is read has finite floats only (`Json.Reading.isFinite_of_read?`):
   a node that is read with some depth is made of literals and of nodes that are read with less
   (`Node.finiteUpTo`).
3. With an exact reading a node comes back from its text if its floats are finite, and else nothing
   does (`read_writeJson`).
-/

namespace ArrowExpr

open Json (array)

/-! ## Documents of nodes read back -/

namespace Json

theorem readable_tagged (tag : String) {payload : Json} (readable : Readable payload) :
    Readable (tagged tag payload) :=
  .object (by simp) (by simpa using readable)

theorem readable_ofInt (n : Int64) : Readable (ofInt n.toInt) := by
  refine .number (fun c there => ?_) ?_
  · rcases Literal.repr_chars n.toInt c there with digit | rfl
    · simp [isNumberChar, digit]
    · rfl
  · have read := Number.ofText?_repr n
    obtain ⟨number, found, -⟩ := Option.bind_eq_some_iff.mp read
    rw [found]
    rfl

theorem isNumberChar_of_isNumber {text : List Char} (number : Target.IsNumber text) :
    ∀ c ∈ text, isNumberChar c := by
  intro c there
  rcases number.chars c there with digit | mark
  · simp [isNumberChar, digit]
  · have marks : ['.', 'e', 'E', '+', '-'].all isNumberChar := by decide
    exact List.all_eq_true.mp marks c mark

theorem isNumberChar_write {x : Float} (finite : x.isFinite) :
    ∀ c ∈ (floatStyle.write x).toList, isNumberChar c := by
  have numeric := FloatStyle.isNumeric_of_isFinite finite
  have inside := isNumberChar_of_isNumber (FloatStyle.isNumber_unsigned regular_floatStyle numeric)
  rw [FloatStyle.toList_write]
  cases FloatStyle.signOf x.toModel.unpack with
  | negative => exact List.forall_mem_cons.mpr ⟨rfl, inside⟩
  | positive => exact inside

theorem readable_ofFloat (x : Float) : Readable (ofFloat x) := by
  unfold ofFloat
  split
  next finite =>
    obtain ⟨n, read, -⟩ := Number.ofText?_write finite
    refine .number (isNumberChar_write finite) ?_
    rw [read]
    rfl
  next => exact .null

end Json

theorem Literal.readable_toJson (l : Literal) : l.toJson.Readable := by
  cases l with
  | null => exact .str _
  | bool b => exact Json.readable_tagged _ (.bool b)
  | int n => exact Json.readable_tagged _ (Json.readable_ofInt n)
  | float x => exact Json.readable_tagged _ (Json.readable_ofFloat x)
  | str s => exact Json.readable_tagged _ (.str s)

namespace Node

open Json (readable_tagged)

theorem readable_nameToJson (x : String) : (nameToJson x).Readable :=
  readable_tagged "name" (.str x)

theorem readable_parameters (parameters : List String) :
    (array (parameters.map nameToJson)).Readable := by
  refine .array fun json there => ?_
  obtain ⟨x, -, rfl⟩ := List.mem_map.mp there
  exact readable_nameToJson x

mutual

theorem readable_toJson : (node : Node) → node.toJson.Readable
  | constant l => by
    rw [toJson]
    exact readable_tagged _ l.readable_toJson
  | name x => by
    rw [toJson]
    exact readable_tagged _ (readable_nameToJson x)
  | unary op operand => by
    have readable := readable_toJson operand
    rw [toJson]
    refine readable_tagged _ (.object (by simp) ?_)
    simpa using ⟨.str op.tag, readable⟩
  | binary op left right => by
    have readableLeft := readable_toJson left
    have readableRight := readable_toJson right
    rw [toJson]
    refine readable_tagged _ (.object (by simp) ?_)
    simpa using ⟨.str op.tag, readableLeft, readableRight⟩
  | call function arguments => by
    have readable := readable_allToJson arguments
    rw [toJson]
    refine readable_tagged _ (.object (by simp) ?_)
    simpa using ⟨.str function, .array readable⟩
  | list items => by
    rw [toJson]
    exact readable_tagged _ (.array (readable_allToJson items))
  | arrow parameters none => by
    rw [toJson]
    refine readable_tagged _ (.object (by simp) ?_)
    simpa using ⟨readable_parameters parameters, .null⟩
  | arrow parameters (some body) => by
    have readable := readable_toJson body
    rw [toJson]
    refine readable_tagged _ (.object (by simp) ?_)
    simpa using ⟨readable_parameters parameters, readable⟩

theorem readable_allToJson : (nodes : List Node) → ∀ json ∈ allToJson nodes, json.Readable
  | [] => by simp [allToJson]
  | first :: rest => by
    have readable := readable_toJson first
    have readables := readable_allToJson rest
    rw [allToJson]
    exact List.forall_mem_cons.mpr ⟨readable, readables⟩

end

end Node

/-! ## What is read is finite -/

section

variable {toFloat : Json.Number → Float}

theorem Literal.isFinite_of_ofJson? {depth : Nat} {json : Json} {l : Literal}
    (read : ofJson? toFloat depth json = some l) : l.isFinite := by
  cases l with
  | float x =>
    unfold ofJson? at read
    split at read
    · split at read <;> cases read
    · split at read
      case h_4 =>
        obtain ⟨y, found, same⟩ := Option.map_eq_some_iff.mp read
        obtain ⟨n, -, rounded⟩ := Option.bind_eq_some_iff.mp found
        cases same
        exact n.isFinite_of_float? rounded
      case h_3 =>
        obtain ⟨n, -, same⟩ := Option.map_eq_some_iff.mp read
        cases same
      all_goals cases read
    · cases read
  | _ => rfl

namespace Node

/-- A field that is read was not read before, and its document can be read. -/
theorem field_of_eq_some {α β γ : Type} {found : Option α} {read : Option β}
    {next : β → Option γ} {result : γ}
    (eq_some : (if found.isSome then none else read.bind next) = some result) :
    ∃ value, read = some value ∧ next value = some result := by
  split at eq_some
  · cases eq_some
  · exact Option.bind_eq_some_iff.mp eq_some

/-- All nodes that are read with at most this depth are finite. -/
def FiniteUpTo (toFloat : Json.Number → Float) (depth : Nat) : Prop :=
  ∀ less ≤ depth, ∀ json node, ofJson? toFloat less json = some node → node.isFinite

theorem FiniteUpTo.pred {depth : Nat} (finite : FiniteUpTo toFloat (depth + 1)) :
    FiniteUpTo toFloat depth :=
  fun less small => finite less (Nat.le_succ_of_le small)

section

variable {depth : Nat} (finite : FiniteUpTo toFloat depth)
include finite

theorem allFinite_of_allOfJson? {documents : List Json} {nodes : List Node}
    (read : allOfJson? toFloat depth documents = some nodes) : allFinite nodes := by
  induction documents generalizing nodes with
  | nil =>
    cases read
    rfl
  | cons json rest ih =>
    obtain ⟨first, readFirst, read⟩ := Option.bind_eq_some_iff.mp read
    obtain ⟨others, readOthers, same⟩ := Option.bind_eq_some_iff.mp read
    cases same
    rw [allFinite, finite depth le_rfl json first readFirst, ih readOthers]
    rfl

theorem allFinite_of_itemsOfJson? {json : Json} {nodes : List Node}
    (read : itemsOfJson? toFloat depth json = some nodes) : allFinite nodes := by
  unfold itemsOfJson? at read
  split at read
  next => exact allFinite_of_allOfJson? finite.pred read
  next => cases read

theorem all_of_bodyOfJson? {json : Json} {body : Option Node}
    (read : bodyOfJson? json (ofJson? toFloat depth json) = some body) : body.all isFinite := by
  unfold bodyOfJson? at read
  split at read
  · cases read
    rfl
  · obtain ⟨node, readNode, same⟩ := Option.map_eq_some_iff.mp read
    rw [← same]
    exact finite depth le_rfl _ node readNode

variable {members : List (Option String × Json)} {node : Node}

theorem isFinite_of_unaryFields? {op : Option UnaryOp} {operand : Option Node}
    (found : operand.all isFinite)
    (read : unaryFields? toFloat depth members op operand = some node) : node.isFinite := by
  induction members generalizing op operand with
  | nil =>
    cases op <;> cases operand <;> cases read
    exact found
  | cons member rest ih =>
    obtain ⟨key?, json⟩ := member
    cases key? with
    | none => cases read
    | some key =>
      rw [unaryFields?] at read
      split at read
      next =>
        obtain ⟨newOp, -, read⟩ := field_of_eq_some read
        exact ih found read
      next =>
        split at read
        next =>
          obtain ⟨newOperand, readOperand, read⟩ := field_of_eq_some read
          have newFinite : (some newOperand).all isFinite :=
            finite depth le_rfl json newOperand readOperand
          exact ih newFinite read
        next => exact ih found read

theorem isFinite_of_binaryFields? {op : Option BinaryOp} {left right : Option Node}
    (foundLeft : left.all isFinite) (foundRight : right.all isFinite)
    (read : binaryFields? toFloat depth members op left right = some node) : node.isFinite := by
  induction members generalizing op left right with
  | nil =>
    cases op <;> cases left <;> cases right <;> cases read
    rw [isFinite, Bool.and_eq_true]
    exact ⟨foundLeft, foundRight⟩
  | cons member rest ih =>
    obtain ⟨key?, json⟩ := member
    cases key? with
    | none => cases read
    | some key =>
      rw [binaryFields?] at read
      split at read
      next =>
        obtain ⟨newOp, -, read⟩ := field_of_eq_some read
        exact ih foundLeft foundRight read
      next =>
        split at read
        next =>
          obtain ⟨newLeft, readLeft, read⟩ := field_of_eq_some read
          have newFinite : (some newLeft).all isFinite :=
            finite depth le_rfl json newLeft readLeft
          exact ih newFinite foundRight read
        next =>
          split at read
          next =>
            obtain ⟨newRight, readRight, read⟩ := field_of_eq_some read
            have newFinite : (some newRight).all isFinite :=
              finite depth le_rfl json newRight readRight
            exact ih foundLeft newFinite read
          next => exact ih foundLeft foundRight read

theorem isFinite_of_callFields? {function : Option String} {arguments : Option (List Node)}
    (found : arguments.all allFinite)
    (read : callFields? toFloat depth members function arguments = some node) : node.isFinite := by
  induction members generalizing function arguments with
  | nil =>
    cases function <;> cases arguments <;> cases read
    exact found
  | cons member rest ih =>
    obtain ⟨key?, json⟩ := member
    cases key? with
    | none => cases read
    | some key =>
      rw [callFields?] at read
      split at read
      next =>
        obtain ⟨newFunction, -, read⟩ := field_of_eq_some read
        exact ih found read
      next =>
        split at read
        next =>
          obtain ⟨newArguments, readArguments, read⟩ := field_of_eq_some read
          have newFinite : (some newArguments).all allFinite :=
            allFinite_of_itemsOfJson? finite readArguments
          exact ih newFinite read
        next => exact ih found read

theorem isFinite_of_arrowFields? {parameters : Option (List String)} {body : Option (Option Node)}
    (found : (body.getD none).all isFinite)
    (read : arrowFields? toFloat depth members parameters body = some node) : node.isFinite := by
  induction members generalizing parameters body with
  | nil =>
    cases parameters <;> cases read
    cases missing : body.getD none with
    | none => rfl
    | some body => rwa [missing] at found
  | cons member rest ih =>
    obtain ⟨key?, json⟩ := member
    cases key? with
    | none => cases read
    | some key =>
      rw [arrowFields?] at read
      split at read
      next =>
        obtain ⟨newParameters, -, read⟩ := field_of_eq_some read
        exact ih found read
      next =>
        split at read
        next =>
          obtain ⟨newBody, readBody, read⟩ := field_of_eq_some read
          have newFinite : ((some newBody).getD none).all isFinite :=
            all_of_bodyOfJson? finite readBody
          exact ih newFinite read
        next => exact ih found read

end

section

variable {depth : Nat} (finite : FiniteUpTo toFloat depth) {json : Json} {node : Node}
include finite

theorem isFinite_of_unaryOfJson? (read : unaryOfJson? toFloat depth json = some node) :
    node.isFinite := by
  unfold unaryOfJson? at read
  split at read
  next => exact isFinite_of_unaryFields? finite.pred rfl read
  next less op json =>
    obtain ⟨newOp, -, read⟩ := Option.bind_eq_some_iff.mp read
    obtain ⟨operand, readOperand, same⟩ := Option.bind_eq_some_iff.mp read
    cases same
    exact finite.pred less le_rfl json operand readOperand
  next => cases read

theorem isFinite_of_binaryOfJson? (read : binaryOfJson? toFloat depth json = some node) :
    node.isFinite := by
  unfold binaryOfJson? at read
  split at read
  next => exact isFinite_of_binaryFields? finite.pred rfl rfl read
  next less op leftJson rightJson =>
    obtain ⟨newOp, -, read⟩ := Option.bind_eq_some_iff.mp read
    obtain ⟨left, readLeft, read⟩ := Option.bind_eq_some_iff.mp read
    obtain ⟨right, readRight, same⟩ := Option.bind_eq_some_iff.mp read
    cases same
    rw [isFinite, finite.pred less le_rfl leftJson left readLeft,
      finite.pred less le_rfl rightJson right readRight]
    rfl
  next => cases read

theorem isFinite_of_callOfJson? (read : callOfJson? toFloat depth json = some node) :
    node.isFinite := by
  unfold callOfJson? at read
  split at read
  next => exact isFinite_of_callFields? finite.pred rfl read
  next =>
    obtain ⟨function, -, read⟩ := Option.bind_eq_some_iff.mp read
    obtain ⟨arguments, readArguments, same⟩ := Option.bind_eq_some_iff.mp read
    cases same
    exact allFinite_of_itemsOfJson? finite.pred readArguments
  next => cases read

theorem isFinite_of_arrowOfJson? (read : arrowOfJson? toFloat depth json = some node) :
    node.isFinite := by
  unfold arrowOfJson? at read
  split at read
  next => exact isFinite_of_arrowFields? finite.pred rfl read
  next =>
    obtain ⟨parameters, -, read⟩ := Option.bind_eq_some_iff.mp read
    obtain ⟨body, readBody, same⟩ := Option.bind_eq_some_iff.mp read
    cases same
    have bodyFinite := all_of_bodyOfJson? finite.pred readBody
    cases body with
    | none => rfl
    | some body => exact bodyFinite
  next => cases read

theorem isFinite_of_ofJson?_succ (read : ofJson? toFloat (depth + 1) json = some node) :
    node.isFinite := by
  unfold ofJson? at read
  split at read
  next less tag payload same =>
    obtain rfl := Nat.succ.inj same
    split at read
    · obtain ⟨l, readLiteral, same⟩ := Option.map_eq_some_iff.mp read
      rw [← same, isFinite]
      exact Literal.isFinite_of_ofJson? readLiteral
    split at read
    · obtain ⟨x, -, same⟩ := Option.map_eq_some_iff.mp read
      rw [← same, isFinite]
    split at read
    · exact isFinite_of_unaryOfJson? finite read
    split at read
    · exact isFinite_of_binaryOfJson? finite read
    split at read
    · exact isFinite_of_callOfJson? finite read
    split at read
    · obtain ⟨items, readItems, same⟩ := Option.map_eq_some_iff.mp read
      rw [← same, isFinite]
      exact allFinite_of_itemsOfJson? finite readItems
    split at read
    · exact isFinite_of_arrowOfJson? finite read
    · cases read
  next => cases read

end

theorem finiteUpTo (depth : Nat) : FiniteUpTo toFloat depth := by
  induction depth with
  | zero =>
    intro less small json node read
    obtain rfl := Nat.le_zero.mp small
    unfold ofJson? at read
    cases read
  | succ depth ih =>
    intro less small json node read
    rcases Nat.le_succ_iff.mp small with smaller | rfl
    · exact ih less smaller json node read
    · exact isFinite_of_ofJson?_succ ih read

end Node

end

/-- Whatever the text and whatever the reading, the node that is read is finite. -/
theorem Json.Reading.isFinite_of_read? (reading : Json.Reading) {text : String} {node : Node}
    (read : reading.read? text = some node) : node.isFinite := by
  obtain ⟨json, -, read⟩ := Option.bind_eq_some_iff.mp read
  exact Node.finiteUpTo _ _ le_rfl json node read

/-! ## Round trips -/

/-- The text of a node is read as that node, if all its floats are finite, and else not at all. -/
theorem Json.Reading.Exact.read?_writeJson {reading : Json.Reading} (exact : reading.Exact)
    (node : Node) : reading.read? node.writeJson = if node.isFinite then some node else none := by
  rw [read?, Node.writeJson, Json.ofText?_write node.readable_toJson, Option.bind_some,
    exact.unlimited]
  exact Node.ofJson?_toJson exact.readsFloats node _ le_rfl

/-- A node comes back from its text, if all its floats are finite, and if not then nothing does.
Whatever is read from any text is finite and comes back from its text. -/
theorem read_writeJson {reading : Json.Reading} (exact : reading.Exact) :
    (∀ node, reading.read? node.writeJson = if node.isFinite then some node else none) ∧
      ∀ text node, reading.read? text = some node →
        node.isFinite ∧ reading.read? node.writeJson = some node := by
  refine ⟨exact.read?_writeJson, fun text node read => ?_⟩
  have finite := reading.isFinite_of_read? read
  exact ⟨finite, by rw [exact.read?_writeJson, if_pos finite]⟩

/-- Zeros with and without a sign, a missing body, a body that is null and a float that is none, read
with correct rounding. -/
theorem read_writeJson_nearest :
    let reading : Json.Reading := ⟨Json.Number.nearest, none⟩
    let node : Node := .list [.constant (.float (-0.0)), .constant (.float 0), .constant (.int 0),
      .arrow ["ä"] none, .arrow [] (some (.constant .null))]
    reading.Exact ∧ reading.read? node.writeJson = some node ∧
      reading.read? (Node.arrow [] (some (.constant (.float (0 / 0))))).writeJson = none := by
  have exact : (⟨Json.Number.nearest, none⟩ : Json.Reading).Exact := ⟨fun _ _ _ _ => rfl, rfl⟩
  exact ⟨exact, (read_writeJson exact).1 _, (read_writeJson exact).1 _⟩

end ArrowExpr
