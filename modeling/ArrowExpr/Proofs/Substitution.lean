import ArrowExpr.Proofs.ArrowCalls
import ArrowExpr.Proofs.Depth
import ArrowExpr.Proofs.Noninterference
import ArrowExpr.Proofs.Operators
/-!
# A call is the body with the arguments put in

Values without callables can be written as expressions (`Value.node?`). So the arguments of a call can
be put into the body of an arrow function in place of its parameters (`Node.applied`), and what this
gives needs no scope any more: a call does the same as the evaluation of it in the empty scope
(`call_eq_applied`), as long as no function looks at the caller's scope.

An argument that is a list is evaluated item by item, which takes depth that a variable does not
take. So the two are compared without regard to the depth: each evaluation of the one is prolonged by
one of the other (`applied_prolongs`, `prolonged_by_body`).
-/

namespace ArrowExpr

open EvalM

/-! ## Expressions for values -/

mutual

/-- The expression that stands for a value, a constant or a list of such expressions. A callable has
none. -/
def Value.node? : Value → Option Node
  | .null => some (.constant .null)
  | .bool b => some (.constant (.bool b))
  | .int n => some (.constant (.int n))
  | .float x => some (.constant (.float x))
  | .str s => some (.constant (.str s))
  | .list items => (Value.nodes? items).map .list
  | .callable _ => none

/-- The expressions that stand for several values. -/
def Value.nodes? : List Value → Option (List Node)
  | [] => some []
  | value :: rest => do
    let node ← value.node?
    let nodes ← Value.nodes? rest
    return node :: nodes

end

mutual

/-- The expression with others in place of the names for which they are given. Names inside arrow
bodies are left alone. -/
def Node.substitute (given : String → Option Node) : Node → Node
  | .constant literal => .constant literal
  | .name x => (given x).getD (.name x)
  | .unary op operand => .unary op (operand.substitute given)
  | .binary op left right => .binary op (left.substitute given) (right.substitute given)
  | .call function arguments => .call function (Node.substituteAll given arguments)
  | .list items => .list (Node.substituteAll given items)
  | .arrow parameters body => .arrow parameters body

/-- Several expressions with others in place of names. -/
def Node.substituteAll (given : String → Option Node) : List Node → List Node
  | [] => []
  | node :: rest => node.substitute given :: Node.substituteAll given rest

end

theorem Node.substituteAll_eq_map (given : String → Option Node) (nodes : List Node) :
    substituteAll given nodes = nodes.map (substitute given) := by
  induction nodes with
  | nil => rfl
  | cons node rest ih => rw [substituteAll, ih, List.map_cons]

/-- The argument at the last position of a parameter. -/
def lastArgument? (parameters : List String) (arguments : List Value) (x : String) : Option Value :=
  (parameters.zip arguments).reverse.lookup x

/-- The expression for the argument of a parameter. -/
def argumentNode? (parameters : List String) (arguments : List Value) (x : String) : Option Node :=
  (lastArgument? parameters arguments x).bind Value.node?

/-- The body of an arrow function with its arguments in place of its parameters. -/
def Node.applied (body : Node) (parameters : List String) (arguments : List Value) : Node :=
  body.substitute (argumentNode? parameters arguments)

/-- The scope of a call binds each name to the last argument for it. -/
theorem lookup?_ofList_zip (parameters : List String) (arguments : List Value) (x : String) :
    (Scope.ofList (parameters.zip arguments)).lookup? x = lastArgument? parameters arguments x := by
  rw [Scope.ofList_eq_defineAll, Scope.lookup?_defineAll, Scope.lookup?_empty, Option.or_none,
    lastArgument?]

theorem lastArgument?_mem {parameters : List String} {arguments : List Value} {x : String}
    {value : Value} (last : lastArgument? parameters arguments x = some value) :
    value ∈ arguments := by
  obtain ⟨before, after, same, _⟩ := List.lookup_eq_some_iff.mp last
  have there : (x, value) ∈ (parameters.zip arguments).reverse := by
    rw [same]
    exact List.mem_append_right _ List.mem_cons_self
  exact (List.of_mem_zip (List.mem_reverse.mp there)).2

/-! ## What stands for a value evaluates to it -/

/-- At this depth and beyond the expression evaluates to the value, in any scope, and does nothing. -/
def Node.StandsFor (node : Node) (value : Value) (enough : Nat) : Prop :=
  ∀ depth, enough ≤ depth → ∀ engine scope world,
    Yields (evaluateAt depth engine scope node) world (.ok value) world ∧
      evaluationEffects depth engine scope node world = []

theorem Node.StandsFor.mono {node : Node} {value : Value} {enough more : Nat}
    (stands : node.StandsFor value enough) (le : enough ≤ more) : node.StandsFor value more :=
  fun depth deep => stands depth (Nat.le_trans le deep)

theorem Node.standsFor_constant (literal : Literal) :
    (Node.constant literal).StandsFor (.ofLiteral literal) 1 := by
  intro depth deep engine scope world
  obtain ⟨depth, rfl⟩ := Nat.exists_eq_add_of_le' deep
  exact ⟨rfl, rfl⟩

/-- Items that stand for values are evaluated to them one after the other. -/
theorem yields_mapM_standsFor {nodes : List Node} {values : List Value} {enough : Nat}
    (stand : List.Forall₂ (fun node value => node.StandsFor value enough) nodes values)
    {depth : Nat} (deep : enough ≤ depth) (engine : EngineId) (scope : Scope) (world : World) :
    Yields (nodes.mapM (evaluateAt depth engine scope)) world (.ok values) world ∧
      Effects.each (evaluateAt depth engine scope) (evaluationEffects depth engine scope) nodes
        world = [] := by
  induction stand with
  | nil => exact ⟨rfl, rfl⟩
  | cons stands _ ih =>
    obtain ⟨first, nothing⟩ := stands depth deep engine scope world
    rw [List.mapM_cons, Effects.each, Effects.bind_of_yields first, nothing, ih.2]
    exact ⟨first.bind (ih.1.bind (run_pure world _)), rfl⟩

theorem Node.standsFor_list {nodes : List Node} {values : List Value} {enough : Nat}
    (stand : List.Forall₂ (fun node value => node.StandsFor value enough) nodes values) :
    (Node.list nodes).StandsFor (.list values) (enough + 1) := by
  intro depth deep engine scope world
  obtain ⟨depth, rfl⟩ := Nat.exists_eq_add_of_le' (Nat.le_trans (Nat.le_add_left 1 enough) deep)
  obtain ⟨ran, nothing⟩ := yields_mapM_standsFor stand (Nat.le_of_succ_le_succ deep) engine scope
    world
  exact ⟨ran.bind (run_pure world _), nothing⟩

namespace Value

mutual

/-- The expression for a value stands for it. -/
theorem exists_standsFor : ∀ {value : Value} {node : Node}, value.node? = some node →
    ∃ enough, node.StandsFor value enough
  | .null, _, rfl => ⟨1, Node.standsFor_constant .null⟩
  | .bool b, _, rfl => ⟨1, Node.standsFor_constant (.bool b)⟩
  | .int n, _, rfl => ⟨1, Node.standsFor_constant (.int n)⟩
  | .float x, _, rfl => ⟨1, Node.standsFor_constant (.float x)⟩
  | .str s, _, rfl => ⟨1, Node.standsFor_constant (.str s)⟩
  | .list items, _, isNode => by
    obtain ⟨nodes, areNodes, rfl⟩ := Option.map_eq_some_iff.mp isNode
    obtain ⟨enough, stand⟩ := exists_allStandFor areNodes
    exact ⟨enough + 1, Node.standsFor_list stand⟩

theorem exists_allStandFor : ∀ {values : List Value} {nodes : List Node},
    nodes? values = some nodes →
    ∃ enough, List.Forall₂ (fun node value => Node.StandsFor node value enough) nodes values
  | [], _, rfl => ⟨0, .nil⟩
  | value :: rest, _, areNodes => by
    obtain ⟨node, isNode, areNodes⟩ := Option.bind_eq_some_iff.mp areNodes
    obtain ⟨nodes, areRest, same⟩ := Option.bind_eq_some_iff.mp areNodes
    cases same
    obtain ⟨first, stands⟩ := exists_standsFor isNode
    obtain ⟨others, stand⟩ := exists_allStandFor areRest
    -- the greater of the two depths is enough for all
    refine ⟨max first others, .cons (stands.mono (Nat.le_max_left _ _)) (stand.imp ?_)⟩
    exact fun node value stands => stands.mono (Nat.le_max_right _ _)

end

mutual

/-- A value without callables can be written. -/
theorem exists_node : ∀ {value : Value}, (∀ id, ¬value.Holds id) → ∃ node, value.node? = some node
  | .null, _ | .bool _, _ | .int _, _ | .float _, _ | .str _, _ => ⟨_, rfl⟩
  | .list items, plain => by
    obtain ⟨nodes, areNodes⟩ := exists_nodes fun item there id holds => plain id (.item there holds)
    exact ⟨.list nodes, congrArg (Option.map Node.list) areNodes⟩
  | .callable id, plain => absurd .self (plain id)

theorem exists_nodes : ∀ {values : List Value}, (∀ value ∈ values, ∀ id, ¬value.Holds id) →
    ∃ nodes, nodes? values = some nodes
  | [], _ => ⟨[], rfl⟩
  | value :: rest, plain => by
    obtain ⟨node, isNode⟩ := exists_node (plain value List.mem_cons_self)
    obtain ⟨nodes, areNodes⟩ := exists_nodes fun other there =>
      plain other (List.mem_cons_of_mem _ there)
    exact ⟨node :: nodes, by rw [nodes?, isNode, areNodes]; rfl⟩

end

end Value

/-- One depth is enough for all arguments. -/
theorem exists_enough (arguments : List Value) : ∃ enough, ∀ argument ∈ arguments, ∀ node,
    argument.node? = some node → node.StandsFor argument enough := by
  induction arguments with
  | nil => exact ⟨0, nofun⟩
  | cons first rest ih =>
    obtain ⟨others, standOthers⟩ := ih
    have firstStands : ∃ enough, ∀ node, first.node? = some node → node.StandsFor first enough := by
      cases isNode : first.node? with
      | none => exact ⟨0, nofun⟩
      | some node =>
        obtain ⟨enough, stands⟩ := Value.exists_standsFor isNode
        exact ⟨enough, fun other same => Option.some.inj same ▸ stands⟩
    obtain ⟨enough, stands⟩ := firstStands
    refine ⟨max enough others, List.forall_mem_cons.mpr ⟨fun node isNode => ?_, ?_⟩⟩
    · exact (stands node isNode).mono (Nat.le_max_left _ _)
    · exact fun other there node isNode =>
        (standOthers other there node isNode).mono (Nat.le_max_right _ _)

/-! ## The body and what is put in -/

/-- The functions of the engine ignore the scope, now and in what follows. -/
def Heedless.proviso (engine : EngineId) : Proviso := ⟨Heedless engine, Heedless.left, Heedless.right⟩

theorem Heedless.blindTo (engine : EngineId) (scope other : Scope) :
    (Heedless.proviso engine).BlindTo engine scope other :=
  fun _ _ heedless name function found => heedless.present name function found scope other

/-- Except for names that are replaced, the expression keeps its form. -/
theorem Node.sameForm_substitute {given : String → Option Node} {node : Node}
    (kept : ∀ x, node = .name x → given x = none) :
    node.SameForm (fun a b => a.substitute given = b) (node.substitute given) := by
  have all : ∀ nodes : List Node, List.Forall₂ (fun a b => a.substitute given = b) nodes
      (substituteAll given nodes) := by
    intro nodes
    rw [substituteAll_eq_map, List.forall₂_map_right_iff]
    exact List.forall₂_same.mpr fun _ _ => rfl
  cases node with
  | constant literal => exact .constant literal
  | name x =>
    rw [substitute, kept x rfl]
    exact .name x
  | unary op operand => exact .unary op rfl
  | binary op left right => exact .binary op rfl rfl
  | call function arguments => exact .call function (all arguments)
  | list items => exact .list (all items)
  | arrow parameters body => exact .arrow parameters body

section Applied

variable {engine : EngineId} (parameters : List String) {arguments : List Value}

/-- A name is replaced by what stands for the argument that it is bound to, or it is not bound. -/
theorem replaced_or_unbound (plain : ∀ argument ∈ arguments, ∀ id, ¬argument.Holds id)
    (x : String) :
    (∃ value node, (Scope.ofList (parameters.zip arguments)).lookup? x = some value ∧
      argumentNode? parameters arguments x = some node ∧
      value ∈ arguments ∧ value.node? = some node) ∨
    (Scope.ofList (parameters.zip arguments)).lookup? x = Scope.empty.lookup? x ∧
      argumentNode? parameters arguments x = none := by
  rw [lookup?_ofList_zip, Scope.lookup?_empty, argumentNode?]
  cases last : lastArgument? parameters arguments x with
  | none => exact .inr ⟨rfl, rfl⟩
  | some value =>
    have there := lastArgument?_mem last
    obtain ⟨node, isNode⟩ := Value.exists_node (plain value there)
    exact .inl ⟨value, node, rfl, isNode, there, isNode⟩

/-- The body and what it becomes are of the same form, except where a name is replaced. -/
theorem sameForm_or_replaced (plain : ∀ argument ∈ arguments, ∀ id, ¬argument.Holds id)
    (a : Node) :
    (a.SameForm (fun a b => a.substitute (argumentNode? parameters arguments) = b)
        (a.substitute (argumentNode? parameters arguments)) ∧
      ∀ x, a = .name x →
        (Scope.ofList (parameters.zip arguments)).lookup? x = Scope.empty.lookup? x) ∨
    ∃ x value node, a = .name x ∧ a.substitute (argumentNode? parameters arguments) = node ∧
      (Scope.ofList (parameters.zip arguments)).lookup? x = some value ∧
      value ∈ arguments ∧ value.node? = some node := by
  by_cases isName : ∃ x, a = .name x
  · obtain ⟨x, rfl⟩ := isName
    rcases replaced_or_unbound parameters plain x with
      ⟨value, node, bound, replaced, there, isNode⟩ | ⟨unbound, kept⟩
    · refine .inr ⟨x, value, node, rfl, ?_, bound, there, isNode⟩
      rw [Node.substitute, replaced, Option.getD_some]
    · refine .inl ⟨Node.sameForm_substitute ?_, ?_⟩
      · rintro y same
        cases same
        exact kept
      · rintro y same
        cases same
        exact unbound
  · have other : ∀ x, a ≠ .name x := fun x same => isName ⟨x, same⟩
    exact .inl ⟨Node.sameForm_substitute fun x same => absurd same (other x),
      fun x same => absurd same (other x)⟩

/-- With some extra depth, the body with the arguments put in prolongs the body. -/
theorem applied_prolongs (engine : EngineId)
    (plain : ∀ argument ∈ arguments, ∀ id, ¬argument.Holds id) (body : Node) :
    ∃ extra, ∀ depth world, Prolonged (Heedless.proviso engine) world
      (evaluateAt depth engine (.ofList (parameters.zip arguments)) body)
      (evaluationEffects depth engine (.ofList (parameters.zip arguments)) body)
      (evaluateAt (extra + depth) engine .empty (body.applied parameters arguments))
      (evaluationEffects (extra + depth) engine .empty (body.applied parameters arguments)) := by
  obtain ⟨enough, stand⟩ := exists_enough arguments
  refine ⟨enough, fun depth world => ?_⟩
  refine @evaluateAt_prolonged _ _ _ _ (Heedless.blindTo engine _ _)
    (fun a b => a.substitute (argumentNode? parameters arguments) = b) _ ?_ depth _ _ rfl world
  rintro a _ rfl
  refine (sameForm_or_replaced parameters plain a).imp_right ?_
  rintro ⟨x, value, node, rfl, rfl, bound, there, isNode⟩ depth world
  obtain ⟨ran, quiet⟩ := stand value there _ isNode (enough + (depth + 1)) (Nat.le_add_right _ _)
    engine .empty world
  refine .of_quiet (fun result last ended => ?_) rfl ran quiet
  have same := Option.some.inj (ended.symm.trans (evaluateAt_name bound depth world))
  cases same
  exact ⟨rfl, rfl⟩

/-- The body prolongs the body with the arguments put in. -/
theorem prolonged_by_body (engine : EngineId)
    (plain : ∀ argument ∈ arguments, ∀ id, ¬argument.Holds id) (body : Node) (depth : Nat)
    (world : World) :
    Prolonged (Heedless.proviso engine) world
      (evaluateAt depth engine .empty (body.applied parameters arguments))
      (evaluationEffects depth engine .empty (body.applied parameters arguments))
      (evaluateAt (0 + depth) engine (.ofList (parameters.zip arguments)) body)
      (evaluationEffects (0 + depth) engine (.ofList (parameters.zip arguments)) body) := by
  obtain ⟨enough, stand⟩ := exists_enough arguments
  refine @evaluateAt_prolonged _ _ _ _ (Heedless.blindTo engine _ _)
    (fun b a => a.substitute (argumentNode? parameters arguments) = b) _ ?_ depth _ _ rfl world
  rintro _ a rfl
  rcases sameForm_or_replaced parameters plain a with ⟨form, bound⟩ |
    ⟨x, value, node, rfl, rfl, bound, there, isNode⟩
  · refine .inl ⟨form.flip, fun x same => (bound x ?_).symm⟩
    rw [same] at form
    cases form
    rfl
  · refine .inr fun depth world => ?_
    -- at this depth the list may be cut off, but deeper it is the value
    let deep := max (depth + 1) enough
    obtain ⟨ran, quiet⟩ := stand value there _ isNode deep (Nat.le_max_right _ _) engine .empty world
    obtain ⟨ends, begins⟩ := (Interpreter.ofDepth_prolonged
      (Nat.le_max_left (depth + 1) enough)).evaluate .free world engine .empty _ (.inl trivial)
    refine .of_quiet (fun result last ended => ?_) ?_ (evaluateAt_name bound _ world) rfl
    · have same := Option.some.inj ((ends result last ended).1.symm.trans ran)
      cases same
      exact ⟨rfl, rfl⟩
    · rw [← List.prefix_nil, ← quiet]
      exact begins

/-- The body and what it becomes do the same, at some depth each. -/
theorem body_same_applied {body : Node} {world : World}
    (plain : ∀ argument ∈ arguments, ∀ id, ¬argument.Holds id)
    (heedless : ∀ depth, Heedless engine world
      (evaluationEffects depth engine (.ofList (parameters.zip arguments)) body world)) :
    (∀ outcome left,
      (∃ depth, Yields (evaluateAt depth engine (.ofList (parameters.zip arguments)) body) world
        outcome left) ↔
      ∃ depth, Yields (evaluateAt depth engine .empty (body.applied parameters arguments)) world
        outcome left) ∧
    (∀ depth, ∃ more,
      evaluationEffects depth engine (.ofList (parameters.zip arguments)) body world <+:
        evaluationEffects more engine .empty (body.applied parameters arguments) world) ∧
    ∀ depth, ∃ more,
      evaluationEffects depth engine .empty (body.applied parameters arguments) world <+:
        evaluationEffects more engine (.ofList (parameters.zip arguments)) body world := by
  obtain ⟨extra, prolongs⟩ := applied_prolongs parameters engine plain body
  have there := fun depth => prolongs depth world (.inl (heedless depth))
  have back := fun depth =>
    prolonged_by_body parameters engine plain body depth world (.inr (heedless (0 + depth)))
  refine ⟨fun outcome left => ⟨?_, ?_⟩, ?_, ?_⟩
  · exact fun ⟨depth, ran⟩ => ⟨extra + depth, ((there depth).1 outcome left ran).1⟩
  · exact fun ⟨depth, ran⟩ => ⟨0 + depth, ((back depth).1 outcome left ran).1⟩
  · exact fun depth => ⟨extra + depth, (there depth).2⟩
  · exact fun depth => ⟨0 + depth, (back depth).2⟩

/-- A name that is not a parameter stays. -/
theorem applied_name_of_not_mem {x : String} (other : x ∉ parameters) :
    (Node.name x).applied parameters arguments = .name x := by
  have unbound : lastArgument? parameters arguments x = none := by
    refine List.lookup_eq_none_iff.mpr fun pair there => ?_
    have named := (List.of_mem_zip (List.mem_reverse.mp there)).1
    have different : x ≠ pair.1 := fun same => other (same ▸ named)
    exact bne_iff_ne.mpr different
  rw [Node.applied, Node.substitute, argumentNode?, unbound]
  rfl

end Applied

/-! ## The call and the evaluation -/

section Call

variable {id : CallableId} {engine : EngineId} {parameters : List String} {body : Node}
  {world : World} {arguments : List Value}

/-- A call ends as the body does, once it is noted. -/
theorem exists_callAt_iff (found : world.closure? id = some (.arrow engine parameters body))
    (enough : parameters.length ≤ arguments.length) {outcome : Outcome} {left : World} :
    (∃ depth, Yields (callAt depth id arguments) world outcome left) ↔
      ∃ depth, Yields (evaluateAt depth engine (.ofList (parameters.zip arguments)) body)
        (world.record (.closure id arguments)) outcome left := by
  constructor
  · rintro ⟨depth, ran⟩
    cases depth with
    | zero => cases ran
    | succ depth =>
      rw [Yields, callAt_enough found enough] at ran
      exact ⟨depth, ran⟩
  · rintro ⟨depth, ran⟩
    refine ⟨depth + 1, ?_⟩
    rw [Yields, callAt_enough found enough]
    exact ran

/-- A call is the evaluation of the body with the arguments put in. The arrow function has enough
arguments, which hold no callables, and no function of its engine looks at the caller's scope.

* The call and the evaluation in the empty scope end in the same ways, with the same outcome in the
  same world. The journal also notes the call.
* They have the same effects, up to the end or as far as they go on.
* A name that is not a parameter stays and cannot be evaluated. -/
theorem call_eq_applied (found : world.closure? id = some (.arrow engine parameters body))
    (enough : parameters.length ≤ arguments.length)
    (plain : ∀ argument ∈ arguments, ∀ id, ¬argument.Holds id)
    (heedless : ∀ depth, Heedless engine world (callEffects depth id arguments world)) :
    (∀ outcome left,
      (∃ depth, Yields (callAt depth id arguments) world outcome left) ↔
        ∃ depth, Yields (engine.evaluate depth .empty (body.applied parameters arguments))
          (world.record (.closure id arguments)) outcome left) ∧
    (∀ effects,
      (∃ depth, effects <+: callEffects depth id arguments world) ↔
        ∃ depth, effects <+: .start (.closure id arguments) ::
          evaluationEffects depth engine .empty (body.applied parameters arguments)
            (world.record (.closure id arguments))) ∧
    ∀ x ∉ parameters, (Node.name x).applied parameters arguments = .name x ∧
      ∀ depth now, Yields (engine.evaluate (depth + 1) .empty (.name x)) now
        (.error (.undefinedVariable x)) now := by
  have heedlessBody : ∀ depth, Heedless engine (world.record (.closure id arguments))
      (evaluationEffects depth engine (.ofList (parameters.zip arguments)) body
        (world.record (.closure id arguments))) := by
    intro depth
    have whole := heedless (depth + 1)
    rw [callEffects_enough found enough] at whole
    exact @Heedless.right engine world [.start (.closure id arguments)] _ whole
  obtain ⟨sameEnds, there, back⟩ := body_same_applied parameters plain heedlessBody
  refine ⟨fun outcome left => ?_, fun effects => ⟨?_, ?_⟩, fun x other => ⟨?_, fun _ _ => rfl⟩⟩
  · exact (exists_callAt_iff found enough).trans (sameEnds outcome left)
  · rintro ⟨depth, begins⟩
    cases depth with
    | zero => exact ⟨0, begins.trans List.nil_prefix⟩
    | succ depth =>
      rw [callEffects_enough found enough] at begins
      obtain ⟨more, longer⟩ := there depth
      exact ⟨more, begins.trans ((List.prefix_cons_inj _).mpr longer)⟩
  · rintro ⟨depth, begins⟩
    obtain ⟨more, longer⟩ := back depth
    refine ⟨more + 1, ?_⟩
    rw [callEffects_enough found enough]
    exact begins.trans ((List.prefix_cons_inj _).mpr longer)
  · exact applied_name_of_not_mem parameters other

end Call

/-- `(x, x) -> {[x, map(x, (x) -> {-x})]}` is called with a number, a list and one more number. The
list takes the place of `x`, but not in the arrow function inside. -/
theorem call_eq_applied_list :
    let inside : Node := .arrow ["x"] (some (.unary .neg (.name "x")))
    let body : Node := .list [.name "x", .call "map" [.name "x", inside]]
    let arguments : List Value := [.int 1, .list [.int 3, .int 2], .int 9]
    let items : Node := .list [.constant (.int 3), .constant (.int 2)]
    let before : World := (Builder.empty.build .empty).2
    let world : World := (before.addClosure (.arrow ⟨0⟩ ["x", "x"] body)).2
    body.applied ["x", "x"] arguments = .list [items, .call "map" [items, inside]] ∧
    ∃ depth left, Yields
      (EngineId.evaluate ⟨0⟩ depth .empty (body.applied ["x", "x"] arguments))
      (world.record (.closure (.made 0) arguments))
      (.ok (.list [.list [.int 3, .int 2], .list [.int (-3), .int (-2)]])) left := by
  intro inside body arguments items before world
  obtain ⟨left, ran⟩ : ∃ left, Yields (callAt 6 (.made 0) arguments) world
      (.ok (.list [.list [.int 3, .int 2], .list [.int (-3), .int (-2)]])) left := by
    subst world before items arguments body inside
    exact ⟨_, rfl⟩
  have effects : ∃ id, callEffects 6 (.made 0) arguments world =
      [.start (.closure (.made 0) arguments),
        .construct (.arrow ⟨0⟩ ["x"] (.unary .neg (.name "x"))),
        .start (.function Builtins.map [.list [.int 3, .int 2], .callable id]),
        .start (.closure id [.int 3]), .start (.closure id [.int 2])] := by
    subst world before items arguments body inside
    exact ⟨_, rfl⟩
  have heedless : ∀ depth, Heedless ⟨0⟩ world (callEffects depth (.made 0) arguments world) := by
    intro depth
    refine ⟨fun name function found => ?_, fun function registered => ?_⟩
    · exact Builtins.ignoresScope (Builtins.mem_of_find?_registry found).1
    · -- with more depth there are no other effects than these
      have begins := ((Interpreter.ofDepth_prolonged (Nat.le_add_left depth 6)).call .free world
        (.made 0) arguments (.inl trivial)).2
      have alike := (((Interpreter.ofDepth_prolonged (Nat.le_add_right 6 depth)).call .free world
        (.made 0) arguments (.inl trivial)).1 _ left ran).2
      obtain ⟨id, effects⟩ := effects
      have there := begins.subset registered
      rw [alike.trans effects] at there
      simp at there
  have plain : ∀ argument ∈ arguments, ∀ id, ¬argument.Holds id := by
    simp [arguments]
  obtain ⟨depth, ranToo⟩ :=
    ((@call_eq_applied _ _ ["x", "x"] _ _ _ rfl (by decide) plain heedless).1 _ _).mp ⟨6, ran⟩
  exact ⟨rfl, depth, left, ranToo⟩

end ArrowExpr
