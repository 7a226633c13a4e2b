import ArrowExpr.Proofs.ArrowCalls
import ArrowExpr.Proofs.BuiltinRuns
import ArrowExpr.Proofs.Depth
/-!
# Evaluation ends if no arrow body calls `map`

With exactly the builtins, only `map` runs bodies that are not parts of the expression at hand, and a
body that calls `map` on its own parameter need not end (`callAt_selfMap`). So let no arrow body call
`map`, at any depth (`Node.MapFreeBodies`). Outside arrow bodies `map` may be called on anything. Then

1. a body without calls of `map` ends within its height, as all that it evaluates is below it
   (`mapFree_staying`);
2. a call of any callable that can come up runs such a body, of an arrow function of the expression
   (`callAt_staying`);
3. so the expression ends within its own height and that of a body (`mapFreeBodies_staying`,
   `evaluate_ends`).

The bound is read off the expression. It does not depend on the scope, nor on how long lists get.
-/

namespace ArrowExpr

open EvalM

/-! ## Conditions and measures on the text -/

namespace Node

/-- Which functions may be called outside arrow bodies, and which ones in arrow bodies, at any depth. -/
inductive CallsOnly : Set String → Set String → Node → Prop
  | constant {outside inside : Set String} (literal : Literal) :
      CallsOnly outside inside (.constant literal)
  | name {outside inside : Set String} (x : String) : CallsOnly outside inside (.name x)
  | unary {outside inside : Set String} (op : UnaryOp) {operand : Node} :
      CallsOnly outside inside operand → CallsOnly outside inside (.unary op operand)
  | binary {outside inside : Set String} (op : BinaryOp) {left right : Node} :
      CallsOnly outside inside left → CallsOnly outside inside right →
      CallsOnly outside inside (.binary op left right)
  | call {outside inside : Set String} {function : String} {arguments : List Node} :
      function ∈ outside → (∀ argument ∈ arguments, CallsOnly outside inside argument) →
      CallsOnly outside inside (.call function arguments)
  | list {outside inside : Set String} {items : List Node} :
      (∀ item ∈ items, CallsOnly outside inside item) → CallsOnly outside inside (.list items)
  | noop {outside inside : Set String} (parameters : List String) :
      CallsOnly outside inside (.arrow parameters none)
  | arrow {outside inside : Set String} (parameters : List String) {body : Node} :
      CallsOnly inside inside body → CallsOnly outside inside (.arrow parameters (some body))

/-- The node does not call `map`, not even in arrow bodies. -/
def MapFree (node : Node) : Prop := CallsOnly {name | name ≠ "map"} {name | name ≠ "map"} node

/-- No arrow body in the node calls `map`, and neither do the arrow bodies in it. -/
def MapFreeBodies (node : Node) : Prop := CallsOnly Set.univ {name | name ≠ "map"} node

mutual

/-- How many nodes are below each other at most, arrow bodies included. -/
def height : Node → Nat
  | .constant _ | .name _ => 1
  | .unary _ operand => operand.height + 1
  | .binary _ left right => max left.height right.height + 1
  | .call _ arguments => heightAll arguments + 1
  | .list items => heightAll items + 1
  | .arrow _ none => 1
  | .arrow _ (some body) => body.height + 1

/-- The greatest height of several nodes. -/
def heightAll : List Node → Nat
  | [] => 0
  | node :: rest => max node.height (heightAll rest)

end

/-- A depth that is enough for the node if no arrow body in it calls `map`: one for each node on the
way down to a call of `map`, one for this call, and one for each node in the body that it runs. -/
def depthBound (node : Node) : Nat := 2 * node.height + 1

theorem height_le_heightAll {node : Node} {nodes : List Node} (there : node ∈ nodes) :
    node.height ≤ heightAll nodes := by
  induction there with
  | head rest => exact Nat.le_max_left _ _
  | tail other _ ih => exact Nat.le_trans ih (Nat.le_max_right _ _)

theorem height_pos (node : Node) : 0 < node.height := by
  cases node with
  | constant _ | name _ => exact Nat.one_pos
  | arrow _ body => cases body with
    | none => exact Nat.one_pos
    | some _ => exact Nat.succ_pos _
  | _ => exact Nat.succ_pos _

/-- What an evaluation of the node evaluates is less high. -/
theorem height_child {node child : Node} (there : child ∈ node.children) :
    child.height < node.height := by
  cases node with
  | constant _ | name _ | arrow _ _ => cases there
  | unary op operand =>
    rw [List.mem_singleton.mp there]
    exact Nat.lt_succ_self _
  | binary op left right =>
    rw [children, List.mem_cons, List.mem_singleton] at there
    rcases there with rfl | rfl
    · exact Nat.lt_succ_of_le (Nat.le_max_left _ _)
    · exact Nat.lt_succ_of_le (Nat.le_max_right _ _)
  | call _ _ | list _ => exact Nat.lt_succ_of_le (height_le_heightAll there)

namespace CallsOnly

variable {outside inside : Set String} {node : Node}

theorem child (only : CallsOnly outside inside node) {child : Node} (there : child ∈ node.children) :
    CallsOnly outside inside child := by
  cases only with
  | constant | name | noop | arrow => cases there
  | unary _ operand => exact List.mem_singleton.mp there ▸ operand
  | binary _ left right =>
    rw [children, List.mem_cons, List.mem_singleton] at there
    rcases there with rfl | rfl
    · exact left
    · exact right
  | call _ arguments => exact arguments child there
  | list items => exact items child there

theorem body {parameters : List String} {body : Node}
    (only : CallsOnly outside inside (.arrow parameters (some body))) :
    CallsOnly inside inside body := by
  cases only with
  | arrow _ inner => exact inner

theorem function {function : String} {arguments : List Node}
    (only : CallsOnly outside inside (.call function arguments)) : function ∈ outside := by
  cases only with
  | call there _ => exact there

end CallsOnly

end Node

/-! ## Runs that end -/

/-- Bodies that do not call `map` and are at most as high as the bound. -/
def MapFreeUpTo (bound : Nat) (body : Node) : Prop := body.MapFree ∧ body.height ≤ bound

variable {bound depth : Nat} {engine : EngineId} {scope : Scope} {node : Node} {world : World}

/-- A node without calls of `map` ends within its height. -/
theorem mapFree_staying (builtins : world.HasBuiltins engine)
    (arrows : scope.BuiltinArrows (MapFreeUpTo bound) world) (mapFree : node.MapFree)
    (low : node.height ≤ bound) (enough : node.height ≤ depth) :
    Staying True (Value.BuiltinArrows (MapFreeUpTo bound)) (evaluateAt depth engine scope node)
      world := by
  induction depth generalizing node world with
  | zero => exact absurd enough (Nat.not_le.mpr node.height_pos)
  | succ depth ih =>
    refine .evaluateNode builtins arrows (fun child there left stays => ?_) ?_ ?_
    · have lower := Node.height_child there
      exact ih (stays.builtins engine builtins) (stays.arrowsInScope arrows) (mapFree.child there)
        (Nat.le_trans (Nat.le_of_lt lower) low) (Nat.le_of_lt_succ (Nat.lt_of_lt_of_le lower enough))
    · rintro arguments rfl
      exact absurd rfl mapFree.function
    · rintro parameters body rfl
      exact ⟨mapFree.body, Nat.le_trans (Nat.le_succ _) low⟩

/-- A call of an arrow function whose body does not call `map` ends within the height of its body. -/
theorem callAt_staying {id : CallableId} {arguments : List Value}
    (arrow : BuiltinArrow (MapFreeUpTo bound) world id)
    (argumentsArrows : ∀ argument ∈ arguments, argument.BuiltinArrows (MapFreeUpTo bound) world)
    (enough : bound < depth) :
    Staying True (Value.BuiltinArrows (MapFreeUpTo bound)) (callAt depth id arguments) world := by
  obtain ⟨depth, rfl⟩ := Nat.exists_eq_add_one_of_ne_zero (Nat.ne_of_gt (Nat.zero_lt_of_lt enough))
  refine .callClosure arrow argumentsArrows fun engine scope body left isKind _ builtins arrows => ?_
  exact mapFree_staying builtins arrows isKind.1 isKind.2
    (Nat.le_trans isKind.2 (Nat.le_of_lt_succ enough))

/-- A node whose arrow bodies do not call `map` ends within its height and the bound for bodies. -/
theorem mapFreeBodies_staying (builtins : world.HasBuiltins engine)
    (arrows : scope.BuiltinArrows (MapFreeUpTo bound) world) (mapFree : node.MapFreeBodies)
    (low : node.height ≤ bound) (enough : node.height + bound < depth) :
    Staying True (Value.BuiltinArrows (MapFreeUpTo bound)) (evaluateAt depth engine scope node)
      world := by
  induction depth generalizing node world with
  | zero => exact absurd enough (Nat.not_lt_zero _)
  | succ depth ih =>
    refine .evaluateNode builtins arrows (fun child there left stays => ?_) ?_ ?_
    · have lower := Node.height_child there
      exact ih (stays.builtins engine builtins) (stays.arrowsInScope arrows) (mapFree.child there)
        (Nat.le_trans (Nat.le_of_lt lower) low)
        (Nat.lt_of_lt_of_le (Nat.add_lt_add_right lower bound) (Nat.le_of_lt_succ enough))
    · -- one depth less is left for the calls of `map`, which is still more than the bound
      rintro arguments rfl left stays id item arrow itemArrows
      have more : bound < depth := by
        have positive := (Node.call "map" arguments).height_pos
        omega
      exact callAt_staying arrow (fun _ there => List.mem_singleton.mp there ▸ itemArrows) more
    · rintro parameters body rfl
      exact ⟨mapFree.body, Nat.le_trans (Nat.le_succ _) low⟩

/-- Termination. No arrow body in the expression calls `map`, the engine has exactly the builtins,
and no value in the scope holds a callable. Then the evaluation ends, in a value or an error, and
evaluations and calls inside each other are never more than a bound that depends on the expression
alone. -/
theorem evaluate_ends (builtins : world.HasBuiltins engine)
    (plain : ∀ name value, scope.lookup? name = some value → ∀ id, ¬value.Holds id)
    (mapFree : node.MapFreeBodies) :
    ∃ outcome left, ∀ depth, node.depthBound ≤ depth →
      Yields (engine.evaluate depth scope node) world outcome left := by
  have arrows : scope.BuiltinArrows (MapFreeUpTo node.height) world :=
    fun name value found id holds => absurd holds (plain name value found id)
  have enough : node.height + node.height < node.depthBound := by
    rw [Node.depthBound, Nat.two_mul]
    exact Nat.lt_succ_self _
  obtain ⟨outcome, left, ran⟩ :=
    (mapFreeBodies_staying builtins arrows mapFree (Nat.le_refl _) enough).ends trivial
  exact ⟨outcome, left, fun depth more => evaluateAt_of_le more ran⟩

/-- `map(map(xs, (x) -> {(y) -> {[y, y]}}), min((f) -> {[f]}))` with `xs` a list of two: closures that
are returned by a closure are the items of a list, and the callable is what `min` picks. -/
theorem evaluate_ends_map :
    let world : World := (Builder.empty.build .empty).2
    let scope : Scope := Scope.empty.define "xs" (.list [.int 1, .int 2])
    let makes : Node := .arrow ["x"] (some (.arrow ["y"] (some (.list [.name "y", .name "y"]))))
    let node : Node := .call "map" [.call "map" [.name "xs", makes],
      .call "min" [.arrow ["f"] (some (.list [.name "f"]))]]
    node.depthBound = 13 ∧ ∃ left, ∀ depth, 13 ≤ depth →
      Yields (EngineId.evaluate ⟨0⟩ depth scope node) world
        (.ok (.list [.list [.callable (.made 1)], .list [.callable (.made 2)]])) left := by
  intro world scope makes node
  have plain : ∀ name value, scope.lookup? name = some value → ∀ id, ¬value.Holds id := by
    intro name value found id
    rw [Scope.lookup?_define, Scope.lookup?_empty] at found
    split at found
    · cases found
      simp
    · cases found
  have makesMapFree : makes.MapFreeBodies :=
    .arrow _ (.arrow _ (.list (List.forall_mem_cons.mpr
      ⟨.name "y", List.forall_mem_singleton.mpr (.name "y")⟩)))
  have picksMapFree : (Node.call "min" [.arrow ["f"] (some (.list [.name "f"]))]).MapFreeBodies :=
    .call (Set.mem_univ _) (List.forall_mem_singleton.mpr
      (.arrow _ (.list (List.forall_mem_singleton.mpr (.name "f")))))
  have mapFree : node.MapFreeBodies := by
    refine .call (Set.mem_univ _) (List.forall_mem_cons.mpr ⟨?_, ?_⟩)
    · exact .call (Set.mem_univ _) (List.forall_mem_cons.mpr
        ⟨.name "xs", List.forall_mem_singleton.mpr makesMapFree⟩)
    · exact List.forall_mem_singleton.mpr picksMapFree
  have ran : ∃ left, Yields (EngineId.evaluate ⟨0⟩ 13 scope node) world
      (.ok (.list [.list [.callable (.made 1)], .list [.callable (.made 2)]])) left := ⟨_, rfl⟩
  obtain ⟨left, ran⟩ := ran
  obtain ⟨outcome, last, ends⟩ := @evaluate_ends ⟨0⟩ _ _ world rfl plain mapFree
  have same := Option.some.inj ((ends 13 (Nat.le_refl 13)).symm.trans ran)
  cases same
  exact ⟨rfl, left, ends⟩

/-! ## The condition is needed -/

/-- The body of `(x) -> {map([x], x)}`. -/
def selfMap : Node := .call "map" [.list [.name "x"], .name "x"]

section SelfMap

variable {id : CallableId}

/-- The callable of this arrow function, called with itself, is called again with two less in depth. -/
theorem callAt_selfMap_of_again (builtins : world.HasBuiltins engine)
    (found : world.closure? id = some (.arrow engine ["x"] selfMap))
    (again : ExceptT.run (callAt depth id [.callable id])
      ((world.record (.closure id [.callable id])).record
        (.function Builtins.map [.list [.callable id], .callable id])) = none) :
    ExceptT.run (callAt (depth + 2) id [.callable id]) world = none := by
  have isMap : (world.registry engine).find? "map" = some Builtins.map := by
    rw [builtins]
    exact Builtins.find?_registry (List.mem_cons_of_mem _ (List.mem_cons_of_mem _
      List.mem_cons_self))
  have enough : ["x"].length ≤ [Value.callable id].length := Nat.le_refl 1
  rw [callAt_enough found enough, selfMap, evaluateAt, Interpreter.evaluateNode, run_bind, run_ask]
  simp only [World.registry_record, isMap]
  rcases depth with _ | _ | depth
  · rfl
  · rfl
  · have arguments : Yields ([Node.list [.name "x"], .name "x"].mapM
        (evaluateAt (depth + 2) engine (.ofList (["x"].zip [.callable id]))))
        (world.record (.closure id [.callable id])) (.ok [.list [.callable id], .callable id])
        (world.record (.closure id [.callable id])) := rfl
    rw [run_bind, arguments]
    show ExceptT.run (attempt (callAt (depth + 2) id [.callable id]) >>= _) _ = none
    rw [run_bind, run_attempt, again]
    rfl

/-- A body that calls `map` on its own parameter need not end: this callable, called with itself, is
cut off at every depth. -/
theorem callAt_selfMap (depth : Nat) (world : World) (builtins : world.HasBuiltins engine)
    (found : world.closure? id = some (.arrow engine ["x"] selfMap)) :
    ExceptT.run (callAt depth id [.callable id]) world = none :=
  match depth with
  | 0 => rfl
  | 1 => @callAt_enough _ _ _ _ world [.callable id] found (Nat.le_refl 1) 0
  | depth + 2 => callAt_selfMap_of_again builtins found (callAt_selfMap depth _ builtins found)

end SelfMap

end ArrowExpr
