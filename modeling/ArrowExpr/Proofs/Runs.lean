import ArrowExpr.Engine
import Mathlib.Logic.Relation
/-!
# What runs do to the world

A run changes the world one thing at a time (`Change`), and the interpreter puts runs together in
few ways. Two results follow, which need no look at the forms of an expression any more:

1. `Compositional.ofDepth`: a property of the single steps that goes from the parts of a run to the
   whole holds of every evaluation and of every call.
2. `Onward.compositional`: to lead to a later world is such a property, so whatever is evaluated or
   called, the world that is left comes from the world at the start by single changes.

What every single change keeps is thus kept by every run; the first such fact is that a callable
keeps its closure (`Later.closure?`).
-/

namespace ArrowExpr

open EvalM

/-! ## Single changes -/

/-- One thing is made or changed. -/
inductive Change : World → World → Prop
  | registry {world : World} (registry : Registry) : Change world (world.addRegistry registry).2
  | function {world : World} (engine : EngineId) (function : HostFunction) :
      Change world (world.updateRegistry engine (·.insert function))
  | closure {world : World} (closure : Closure) : Change world (world.addClosure closure).2
  | cell {world : World} (value : Value) : Change world (world.addCell value).2
  | store {world : World} (cell : CellId) (value : Value) : Change world (world.store cell value)
  | event {world : World} (event : Event) : Change world (world.record event)

namespace World

/-- Two changes of one registry are one change. -/
theorem updateRegistry_updateRegistry (world : World) (engine : EngineId)
    (first second : Registry → Registry) :
    (world.updateRegistry engine first).updateRegistry engine second =
      world.updateRegistry engine fun registry => second (first registry) := by
  simp only [updateRegistry, World.mk.injEq, and_true]
  apply Array.ext_getElem?
  intro index
  simp only [Array.getElem?_modify]
  split
  · rw [Option.map_map]
    rfl
  · rfl

theorem updateRegistry_id (world : World) (engine : EngineId) :
    world.updateRegistry engine (fun registry => registry) = world := by
  cases world
  simp only [updateRegistry, World.mk.injEq, and_true]
  apply Array.ext_getElem?
  intro index
  simp only [Array.getElem?_modify, Option.map_id', ite_self]

/-- Only what a change makes of the registry that is there counts. -/
theorem updateRegistry_congr {world : World} {engine : EngineId}
    {first second : Registry → Registry}
    (same : first (world.registry engine) = second (world.registry engine)) :
    world.updateRegistry engine first = world.updateRegistry engine second := by
  simp only [updateRegistry, World.mk.injEq, and_true]
  apply Array.ext_getElem?
  intro index
  simp only [Array.getElem?_modify]
  split
  · next here =>
    subst here
    cases there : world.registries[engine.index]? with
    | none => rfl
    | some functions =>
      simp only [registry, there, Option.getD_some] at same
      simp only [Option.map_some, same]
  · rfl

end World

/-- The second world comes from the first by single changes. -/
def Later : World → World → Prop := Relation.ReflTransGen Change

namespace Later

variable {a b c : World}

theorem refl (world : World) : Later world world := Relation.ReflTransGen.refl

theorem trans (first : Later a b) (second : Later b c) : Later a c :=
  Relation.ReflTransGen.trans first second

theorem single (change : Change a b) : Later a b := Relation.ReflTransGen.single change

/-- A callable keeps its closure for ever. -/
theorem closure? (later : Later a b) {id : CallableId} {closure : Closure}
    (found : a.closure? id = some closure) : b.closure? id = some closure := by
  induction later with
  | refl => exact found
  | tail _ change ih =>
    cases change with
    | closure new =>
      cases id with
      | noop => cases ih
      | made index =>
        rw [World.closure?_addClosure]
        have inside := (Array.getElem?_eq_some_iff.mp ih).1
        rw [if_neg (Nat.ne_of_lt inside)]
        exact ih
    | _ => exact ih

/-- Registering functions one after the other is a sequence of single changes. -/
theorem insertAll (world : World) (engine : EngineId) (functions : List HostFunction) :
    Later world (world.updateRegistry engine (·.insertAll functions)) := by
  induction functions generalizing world with
  | nil =>
    have same : world.updateRegistry engine (·.insertAll []) = world :=
      world.updateRegistry_id engine
    rw [same]
    exact refl world
  | cons function rest ih =>
    have split : world.updateRegistry engine (·.insertAll (function :: rest)) =
        (world.updateRegistry engine (·.insert function)).updateRegistry engine
          (·.insertAll rest) :=
      (world.updateRegistry_updateRegistry engine (·.insert function) (·.insertAll rest)).symm
    rw [split]
    exact (single (.function engine function)).trans (ih _)

end Later

/-! ## What holds when a run ends -/

/-- The run ends in this outcome and leaves this world. -/
def Yields {α : Type} (run : EvalM α) (world : World) (outcome : Except EvalError α)
    (left : World) : Prop :=
  ExceptT.run run world = some (outcome, left)

/-- If the run ends at all, the outcome and the world that it leaves satisfy `post`. -/
def Ends {α : Type} (run : EvalM α) (world : World) (post : Except EvalError α → World → Prop) :
    Prop :=
  ∀ outcome left, Yields run world outcome left → post outcome left

namespace Ends

variable {α β : Type} {world : World}

theorem mono {run : EvalM α} {post weaker : Except EvalError α → World → Prop}
    (ends : Ends run world post) (imp : ∀ outcome left, post outcome left → weaker outcome left) :
    Ends run world weaker :=
  fun outcome left result => imp outcome left (ends outcome left result)

theorem of_yields {run : EvalM α} {post : Except EvalError α → World → Prop}
    {outcome : Except EvalError α} {left : World}
    (result : Yields run world outcome left) (holds : post outcome left) :
    Ends run world post := by
  intro outcome' left' result'
  have same := Option.some.inj (result.symm.trans result')
  cases same
  exact holds

theorem outOfDepth {post : Except EvalError α → World → Prop} :
    Ends EvalM.outOfDepth world post := by
  intro outcome left result
  cases result

/-- A run goes on from what its first part leaves. -/
theorem bind {first : EvalM α} {next : α → EvalM β} {post : Except EvalError β → World → Prop}
    (ends : Ends first world fun outcome left =>
      match outcome with
      | .ok a => Ends (next a) left post
      | .error error => post (.error error) left) :
    Ends (first >>= next) world post := by
  intro outcome left result
  rw [Yields, run_bind] at result
  cases ran : ExceptT.run first world with
  | none =>
    rw [ran] at result
    cases result
  | some pair =>
    obtain ⟨firstOutcome, middle⟩ := pair
    have there := ends firstOutcome middle ran
    rw [ran] at result
    cases firstOutcome with
    | ok a => exact there outcome left result
    | error error =>
      cases result
      exact there

/-- What is caught is an outcome like any other. -/
theorem attempt {run : EvalM Value} {post : Except EvalError Outcome → World → Prop}
    (ends : Ends run world fun outcome left => post (.ok outcome) left) :
    Ends (EvalM.attempt run) world post := by
  intro outcome left result
  rw [Yields, run_attempt, Option.map_eq_some_iff] at result
  obtain ⟨⟨inner, middle⟩, ran, same⟩ := result
  cases same
  exact ends inner left ran

end Ends

section Yields

variable {α β : Type} {first : EvalM α} {next : α → EvalM β} {world middle left : World}

theorem Yields.bind {a : α} {outcome : Except EvalError β}
    (ran : Yields first world (.ok a) middle) (then_ : Yields (next a) middle outcome left) :
    Yields (first >>= next) world outcome left := by
  rw [Yields] at ran then_ ⊢
  rw [run_bind, ran]
  exact then_

theorem Yields.bind_error {error : EvalError} (ran : Yields first world (.error error) left) :
    Yields (first >>= next) world (.error error) left := by
  rw [Yields] at ran ⊢
  rw [run_bind, ran]

/-- A run that ends in a value has gone on from the value of its first part. -/
theorem Yields.exists_of_bind {b : β} (ran : Yields (first >>= next) world (.ok b) left) :
    ∃ a middle, Yields first world (.ok a) middle ∧ Yields (next a) middle (.ok b) left := by
  rw [Yields, run_bind] at ran
  cases firstRan : ExceptT.run first world with
  | none =>
    rw [firstRan] at ran
    cases ran
  | some pair =>
    obtain ⟨outcome, middle⟩ := pair
    rw [firstRan] at ran
    cases outcome with
    | ok a => exact ⟨a, middle, firstRan, ran⟩
    | error error => cases ran

theorem Yields.attempt {run : EvalM Value} {outcome : Outcome}
    (ran : Yields run world outcome left) :
    Yields (EvalM.attempt run) world (.ok outcome) left := by
  rw [Yields] at ran ⊢
  rw [run_attempt, ran]
  rfl

end Yields

/-! ## Single evaluations -/

section Evaluations

variable {engine : EngineId} {scope : Scope} {depth : Nat} {world left : World}

theorem yields_ofOutcome {outcome result : Outcome} :
    Yields (EvalM.ofOutcome outcome) world result left ↔ outcome = result ∧ world = left := by
  rw [Yields, run_ofOutcome, Option.some.injEq, Prod.mk.injEq]

/-- A bound name evaluates to its value and does nothing. -/
theorem evaluateAt_name {x : String} {value : Value} (bound : scope.lookup? x = some value)
    (depth : Nat) (world : World) :
    Yields (evaluateAt (depth + 1) engine scope (.name x)) world (.ok value) world := by
  rw [evaluateAt, Interpreter.evaluateNode, bound]
  exact run_pure world value

theorem evaluateAt_unary (op : UnaryOp) (operand : Node) :
    evaluateAt (depth + 1) engine scope (.unary op operand) =
      (do ofOutcome (op.apply (← evaluateAt depth engine scope operand))) := rfl

/-- An operator that does not look at its left operand first is applied to both. -/
theorem evaluateAt_binary {op : BinaryOp} (both : op.isShortCircuit = false) (left right : Node) :
    evaluateAt (depth + 1) engine scope (.binary op left right) = (do
      let leftValue ← evaluateAt depth engine scope left
      let rightValue ← evaluateAt depth engine scope right
      ofOutcome (op.apply leftValue rightValue)) := by
  simp only [evaluateAt, Interpreter.evaluateNode, both, Bool.false_and, Bool.false_eq_true,
    if_false]

end Evaluations

/-! ## Properties of all runs -/

/-- A property of runs that the single steps of the interpreter have, and that goes from the parts
of a run to the whole. -/
structure Compositional (P : ∀ α : Type, EvalM α → Prop) : Prop where
  pure : ∀ {α : Type} (a : α), P α (Pure.pure a)
  throw : ∀ error : EvalError, P Value (MonadExcept.throw error)
  outOfDepth : P Value EvalM.outOfDepth
  ofOutcome : ∀ outcome : Outcome, P Value (EvalM.ofOutcome outcome)
  attempt : ∀ {run : EvalM Value}, P Value run → P Outcome (EvalM.attempt run)
  bind : ∀ {α β : Type} {first : EvalM α} {next : α → EvalM β},
    P α first → (∀ a, P β (next a)) → P β (first >>= next)
  registry : ∀ engine : EngineId, P Registry (EvalM.ask (·.registry engine))
  contains : ∀ (engine : EngineId) (name : String),
    P Bool (EvalM.ask fun world => (world.registry engine).contains name)
  closure? : ∀ id : CallableId, P (Option Closure) (EvalM.ask (·.closure? id))
  load : ∀ cell : CellId, P Value (EvalM.ask (·.load cell))
  addClosure : ∀ closure : Closure, P CallableId (EvalM.make (·.addClosure closure))
  insert : ∀ (engine : EngineId) (function : HostFunction),
    P Unit (EvalM.update (·.updateRegistry engine (·.insert function)))
  store : ∀ (cell : CellId) (value : Value), P Unit (EvalM.update (·.store cell value))
  record : ∀ event : Event, P Unit (EvalM.update (·.record event))

/-- What the interpreter evaluates and calls has the property. -/
structure Interpreter.All (P : ∀ α : Type, EvalM α → Prop) (inner : Interpreter) : Prop where
  evaluate : ∀ engine scope node, P Value (inner.evaluate engine scope node)
  call : ∀ id arguments, P Value (inner.call id arguments)

namespace Compositional

variable {P : ∀ α : Type, EvalM α → Prop} {inner : Interpreter}

theorem mapM {α β : Type} (laws : Compositional P) {f : α → EvalM β} (each : ∀ a, P β (f a))
    (items : List α) : P (List β) (items.mapM f) := by
  induction items with
  | nil => exact laws.pure []
  | cons item rest ih =>
    rw [List.mapM_cons]
    exact laws.bind (each item) fun _ => laws.bind ih fun _ => laws.pure _

theorem perform (laws : Compositional P) (all : inner.All P) (action : Action) :
    P Value (inner.perform action) := by
  induction action with
  | done outcome => exact laws.ofOutcome outcome
  | call id arguments next ih => exact laws.bind (laws.attempt (all.call id arguments)) ih
  | evaluate engine scope node next ih =>
    exact laws.bind (laws.attempt (all.evaluate engine scope node)) ih
  | wrap callback next _ ih => exact laws.bind (laws.addClosure _) ih
  | register engine name compile evaluate next _ ih =>
    exact laws.bind (laws.contains engine name) fun replaces =>
      laws.bind (laws.insert engine ⟨name, compile, evaluate⟩) fun _ => ih replaces
  | load cell next ih => exact laws.bind (laws.load cell) ih
  | store cell value next ih => exact laws.bind (laws.store cell value) fun _ => ih

theorem run (laws : Compositional P) (all : inner.All P) (function : HostFunction) (scope : Scope)
    (arguments : List Value) : P Value (inner.run function scope arguments) :=
  laws.bind (laws.record _) fun _ => laws.perform all _

theorem evaluateNode (laws : Compositional P) (all : inner.All P) (engine : EngineId)
    (scope : Scope) (node : Node) : P Value (inner.evaluateNode engine scope node) := by
  cases node with
  | constant literal => exact laws.pure _
  | name x =>
    rw [Interpreter.evaluateNode]
    split
    · exact laws.pure _
    · exact laws.throw _
  | unary op operand => exact laws.bind (all.evaluate _ _ _) fun _ => laws.ofOutcome _
  | binary op left right =>
    refine laws.bind (all.evaluate _ _ _) fun value => ?_
    split
    · exact laws.pure _
    · exact laws.bind (all.evaluate _ _ _) fun _ => laws.ofOutcome _
  | call name arguments =>
    refine laws.bind (laws.registry engine) fun registry => ?_
    split
    · exact laws.bind (laws.mapM (all.evaluate _ _) _) fun _ => laws.run all _ _ _
    · exact laws.throw _
  | list items => exact laws.bind (laws.mapM (all.evaluate _ _) _) fun _ => laws.pure _
  | arrow parameters body =>
    cases body with
    | none => exact laws.pure _
    | some body => exact laws.bind (laws.addClosure _) fun _ => laws.pure _

theorem callClosure (laws : Compositional P) (all : inner.All P) (id : CallableId)
    (arguments : List Value) : P Value (inner.callClosure id arguments) := by
  refine laws.bind (laws.closure? id) fun closure => ?_
  split
  · exact laws.pure _
  · split
    · exact laws.throw _
    · exact laws.bind (laws.record _) fun _ => all.evaluate _ _ _
  · exact laws.bind (laws.record _) fun _ => laws.perform all _

/-- The property holds of whatever is evaluated and called, at every depth. -/
theorem ofDepth (laws : Compositional P) (depth : Nat) : (Interpreter.ofDepth depth).All P := by
  induction depth with
  | zero => exact ⟨fun _ _ _ => laws.outOfDepth, fun _ _ => laws.outOfDepth⟩
  | succ depth ih => exact ⟨laws.evaluateNode ih, laws.callClosure ih⟩

end Compositional

/-! ## Every run goes onward -/

/-- Whatever world the run starts in, the one that it leaves is later. -/
def Onward {α : Type} (run : EvalM α) : Prop :=
  ∀ world, Ends run world fun _ left => Later world left

namespace Onward

variable {α β : Type}

theorem ask (view : World → α) : Onward (EvalM.ask view) :=
  fun world => .of_yields (run_ask world view) (Later.refl world)

theorem update {change : World → World} (single : ∀ world, Change world (change world)) :
    Onward (EvalM.update change) :=
  fun world => .of_yields (run_update world change) (.single (single world))

theorem make {step : World → α × World} (single : ∀ world, Change world (step world).2) :
    Onward (EvalM.make step) :=
  fun world => .of_yields (run_make world step) (.single (single world))

theorem bind {first : EvalM α} {next : α → EvalM β} (onward : Onward first)
    (nextOnward : ∀ a, Onward (next a)) : Onward (first >>= next) := by
  intro world
  refine .bind ((onward world).mono fun outcome middle later => ?_)
  cases outcome with
  | ok a => exact (nextOnward a middle).mono fun _ _ last => later.trans last
  | error error => exact later

theorem compositional : Compositional fun _ run => Onward run where
  pure a world := .of_yields (run_pure world a) (Later.refl world)
  throw error world := .of_yields (run_throw world error) (Later.refl world)
  outOfDepth _ := .outOfDepth
  ofOutcome outcome world := .of_yields (run_ofOutcome world outcome) (Later.refl world)
  attempt onward world := .attempt (onward world)
  bind := bind
  registry _ := ask _
  contains _ _ := ask _
  closure? _ := ask _
  load _ := ask _
  addClosure closure := make fun _ => .closure closure
  insert engine function := update fun _ => .function engine function
  store cell value := update fun _ => .store cell value
  record event := update fun _ => .event event

end Onward

end ArrowExpr
