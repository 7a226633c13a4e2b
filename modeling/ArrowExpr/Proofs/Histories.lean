import ArrowExpr.Proofs.Runs
/-!
# Histories of a host

A host builds engines, registers functions, evaluates expressions and calls callables, in any order.
`Reaches` leads from one world of such a history to another. Neither has to lie between two
operations: an evaluation in its course starts other evaluations, calls and host code, each in the
world of that moment (`Starts`), and those worlds belong to the history as well, whether or not the
evaluation ever ends.

Cloning an engine and storing a value change no world, so they are not steps: a clone is the same
`EngineId`, a copy of a callable the same `CallableId`.

Main statement: a history changes the world by single changes only (`Reaches.later`).
-/

namespace ArrowExpr

open EvalM

/-- What can be under way in a world. -/
inductive Activity where
  | evaluate (engine : EngineId) (scope : Scope) (node : Node)
  | call (id : CallableId) (arguments : List Value)
  /-- A registered function runs. -/
  | run (function : HostFunction) (scope : Scope) (arguments : List Value)
  /-- The rest of a run of host code. -/
  | perform (action : Action)

namespace Activity

/-- The run of an activity. -/
def start (inner : Interpreter) : Activity → EvalM Value
  | evaluate engine scope node => inner.evaluate engine scope node
  | call id arguments => inner.call id arguments
  | run function scope arguments => inner.run function scope arguments
  | perform action => inner.perform action

end Activity

/-- An activity that starts in a world, with at most `depth` evaluations and calls inside each
other. -/
structure Moment where
  depth : Nat
  activity : Activity
  world : World

/-- The activity ends, with this outcome and in this world. -/
def Moment.EndsWith (moment : Moment) (outcome : Outcome) (left : World) : Prop :=
  Yields (moment.activity.start (.ofDepth moment.depth)) moment.world outcome left

/-- An activity that starts at the first moment starts the second one in its course.

* An evaluation starts its operands, arguments and items, each after those in front of it, and then
  the function of a call.
* A call starts the body of the arrow function, or the host code.
* Host code starts what it calls and evaluates, and goes on after each of its steps. -/
inductive Starts : Moment → Moment → Prop
  | operand {depth engine scope op operand world} :
      Starts ⟨depth + 1, .evaluate engine scope (.unary op operand), world⟩
        ⟨depth, .evaluate engine scope operand, world⟩
  | left {depth engine scope op left right world} :
      Starts ⟨depth + 1, .evaluate engine scope (.binary op left right), world⟩
        ⟨depth, .evaluate engine scope left, world⟩
  | right {depth engine scope op left right world value middle} :
      Moment.EndsWith ⟨depth, .evaluate engine scope left, world⟩ (.ok value) middle →
      ¬(op.isShortCircuit && value.isTruthy == (op == .or)) →
      Starts ⟨depth + 1, .evaluate engine scope (.binary op left right), world⟩
        ⟨depth, .evaluate engine scope right, middle⟩
  | argument {depth engine scope name function before argument after values world middle} :
      (world.registry engine).find? name = some function →
      Yields (before.mapM (evaluateAt depth engine scope)) world (.ok values) middle →
      Starts
        ⟨depth + 1, .evaluate engine scope (.call name (before ++ argument :: after)), world⟩
        ⟨depth, .evaluate engine scope argument, middle⟩
  | function {depth engine scope name function arguments values world middle} :
      (world.registry engine).find? name = some function →
      Yields (arguments.mapM (evaluateAt depth engine scope)) world (.ok values) middle →
      Starts ⟨depth + 1, .evaluate engine scope (.call name arguments), world⟩
        ⟨depth, .run function scope values, middle⟩
  | item {depth engine scope before item after values world middle} :
      Yields (before.mapM (evaluateAt depth engine scope)) world (.ok values) middle →
      Starts ⟨depth + 1, .evaluate engine scope (.list (before ++ item :: after)), world⟩
        ⟨depth, .evaluate engine scope item, middle⟩
  | body {depth id arguments engine parameters body world} :
      world.closure? id = some (.arrow engine parameters body) →
      parameters.length ≤ arguments.length →
      Starts ⟨depth + 1, .call id arguments, world⟩
        ⟨depth, .evaluate engine (.ofList (parameters.zip arguments)) body,
          world.record (.closure id arguments)⟩
  | callback {depth id arguments callback world} :
      world.closure? id = some (.host callback) →
      Starts ⟨depth + 1, .call id arguments, world⟩
        ⟨depth, .perform (callback arguments), world.record (.closure id arguments)⟩
  | hostCode {depth function scope arguments world} :
      Starts ⟨depth, .run function scope arguments, world⟩
        ⟨depth, .perform (function.evaluate scope arguments),
          world.record (.function function arguments)⟩
  | performCall {depth id arguments next world} :
      Starts ⟨depth, .perform (.call id arguments next), world⟩ ⟨depth, .call id arguments, world⟩
  | afterCall {depth id arguments next world outcome left} :
      Moment.EndsWith ⟨depth, .call id arguments, world⟩ outcome left →
      Starts ⟨depth, .perform (.call id arguments next), world⟩
        ⟨depth, .perform (next outcome), left⟩
  | performEvaluate {depth engine scope node next world} :
      Starts ⟨depth, .perform (.evaluate engine scope node next), world⟩
        ⟨depth, .evaluate engine scope node, world⟩
  | afterEvaluate {depth engine scope node next world outcome left} :
      Moment.EndsWith ⟨depth, .evaluate engine scope node, world⟩ outcome left →
      Starts ⟨depth, .perform (.evaluate engine scope node next), world⟩
        ⟨depth, .perform (next outcome), left⟩
  | afterWrap {depth callback next world} :
      Starts ⟨depth, .perform (.wrap callback next), world⟩
        ⟨depth, .perform (next (world.addClosure (.host callback)).1),
          (world.addClosure (.host callback)).2⟩
  | afterRegister {depth engine name compile evaluate next world} :
      Starts ⟨depth, .perform (.register engine name compile evaluate next), world⟩
        ⟨depth, .perform (next ((world.registry engine).contains name)),
          world.updateRegistry engine (·.insert ⟨name, compile, evaluate⟩)⟩
  | afterLoad {depth cell next world} :
      Starts ⟨depth, .perform (.load cell next), world⟩
        ⟨depth, .perform (next (world.load cell)), world⟩
  | afterStore {depth cell value next world} :
      Starts ⟨depth, .perform (.store cell value next), world⟩
        ⟨depth, .perform next, world.store cell value⟩

/-- The history of a host from the world `start` on.

* `build`, `register`, `extend`: engines and their functions.
* `wrap`, `cell`, `store`: callables and cells that host code makes for itself.
* `ended`: an evaluation, a call or host code from its start to its end.
* `within`: into an activity, up to something that it starts. -/
inductive Reaches (start : World) : World → Prop
  | here : Reaches start start
  | build {world : World} (builder : Builder) :
      Reaches start world → Reaches start (builder.build world).2
  | register {world : World} (engine : EngineId) (function : HostFunction) :
      Reaches start world → Reaches start (engine.register function world).2
  | extend {world : World} (engine : EngineId) (functions : List HostFunction) :
      Reaches start world → Reaches start (engine.extend functions world)
  | wrap {world : World} (callback : List Value → Action) :
      Reaches start world → Reaches start (world.addClosure (.host callback)).2
  | cell {world : World} (value : Value) :
      Reaches start world → Reaches start (world.addCell value).2
  | store {world : World} (cell : CellId) (value : Value) :
      Reaches start world → Reaches start (world.store cell value)
  | ended {moment : Moment} {outcome : Outcome} {left : World} :
      Reaches start moment.world → moment.EndsWith outcome left → Reaches start left
  | within {moment inner : Moment} :
      Reaches start moment.world → Starts moment inner → Reaches start inner.world

/-! ## Histories go by single changes -/

/-- A property of all evaluations and calls is one of all activities. -/
theorem Compositional.start {P : ∀ α : Type, EvalM α → Prop} (laws : Compositional P) (depth : Nat)
    (activity : Activity) : P Value (activity.start (.ofDepth depth)) := by
  have all := laws.ofDepth depth
  cases activity with
  | evaluate engine scope node => exact all.evaluate engine scope node
  | call id arguments => exact all.call id arguments
  | run function scope arguments => exact laws.run all function scope arguments
  | perform action => exact laws.perform all action

theorem Moment.EndsWith.later {moment : Moment} {outcome : Outcome} {left : World}
    (ends : moment.EndsWith outcome left) : Later moment.world left :=
  Onward.compositional.start moment.depth moment.activity moment.world outcome left ends

/-- The arguments and items in front of the one that starts have led to a later world. -/
theorem later_of_mapM {depth : Nat} {engine : EngineId} {scope : Scope} {nodes : List Node}
    {values : List Value} {world middle : World}
    (ran : Yields (nodes.mapM (evaluateAt depth engine scope)) world (.ok values) middle) :
    Later world middle := by
  have each : ∀ node, Onward (evaluateAt depth engine scope node) :=
    (Onward.compositional.ofDepth depth).evaluate engine scope
  exact Onward.compositional.mapM each nodes world _ middle ran

theorem Starts.later {moment inner : Moment} (starts : Starts moment inner) :
    Later moment.world inner.world := by
  cases starts with
  | right ends _ => exact ends.later
  | argument _ ran => exact later_of_mapM ran
  | function _ ran => exact later_of_mapM ran
  | item ran => exact later_of_mapM ran
  | body _ _ => exact .single (.event _)
  | callback _ => exact .single (.event _)
  | hostCode => exact .single (.event _)
  | afterCall ends => exact ends.later
  | afterEvaluate ends => exact ends.later
  | afterWrap => exact .single (.closure _)
  | afterRegister => exact .single (.function _ _)
  | afterStore => exact .single (.store _ _)
  | _ => exact .refl _

namespace Reaches

variable {a b c : World}

theorem later (reaches : Reaches a b) : Later a b := by
  induction reaches with
  | here => exact .refl _
  | build builder _ ih => exact ih.trans (.single (.registry builder.registry))
  | register engine function _ ih => exact ih.trans (.single (.function engine function))
  | extend engine functions _ ih => exact ih.trans (.insertAll _ engine functions)
  | wrap callback _ ih => exact ih.trans (.single (.closure _))
  | cell value _ ih => exact ih.trans (.single (.cell value))
  | store cell value _ ih => exact ih.trans (.single (.store cell value))
  | ended _ ends ih => exact ih.trans ends.later
  | within _ starts ih => exact ih.trans starts.later

theorem trans (first : Reaches a b) (second : Reaches b c) : Reaches a c := by
  induction second with
  | here => exact first
  | build builder _ ih => exact ih.build builder
  | register engine function _ ih => exact ih.register engine function
  | extend engine functions _ ih => exact ih.extend engine functions
  | wrap callback _ ih => exact ih.wrap callback
  | cell value _ ih => exact ih.cell value
  | store cell value _ ih => exact ih.store cell value
  | ended _ ends ih => exact ih.ended ends
  | within _ starts ih => exact ih.within starts

end Reaches

end ArrowExpr
