import ArrowExpr.Host.World
/-!
Evaluation of expressions, calls of callables, and runs of host code.

The three need each other without bound: an expression calls a function, whose host code calls a
callable, whose body is again an expression. A bound on the depth of this nesting makes evaluation
total. A run that exceeds the bound has no result at all, which is not an error of the expression; a
result does not depend on the bound that it was reached with.
-/

namespace ArrowExpr

/-- A run in a world: no result if the depth does not suffice, else a value or an error together
with the world that the run leaves. An error does not undo anything. -/
abbrev EvalM := ExceptT EvalError (StateT World Option)

namespace EvalM

/-- The bound on the depth was reached. -/
def outOfDepth {α : Type} : EvalM α := ExceptT.mk fun _ => none

/-- The value of an outcome, or its error. -/
def ofOutcome (outcome : Outcome) : EvalM Value := ExceptT.mk fun world => some (outcome, world)

/-- The outcome of a run, as a value. -/
def attempt (run : EvalM Value) : EvalM Outcome := ExceptT.mk fun world =>
  (ExceptT.run run world).map fun (outcome, world) => (.ok outcome, world)

/-- What the world says. -/
def ask {α : Type} (view : World → α) : EvalM α := ExceptT.mk fun world =>
  some (.ok (view world), world)

/-- A change of the world. -/
def update (change : World → World) : EvalM Unit := ExceptT.mk fun world =>
  some (.ok (), change world)

/-- A change of the world that makes something. -/
def make {α : Type} (step : World → α × World) : EvalM α := ExceptT.mk fun world =>
  let (a, world) := step world
  some (.ok a, world)

/-! ## What a run does in a world -/

variable {α β : Type} (world : World)

@[simp] theorem run_pure (a : α) :
    ExceptT.run (pure a : EvalM α) world = some (.ok a, world) := rfl

@[simp] theorem run_throw (error : EvalError) :
    ExceptT.run (throw error : EvalM α) world = some (.error error, world) := rfl

@[simp] theorem run_outOfDepth : ExceptT.run (outOfDepth : EvalM α) world = none := rfl

@[simp] theorem run_ofOutcome (outcome : Outcome) :
    ExceptT.run (ofOutcome outcome) world = some (outcome, world) := rfl

@[simp] theorem run_attempt (run : EvalM Value) :
    ExceptT.run (attempt run) world =
      (ExceptT.run run world).map fun (outcome, world) => (.ok outcome, world) := rfl

@[simp] theorem run_ask (view : World → α) :
    ExceptT.run (ask view) world = some (.ok (view world), world) := rfl

@[simp] theorem run_update (change : World → World) :
    ExceptT.run (update change) world = some (.ok (), change world) := rfl

@[simp] theorem run_make (step : World → α × World) :
    ExceptT.run (make step) world = some (.ok (step world).1, (step world).2) := rfl

/-- A run goes on in the world that it has come to, unless it has failed. -/
theorem run_bind (first : EvalM α) (next : α → EvalM β) :
    ExceptT.run (first >>= next) world =
      match ExceptT.run first world with
      | none => none
      | some (.ok a, world) => ExceptT.run (next a) world
      | some (.error error, world) => some (.error error, world) := by
  show (StateT.bind (ExceptT.run first) _) world = _
  simp only [StateT.bind]
  cases ExceptT.run first world with
  | none => rfl
  | some result =>
    obtain ⟨outcome, world⟩ := result
    cases outcome <;> rfl

end EvalM

open EvalM

/-- Evaluation and calls, as far as the remaining depth allows. -/
structure Interpreter where
  evaluate : EngineId → Scope → Node → EvalM Value
  call : CallableId → List Value → EvalM Value

namespace Interpreter

variable (inner : Interpreter)

/-- Runs host code. -/
def perform : Action → EvalM Value
  | .done outcome => ofOutcome outcome
  | .call id arguments next => do
    let outcome ← attempt (inner.call id arguments)
    perform (next outcome)
  | .evaluate engine scope node next => do
    let outcome ← attempt (inner.evaluate engine scope node)
    perform (next outcome)
  | .wrap callback next => do
    let id ← make (·.addClosure (.host callback))
    perform (next id)
  | .register engine name compile evaluate next => do
    let replaces ← ask fun world => (world.registry engine).contains name
    update (·.updateRegistry engine (·.insert ⟨name, compile, evaluate⟩))
    perform (next replaces)
  | .load cell next => do
    let value ← ask (·.load cell)
    perform (next value)
  | .store cell value next => do
    update (·.store cell value)
    perform next

/-- Runs a registered function. -/
def run (function : HostFunction) (scope : Scope) (arguments : List Value) : EvalM Value := do
  update (·.record (.function function arguments))
  inner.perform (function.evaluate scope arguments)

/-- Evaluates an expression.

* A function is looked up before its arguments are evaluated, and it is that function which runs,
  even if an argument replaces it in the registry.
* Operands, arguments and items are evaluated from left to right, and the first error ends the run.
* `and` and `or` leave out the right operand if the left one decides.
* An arrow function with a body is a new callable each time; it takes nothing from the scope. -/
def evaluateNode (engine : EngineId) (scope : Scope) : Node → EvalM Value
  | .constant literal => pure (.ofLiteral literal)
  | .name name =>
    match scope.lookup? name with
    | some value => pure value
    | none => throw (.undefinedVariable name)
  | .unary op operand => do
    let value ← inner.evaluate engine scope operand
    ofOutcome (op.apply value)
  | .binary op left right => do
    let leftValue ← inner.evaluate engine scope left
    if op.isShortCircuit && leftValue.isTruthy == (op == .or) then
      pure (.bool leftValue.isTruthy)
    else
      let rightValue ← inner.evaluate engine scope right
      ofOutcome (op.apply leftValue rightValue)
  | .call name arguments => do
    match (← ask (·.registry engine)).find? name with
    | some function =>
      let values ← arguments.mapM (inner.evaluate engine scope)
      inner.run function scope values
    | none => throw (.undefinedFunction name)
  | .list items => do
    let values ← items.mapM (inner.evaluate engine scope)
    pure (.list values)
  | .arrow _ none => pure (.callable .noop)
  | .arrow parameters (some body) => do
    let id ← make (·.addClosure (.arrow engine parameters body))
    pure (.callable id)

/-- Calls a callable.

* The no-op returns null whatever its arguments are.
* The body of an arrow function sees its parameters and nothing else; arguments beyond them are
  ignored, and of a repeated parameter the last one counts. -/
def callClosure (id : CallableId) (arguments : List Value) : EvalM Value := do
  match ← ask (·.closure? id) with
  | none => pure .null
  | some (.arrow engine parameters body) =>
    if arguments.length < parameters.length then
      throw (.arityMismatch parameters.length arguments.length)
    else
      update (·.record (.closure id arguments))
      inner.evaluate engine (.ofList (parameters.zip arguments)) body
  | some (.host callback) =>
    update (·.record (.closure id arguments))
    inner.perform (callback arguments)

end Interpreter

mutual

/-- Evaluates an expression, with at most `depth` evaluations and calls inside each other. -/
def evaluateAt : Nat → EngineId → Scope → Node → EvalM Value
  | 0, _, _, _ => outOfDepth
  | depth + 1, engine, scope, node =>
    Interpreter.evaluateNode ⟨evaluateAt depth, callAt depth⟩ engine scope node

/-- Calls a callable, with at most `depth` evaluations and calls inside each other. -/
def callAt : Nat → CallableId → List Value → EvalM Value
  | 0, _, _ => outOfDepth
  | depth + 1, id, arguments =>
    Interpreter.callClosure ⟨evaluateAt depth, callAt depth⟩ id arguments

end

/-- The interpreter of a given depth. -/
def Interpreter.ofDepth (depth : Nat) : Interpreter := ⟨evaluateAt depth, callAt depth⟩

end ArrowExpr
