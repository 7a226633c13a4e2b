import ArrowExpr.Proofs.Binding
import ArrowExpr.Proofs.Histories
import ArrowExpr.Proofs.SideBySide
/-!
# The call law of arrow functions

A callable that an arrow function has evaluated to keeps its parameters, its body and its engine for
ever. Whatever a host does in between, a call is the evaluation of the body with the functions that
this engine has at the moment of the call, in a scope of the parameters alone
(`call_of_arrow`). What a call does in a given world is said once, by closure kind, in
`callAt_few` and `callAt_enough`.
-/

namespace ArrowExpr

open EvalM

section Call

variable {id : CallableId} {engine : EngineId} {parameters : List String} {body : Node}
  {world : World} {arguments : List Value}

/-- With too few arguments a call fails and leaves everything as it is. -/
theorem callAt_few (found : world.closure? id = some (.arrow engine parameters body))
    (few : arguments.length < parameters.length) (depth : Nat) :
    Yields (callAt (depth + 1) id arguments) world
      (.error (.arityMismatch parameters.length arguments.length)) world := by
  rw [Yields, callAt, Interpreter.callClosure, run_bind, run_ask]
  simp only [found, if_pos few, run_throw]

/-- With enough arguments a call is noted, and then it is the evaluation of the body. -/
theorem callAt_enough (found : world.closure? id = some (.arrow engine parameters body))
    (enough : parameters.length ≤ arguments.length) (depth : Nat) :
    ExceptT.run (callAt (depth + 1) id arguments) world =
      ExceptT.run (evaluateAt depth engine (.ofList (parameters.zip arguments)) body)
        (world.record (.closure id arguments)) := by
  rw [callAt, Interpreter.callClosure, run_bind, run_ask]
  simp only [found, if_neg (Nat.not_lt.mpr enough), run_bind, run_update]

/-- An arrow function with a body makes a new callable, whatever the scope is. -/
theorem evaluateAt_arrow (depth : Nat) (engine : EngineId) (scope : Scope)
    (parameters : List String) (body : Node) (world : World) :
    ExceptT.run (evaluateAt (depth + 1) engine scope (.arrow parameters (some body))) world =
      some (.ok (.callable (.made world.closures.size)),
        (world.addClosure (.arrow engine parameters body)).2) := rfl

/-- The callable that an arrow function has evaluated to has this arrow function behind it. -/
theorem closure?_of_evaluateAt_arrow {depth : Nat} {scope : Scope} {made : World}
    (creation : Yields (evaluateAt depth engine scope (.arrow parameters (some body))) world
      (.ok (.callable id)) made) :
    made.closure? id = some (.arrow engine parameters body) := by
  cases depth with
  | zero => cases creation
  | succ depth =>
    rw [Yields, evaluateAt_arrow] at creation
    cases creation
    rw [World.closure?_addClosure, if_pos rfl]

/-- Arguments that differ only beyond the parameters give calls that differ only in what the journal
notes of them. -/
theorem callAt_beyond (found : world.closure? id = some (.arrow engine parameters body))
    (enough : parameters.length ≤ arguments.length) {others : List Value}
    (otherEnough : parameters.length ≤ others.length)
    (same : others.take parameters.length = arguments.take parameters.length) (depth : Nat) :
    Matching World.Alike Eq (ExceptT.run (callAt (depth + 1) id arguments) world)
      (ExceptT.run (callAt (depth + 1) id others) world) := by
  rw [callAt_enough found enough, callAt_enough found otherEnough,
    ← Scope.ofList_zip_take parameters others, same, Scope.ofList_zip_take]
  exact evaluateAt_alike depth engine _ body _ _ ((World.Alike.refl world).record _ _)

end Call

/-- The call law. The callable `id` came from evaluating an arrow function with `engine`; since then
the host has come to the world `now`, in any way, and there the callable is called.

* Too few arguments: the call fails with the two counts, and the world stays as it is, so the body
  has not even been started.
* Enough arguments: the call is noted in the journal and is then the evaluation of the body with
  `engine` as it is `now`, in the scope that binds each parameter to the argument at its last
  position and nothing else. Arguments beyond the parameters make no difference but in the journal.
* The scope that the arrow function was evaluated in makes no difference at all. -/
theorem call_of_arrow {depth : Nat} {engine : EngineId} {scope : Scope} {parameters : List String}
    {body : Node} {id : CallableId} {before made now : World}
    (creation : Yields (evaluateAt depth engine scope (.arrow parameters (some body))) before
      (.ok (.callable id)) made)
    (history : Reaches made now) (arguments : List Value) :
    (arguments.length < parameters.length → ∀ depth,
      Yields (callAt (depth + 1) id arguments) now
        (.error (.arityMismatch parameters.length arguments.length)) now) ∧
    (parameters.length ≤ arguments.length →
      (∃ bound : Scope, bound.BindsLast parameters arguments ∧ ∀ depth,
        ExceptT.run (callAt (depth + 1) id arguments) now =
          ExceptT.run (evaluateAt depth engine bound body) (now.record (.closure id arguments))) ∧
      ∀ others : List Value, parameters.length ≤ others.length →
        others.take parameters.length = arguments.take parameters.length → ∀ depth,
        Matching World.Alike Eq (ExceptT.run (callAt (depth + 1) id arguments) now)
          (ExceptT.run (callAt (depth + 1) id others) now)) ∧
    ∀ elsewhere : Scope,
      Yields (evaluateAt depth engine elsewhere (.arrow parameters (some body))) before
        (.ok (.callable id)) made := by
  have found : now.closure? id = some (.arrow engine parameters body) :=
    history.later.closure? (closure?_of_evaluateAt_arrow creation)
  refine ⟨fun few => callAt_few found few, fun enough => ⟨?_, ?_⟩, fun elsewhere => ?_⟩
  · exact ⟨_, Scope.bindsLast_ofList enough, callAt_enough found enough⟩
  · exact fun others otherEnough same => callAt_beyond found enough otherEnough same
  · cases depth with
    | zero => exact creation
    | succ depth => exact creation

/-- A function that is registered only after the arrow function `(x, x) -> {f(x)}` was evaluated is
there when its callable is called, and the second argument counts. -/
theorem call_of_arrow_after_register :
    let engine : EngineId := ⟨0⟩
    let body : Node := .call "f" [.name "x"]
    let before : World := (Builder.empty.build .empty).2
    let made : World := (before.addClosure (.arrow engine ["x", "x"] body)).2
    let now : World := (engine.register (.plain "f" fun values => .succeed (.list values)) made).2
    Yields (callAt 1 (.made 0) [.int 1]) now (.error (.arityMismatch 2 1)) now ∧
    ∃ bound : Scope, bound.BindsLast ["x", "x"] [.int 1, .int 2, .int 3] ∧ ∀ depth,
      ExceptT.run (callAt (depth + 1) (.made 0) [.int 1, .int 2, .int 3]) now =
        ExceptT.run (evaluateAt depth engine bound body)
          (now.record (.closure (.made 0) [.int 1, .int 2, .int 3])) := by
  intro engine body before made now
  have creation : Yields (evaluateAt 1 engine .empty (.arrow ["x", "x"] (some body))) before
      (.ok (.callable (.made 0))) made := rfl
  have history : Reaches made now := .register engine _ .here
  constructor
  · exact (call_of_arrow creation history [.int 1]).1 (by decide) 0
  · exact ((call_of_arrow creation history [.int 1, .int 2, .int 3]).2.1 (by decide)).1

end ArrowExpr
