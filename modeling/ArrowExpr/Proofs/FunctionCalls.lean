import ArrowExpr.Proofs.Registration
import ArrowExpr.Proofs.Traces
/-!
# How a function call goes

A call of a registered function first looks the function up, then evaluates the arguments one after
the other, and then runs the function (`Traced.course_call`). The arguments may register functions,
also under the name that is called, so it matters what is done when. `call_in_order` tells all that
comes of a call, whatever the functions in play are and wherever it ends.
-/

namespace ArrowExpr

open EvalM

namespace Traced

section Call

variable {world : World} {engine : EngineId} {name : String} {function : HostFunction}

/-- A call of a name that stands for nothing fails at once. -/
theorem course_call_of_absent (absent : (world.registry engine).find? name = none) (depth : Nat)
    (scope : Scope) (arguments : List Node) :
    (traced (depth + 1) (.evaluate engine scope (.call name arguments))).course world =
      (some (.error (.undefinedFunction name), world), []) := by
  have ran : ExceptT.run (evaluateAt (depth + 1) engine scope (.call name arguments)) world =
      some (.error (.undefinedFunction name), world) := by
    rw [evaluateAt, Interpreter.evaluateNode, run_bind, run_ask]
    simp only [absent, run_throw]
  have quiet : evaluationEffects (depth + 1) engine scope (.call name arguments) world = [] := by
    rw [evaluationEffects, Interpreter.nodeEffects, Effects.bind_ask, absent]
    rfl
  exact Prod.ext ran quiet

/-- A call is the arguments one after the other and then the function that is found at the start. -/
theorem course_call (found : (world.registry engine).find? name = some function) (depth : Nat)
    (scope : Scope) (arguments : List Node) :
    (traced (depth + 1) (.evaluate engine scope (.call name arguments))).course world =
      ((mapM (fun argument => traced depth (.evaluate engine scope argument)) arguments).bind
        fun values => traced depth (.run function scope values)).course world := by
  have ran : ExceptT.run (evaluateAt (depth + 1) engine scope (.call name arguments)) world =
      ExceptT.run (arguments.mapM (evaluateAt depth engine scope) >>= fun values =>
        (Interpreter.ofDepth depth).run function scope values) world := by
    rw [evaluateAt, Interpreter.evaluateNode, run_bind, run_ask]
    simp only [found]
    rfl
  have alike : evaluationEffects (depth + 1) engine scope (.call name arguments) world =
      Effects.bind (arguments.mapM (evaluateAt depth engine scope))
        (Effects.each (evaluateAt depth engine scope) (evaluationEffects depth engine scope)
          arguments)
        (fun values =>
          (Interpreter.ofDepth depth).runEffects (.ofDepth depth) function scope values)
        world := by
    rw [evaluationEffects, Interpreter.nodeEffects, Effects.bind_ask, found]
    rfl
  exact Prod.ext ran alike

/-- A function that runs is noted, and then its host code is performed. -/
theorem course_run (depth : Nat) (function : HostFunction) (scope : Scope) (values : List Value)
    (world : World) :
    (traced depth (.run function scope values)).course world =
      (((traced depth (.perform (function.evaluate scope values))).course
          (world.record (.function function values))).1,
        .start (.function function values) ::
          ((traced depth (.perform (function.evaluate scope values))).course
            (world.record (.function function values))).2) := rfl

end Call

end Traced

/-- A name that stands for a function in an engine tells that there is the engine. -/
theorem World.present_of_find? {world : World} {engine : EngineId} {name : String}
    {function : HostFunction} (found : (world.registry engine).find? name = some function) :
    engine.index < world.registries.size := by
  by_contra absent
  rw [world.registry_of_absent absent, Registry.find?_empty] at found
  cases found

open Traced in
/-- How a call goes.

* If the name stands for nothing, the call fails, and no argument is evaluated.
* Else the arguments are evaluated one after the other, in the caller's scope. If one fails, so does
  the call, with the same error; the arguments after it are not evaluated, and the function is not
  run. Else the function is run on the values. It is the one that was found before the arguments were
  evaluated.
* An argument is evaluated in the world that those in front of it have left. There each name stands
  for what they have registered last under it, or else for what it stood for at the start.
* To run the function is to note its start and to perform its host code, once. -/
theorem call_in_order (depth : Nat) (engine : EngineId) (scope : Scope) (name : String)
    (arguments : List Node) (world : World) :
    ((world.registry engine).find? name = none →
      (traced (depth + 1) (.evaluate engine scope (.call name arguments))).course world =
        (some (.error (.undefinedFunction name), world), [])) ∧
    ∀ function, (world.registry engine).find? name = some function →
      (∀ course,
        (traced (depth + 1) (.evaluate engine scope (.call name arguments))).course world = course ↔
          InOrder (fun argument => traced depth (.evaluate engine scope argument))
            (fun values => traced depth (.run function scope values)) arguments world course) ∧
      (∀ before values effects middle,
        InTurn (fun argument => traced depth (.evaluate engine scope argument)) world before values
          effects middle →
        middle = world.after effects ∧ ∀ other, (middle.registry engine).find? other =
          (lastRegistered engine other effects).or ((world.registry engine).find? other)) ∧
      ∀ values middle, (traced depth (.run function scope values)).course middle =
        (((traced depth (.perform (function.evaluate scope values))).course
            (middle.record (.function function values))).1,
          .start (.function function values) ::
            ((traced depth (.perform (function.evaluate scope values))).course
              (middle.record (.function function values))).2) := by
  refine ⟨fun absent => course_call_of_absent absent depth scope arguments, fun function found => ?_⟩
  refine ⟨fun course => ?_, fun before values effects middle inTurn => ?_, fun values middle => ?_⟩
  · rw [course_call found]
    exact course_mapM_bind_iff
  · have reached := inTurn.world_eq fun argument => accounted_traced depth _
    refine ⟨reached, fun other => ?_⟩
    rw [reached]
    exact world.find?_after effects (World.present_of_find? found)
  · exact course_run depth function scope values middle

open Traced in
/-- In `f(install(), f())` the first argument puts another function in the place of `f`. The second
argument already calls that one. It is the old one that runs in the end, on the values of both
arguments in order, and the new one that is there afterwards. -/
theorem call_in_order_replaced :
    let f : HostFunction := .plain "f" fun values => .succeed (.list values)
    let other : HostFunction := .plain "f" fun _ => .succeed (.str "other")
    let install : HostFunction := .plain "install" fun _ =>
      .register ⟨0⟩ other.name other.compile other.evaluate fun replaces => .succeed (.bool replaces)
    let world : World := ((Builder.empty.functionsOf [f, install]).build .empty).2
    let call : Node := .call "f" [.call "install" [], .call "f" []]
    let installing : List Effect := [.start (.function install []), .register ⟨0⟩ other]
    ∃ left, (traced 2 (.evaluate ⟨0⟩ .empty call)).course world =
        (some (.ok (.list [.bool true, .str "other"]), left),
          installing ++ [.start (.function other []),
            .start (.function f [.bool true, .str "other"])]) ∧
      (left.registry ⟨0⟩).find? "f" = some other := by
  intro f other install world call installing
  have found : (world.registry ⟨0⟩).find? "f" = some f := by
    subst world install other f
    rfl
  have installed : (traced 1 (.evaluate ⟨0⟩ .empty (.call "install" []))).course world =
      (some (.ok (.bool true), world.after installing), installing) := by
    subst installing world install other f
    rfl
  have otherRan : (traced 1 (.evaluate ⟨0⟩ .empty (.call "f" []))).course
      (world.after installing) =
        (some (.ok (.str "other"), (world.after installing).record (.function other [])),
          [.start (.function other [])]) := by
    subst installing world install other f
    rfl
  have inTurn := InTurn.cons (f := fun argument => traced 1 (.evaluate ⟨0⟩ .empty argument))
    installed (.cons otherRan .nil)
  obtain ⟨_, law⟩ := call_in_order 1 ⟨0⟩ .empty "f" [.call "install" [], .call "f" []] world
  obtain ⟨goes, registered, runs⟩ := law f found
  have course := (goes _).mpr (.done inTurn (runs _ _))
  refine ⟨_, course, ?_⟩
  exact ((registered _ _ _ _ inTurn).2 "f").trans rfl

end ArrowExpr
