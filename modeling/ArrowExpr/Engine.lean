import ArrowExpr.Evaluation
import ArrowExpr.Host.Builtins
import ArrowExpr.Target.Writer
/-!
Engines: a function registry with the ways to evaluate and compile expressions. A clone of an engine
is the same handle again, so both see every registration.
-/

namespace ArrowExpr

/-- What an engine is built from. -/
structure Builder where
  /-- The functions added so far, in order. -/
  functions : List HostFunction
  /-- Whether `min`, `max` and `map` are registered. -/
  builtins : Bool

namespace Builder

/-- No functions of its own, and the builtins. -/
def empty : Builder := ⟨[], true⟩

/-- Adds a function, which goes before a builtin of the same name. -/
def function (builder : Builder) (f : HostFunction) : Builder :=
  { builder with functions := builder.functions ++ [f] }

/-- Adds several functions. -/
def functionsOf (builder : Builder) (fs : List HostFunction) : Builder :=
  { builder with functions := builder.functions ++ fs }

/-- Says whether the builtins are registered. -/
def withBuiltins (builder : Builder) (enabled : Bool) : Builder :=
  { builder with builtins := enabled }

/-- The registry of the engine: the builtins first, then the functions in order. -/
def registry (builder : Builder) : Registry :=
  (Registry.empty.insertAll (if builder.builtins then Builtins.all else [])).insertAll
    builder.functions

/-- A new engine. -/
def build (builder : Builder) (world : World) : EngineId × World :=
  world.addRegistry builder.registry

end Builder

namespace Builtins

/-! ## The registry of an engine with exactly the builtins -/

theorem find?_registry {builtin : HostFunction} (there : builtin ∈ all) :
    Builder.empty.registry.find? builtin.name = some builtin := by
  simp only [all, List.mem_cons, List.not_mem_nil, or_false] at there
  simp only [Builder.registry, Builder.empty, Registry.insertAll, all, if_pos, List.foldl_cons,
    List.foldl_nil, Registry.find?_insert]
  rcases there with rfl | rfl | rfl
  · rfl
  · rfl
  · rfl

theorem mem_of_find?_registry {name : String} {function : HostFunction}
    (found : Builder.empty.registry.find? name = some function) :
    function ∈ all ∧ function.name = name := by
  rcases Registry.find?_insertAll found with ⟨nowhere, _⟩ | builtin
  · cases nowhere
  · rcases Registry.find?_insertAll builtin with there | nowhere
    · exact there
    · rw [Registry.find?_empty] at nowhere
      cases nowhere

end Builtins

namespace EngineId

/-- Registers a function; yields the one that it replaces. -/
def register (engine : EngineId) (function : HostFunction) (world : World) :
    Option HostFunction × World :=
  ((world.registry engine).find? function.name,
    world.updateRegistry engine (·.insert function))

/-- Registers functions one after the other. -/
def extend (engine : EngineId) (functions : List HostFunction) (world : World) : World :=
  world.updateRegistry engine (·.insertAll functions)

/-- The target code of an expression. -/
def compile (engine : EngineId) (node : Node) (world : World) : String :=
  (Writer.node (world.registry engine) node .empty).source

/-- Evaluates an expression, with at most `depth` evaluations and calls inside each other. -/
def evaluate (engine : EngineId) (depth : Nat) (scope : Scope) (node : Node) : EvalM Value :=
  evaluateAt depth engine scope node

end EngineId

end ArrowExpr
