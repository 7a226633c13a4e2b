import ArrowExpr.Proofs.Chronicle
import ArrowExpr.Proofs.CodeTokens
import ArrowExpr.Proofs.Writing
/-!
# Plain functions leave the target code as it is

All that target code takes from a registry is how calls are written (`Node.code_congr`). A plain
function is written as a call of its name, and so is a name that stands for nothing. So the code of an
expression is the same before and after plain functions are registered under new names
(`compile_of_new_plain`), also where the text of such a call goes into the compiler of another
function.
-/

namespace ArrowExpr

/-! ## What the code of an expression depends on -/

section Congruence

variable {registry other : Registry}

mutual

/-- Registries that write all calls alike give the same code. -/
theorem Node.code_congr
    (same : ∀ name arguments, registry.callCode name arguments = other.callCode name arguments) :
    ∀ node : Node, node.code registry = node.code other
  | .constant _ | .name _ | .arrow _ none => rfl
  | .unary op operand => by rw [code, code, code_congr same operand]
  | .binary op left right => by rw [code, code, code_congr same left, code_congr same right]
  | .call function arguments => by rw [code, code, codeAll_congr same arguments, same]
  | .list items => by rw [code, code, codeAll_congr same items]
  | .arrow parameters (some body) => by rw [code, code, code_congr same body]

theorem Node.codeAll_congr
    (same : ∀ name arguments, registry.callCode name arguments = other.callCode name arguments) :
    ∀ nodes : List Node, Node.codeAll registry nodes = Node.codeAll other nodes
  | [] => rfl
  | first :: rest => by rw [codeAll, codeAll, code_congr same first, codeAll_congr same rest]

end

end Congruence

/-! ## Registration of functions -/

namespace Registry

variable {registry : Registry} {functions : List HostFunction}

/-- Functions under other names do not change what a name stands for. -/
theorem find?_insertAll_of_ne {name : String}
    (others : ∀ function ∈ functions, function.name ≠ name) :
    (registry.insertAll functions).find? name = registry.find? name := by
  rw [find?_insertAll_eq, HostFunction.lastNamed_eq_none others, Option.none_or]

/-- The functions are plain, and their names are not registered. They may have a name in common. -/
def NewPlain (registry : Registry) (functions : List HostFunction) : Prop :=
  ∀ function ∈ functions, (∃ name evaluate, function = .plain name evaluate) ∧
    ¬registry.contains function.name

/-- A name that stands for nothing is written by its name afterwards, too. -/
theorem NewPlain.plainAt (new : registry.NewPlain functions) {name : String}
    (absent : registry.find? name = none) : (registry.insertAll functions).PlainAt name := by
  intro function found
  rcases find?_insertAll found with ⟨there, rfl⟩ | before
  · obtain ⟨⟨_, evaluate, rfl⟩, _⟩ := new function there
    exact ⟨evaluate, rfl⟩
  · rw [absent] at before
    cases before

/-- Calls are written as before. -/
theorem NewPlain.callCode_eq (new : registry.NewPlain functions) (name : String)
    (arguments : List String) :
    (registry.insertAll functions).callCode name arguments = registry.callCode name arguments := by
  cases found : registry.find? name with
  | none =>
    have plainBefore : registry.PlainAt name := fun function there => by
      rw [found] at there
      cases there
    rw [(new.plainAt found).callCode_eq, plainBefore.callCode_eq]
  | some function =>
    have others : ∀ added ∈ functions, added.name ≠ name := by
      rintro added there rfl
      refine (new added there).2 ?_
      rw [contains_eq_isSome, found, Option.isSome_some]
    rw [callCode, callCode, find?_insertAll_of_ne others]

theorem NewPlain.code_eq (new : registry.NewPlain functions) (node : Node) :
    node.code (registry.insertAll functions) = node.code registry :=
  node.code_congr new.callCode_eq

end Registry

namespace EngineId

variable (engine : EngineId) (functions : List HostFunction) (world : World)

/-- An engine has the functions that it was extended by, if there is the engine. -/
theorem registry_extend : (engine.extend functions world).registry engine =
    if engine.index < world.registries.size then (world.registry engine).insertAll functions
    else world.registry engine := by
  split
  · next present => rw [extend, world.registry_updateRegistry _ _ _ present, if_pos rfl]
  · next absent =>
    have absentToo : ¬engine.index < (engine.extend functions world).registries.size := by
      rwa [extend, World.updateRegistry, Array.size_modify]
    rw [World.registry_of_absent _ absentToo, world.registry_of_absent absent]

/-- To register functions one after the other is to extend the engine by them. -/
theorem foldl_register :
    functions.foldl (fun left function => (engine.register function left).2) world =
      engine.extend functions world := by
  rw [extend, ← world.after_map_register, World.after, List.foldl_map]
  rfl

end EngineId

/-- Plain functions that are registered under new names change no target code.

* Whatever the registry is, and whatever has been written so far, each node is written alike, and so
  are the texts of arguments, which go into the compilers of functions.
* An engine compiles each node to the same text before and after the functions are registered, all at
  once or one after the other. -/
theorem compile_of_new_plain (functions : List HostFunction) :
    (∀ registry : Registry, registry.NewPlain functions →
      (∀ node writer,
        Writer.node (registry.insertAll functions) node writer = Writer.node registry node writer) ∧
      ∀ arguments writer, Writer.asideAll (registry.insertAll functions) arguments writer =
        Writer.asideAll registry arguments writer) ∧
    ∀ (engine : EngineId) (world : World), (world.registry engine).NewPlain functions → ∀ node,
      engine.compile node (engine.extend functions world) = engine.compile node world ∧
      engine.compile node
          (functions.foldl (fun left function => (engine.register function left).2) world) =
        engine.compile node world := by
  refine ⟨fun registry new => ⟨fun node writer => ?_, fun arguments writer => ?_⟩,
    fun engine world new node => ?_⟩
  · rw [Writer.node_eq_raw, Writer.node_eq_raw, new.code_eq]
  · rw [Writer.asideAll_eq, Writer.asideAll_eq, Node.codeAll_congr new.callCode_eq]
  · rw [engine.foldl_register, and_self, engine.compile_eq_code, engine.compile_eq_code,
      engine.registry_extend]
    split
    · exact new.code_eq node
    · rfl

/-- In `upper([other((x) -> {other(x)})])` the calls of `other` are written alike before and after it is
registered, also in the argument of `upper`, which has a compiler of its own. -/
theorem compile_of_new_plain_upper :
    let upper : HostFunction :=
      ⟨"upper", fun texts => "strtoupper(" ++ commaSeparated texts ++ ")",
        fun _ values => .succeed (.list values)⟩
    let other : HostFunction := .plain "other" fun values => .succeed (.list values)
    let world : World := ((Builder.empty.functionsOf [upper]).build .empty).2
    let node : Node := .call "upper" [.list [.call "other" [
      .arrow ["x"] (some (.call "other" [.name "x"]))]]]
    EngineId.compile ⟨0⟩ node (EngineId.extend ⟨0⟩ [other] world) =
        EngineId.compile ⟨0⟩ node world ∧
      EngineId.compile ⟨0⟩ node world =
        "strtoupper([other(function ($x) \x7b return other($x); \x7d)])" := by
  intro upper other world node
  have new : (world.registry ⟨0⟩).NewPlain [other] := by
    intro function there
    cases List.mem_singleton.mp there
    exact ⟨⟨_, _, rfl⟩, by decide⟩
  exact ⟨((compile_of_new_plain [other]).2 ⟨0⟩ world new node).1, by decide⟩

end ArrowExpr
