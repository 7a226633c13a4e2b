import ArrowExpr.Proofs.Registration
import ArrowExpr.Proofs.Writing
/-!
# What the calls on a builder come to

Functions may be added to a builder one by one or several at once, and the builtins may be switched
off and on in between. Whatever the order of these calls, the builder holds all functions in the
order in which they were added, and the last switch (`Builder.ofCalls_eq`). So each name stands for
the last function that was added under it, and otherwise for the builtin (`Builder.find?_registry`).

`builder_precedence` puts this together: nothing but what names stand for is left of the calls.
-/

namespace ArrowExpr

/-- A call on a builder. -/
inductive BuilderCall where
  | function (f : HostFunction)
  | functionsOf (fs : List HostFunction)
  | withBuiltins (enabled : Bool)

namespace BuilderCall

/-- The builder that the call leads to. -/
def apply (builder : Builder) : BuilderCall → Builder
  | function f => builder.function f
  | functionsOf fs => builder.functionsOf fs
  | withBuiltins enabled => builder.withBuiltins enabled

/-- The functions that the call adds, in order. -/
def added : BuilderCall → List HostFunction
  | function f => [f]
  | functionsOf fs => fs
  | withBuiltins _ => []

/-- What the call says about the builtins, if it does. -/
def switch? : BuilderCall → Option Bool
  | withBuiltins enabled => some enabled
  | _ => none

end BuilderCall

open BuilderCall (added switch?)

/-- The builder after these calls. -/
def Builder.ofCalls (calls : List BuilderCall) : Builder := calls.foldl BuilderCall.apply .empty

/-- The last call about the builtins counts. Without one they are registered. -/
def builtinsEnabled (calls : List BuilderCall) : Bool :=
  (calls.filterMap switch?).getLast?.getD true

/-- What a name stands for after these calls: the last function that was added under it, or else the
builtin, if builtins are registered. -/
def resolution (calls : List BuilderCall) (name : String) : Option HostFunction :=
  (HostFunction.lastNamed name (calls.flatMap added)).or
    (if builtinsEnabled calls then Builtins.all.find? (·.name = name) else none)

/-- Functions of different names may be searched from either end. -/
theorem HostFunction.lastNamed_eq_find? {functions : List HostFunction}
    (distinct : (functions.map HostFunction.name).Nodup) (name : String) :
    lastNamed name functions = functions.find? (·.name = name) := by
  induction functions with
  | nil => rfl
  | cons first rest ih =>
    obtain ⟨new, restDistinct⟩ := List.nodup_cons.mp distinct
    rw [lastNamed_cons, List.find?_cons]
    by_cases named : first.name = name
    · have others : ∀ function ∈ rest, function.name ≠ name := fun function there same =>
        new (List.mem_map.mpr ⟨function, there, same.trans named.symm⟩)
      rw [lastNamed_eq_none others, if_pos named, decide_eq_true named, Option.none_or]
    · rw [ih restDistinct, if_neg named, decide_eq_false named, Option.or_none]

theorem lastNamed_builtins (name : String) :
    HostFunction.lastNamed name Builtins.all = Builtins.all.find? (·.name = name) :=
  HostFunction.lastNamed_eq_find? (by decide) name

namespace Builder

variable {calls other : List BuilderCall}

/-- The functions are held in the order in which they were added, and the last switch. -/
theorem foldl_apply_eq (builder : Builder) (calls : List BuilderCall) :
    calls.foldl BuilderCall.apply builder =
      ⟨builder.functions ++ calls.flatMap added,
        (calls.filterMap switch?).getLast?.getD builder.builtins⟩ := by
  induction calls generalizing builder with
  | nil => simp
  | cons call rest ih =>
    rw [List.foldl_cons, ih]
    cases call <;> simp [BuilderCall.apply, added, switch?, function, functionsOf, withBuiltins,
      List.getLast?_cons]

theorem ofCalls_eq (calls : List BuilderCall) :
    ofCalls calls = ⟨calls.flatMap added, builtinsEnabled calls⟩ :=
  foldl_apply_eq empty calls

theorem find?_registry (calls : List BuilderCall) (name : String) :
    (ofCalls calls).registry.find? name = resolution calls name := by
  rw [ofCalls_eq, registry, Registry.find?_insertAll_eq, Registry.find?_insertAll_eq, resolution,
    Registry.find?_empty, Option.or_none]
  split
  · rw [lastNamed_builtins]
  · rfl

/-- Calls about the builtins add no function. -/
theorem flatMap_added_filter (calls : List BuilderCall) :
    (calls.filter (·.switch?.isNone)).flatMap added = calls.flatMap added := by
  induction calls with
  | nil => rfl
  | cons call rest ih =>
    cases call with
    | withBuiltins enabled => exact ih
    | function f => exact congrArg ([f] ++ ·) ih
    | functionsOf fs => exact congrArg (fs ++ ·) ih

/-- It does not matter where among the other calls the builtins are switched. -/
theorem ofCalls_congr
    (same : calls.filter (·.switch?.isNone) = other.filter (·.switch?.isNone))
    (enabled : builtinsEnabled calls = builtinsEnabled other) : ofCalls calls = ofCalls other := by
  rw [ofCalls_eq, ofCalls_eq, enabled, ← flatMap_added_filter calls, same, flatMap_added_filter]

theorem registry_congr (same : ∀ name, resolution calls name = resolution other name) :
    (ofCalls calls).registry = (ofCalls other).registry := by
  refine Registry.ext_find? fun name => ?_
  rw [find?_registry, find?_registry, same]

/-- The engine that is built has the functions of the builder. -/
theorem registry_build (builder : Builder) (world : World) :
    (builder.build world).2.registry (builder.build world).1 = builder.registry := by
  rw [build, World.registry_addRegistry]
  exact if_pos rfl

end Builder

/-- Any calls on a builder, in any order, and then the engine that is built.

* A name stands for the last function that was added under it, else for the builtin if builtins are
  registered, else for nothing. The names in order are those that stand for something.
* The calls about the builtins may be anywhere among the others, as long as the last one stays.
* If names stand for the same after other calls, each expression is compiled to the same code,
  whatever there is besides the engine, and is evaluated alike: with the same outcome, or out of the
  same depth, and in the same world afterwards. -/
theorem builder_precedence (calls : List BuilderCall) :
    (∀ world, let built := (Builder.ofCalls calls).build world
      (∀ name, (built.2.registry built.1).find? name = resolution calls name) ∧
      (built.2.registry built.1).names.Pairwise (· < ·) ∧
      ∀ name, name ∈ (built.2.registry built.1).names ↔ (resolution calls name).isSome) ∧
    (∀ other : List BuilderCall,
      calls.filter (·.switch?.isNone) = other.filter (·.switch?.isNone) →
      builtinsEnabled calls = builtinsEnabled other →
      Builder.ofCalls calls = Builder.ofCalls other) ∧
    ∀ other : List BuilderCall, (∀ name, resolution calls name = resolution other name) →
      (∀ world otherWorld node, let built := (Builder.ofCalls calls).build world
        let rebuilt := (Builder.ofCalls other).build otherWorld
        built.1.compile node built.2 = rebuilt.1.compile node rebuilt.2) ∧
      ∀ world depth scope node, let built := (Builder.ofCalls calls).build world
        let rebuilt := (Builder.ofCalls other).build world
        ExceptT.run (built.1.evaluate depth scope node) built.2 =
          ExceptT.run (rebuilt.1.evaluate depth scope node) rebuilt.2 := by
  refine ⟨fun world => ?_, fun other => Builder.ofCalls_congr, fun other same => ⟨?_, ?_⟩⟩
  · intro built
    have found : ∀ name, (built.2.registry built.1).find? name = resolution calls name := by
      intro name
      rw [Builder.registry_build, Builder.find?_registry]
    refine ⟨found, Registry.names_increasing _, fun name => ?_⟩
    rw [Registry.mem_names, Registry.contains_eq_isSome, found]
  · intro world otherWorld node built rebuilt
    rw [EngineId.compile_eq_code, EngineId.compile_eq_code, Builder.registry_build,
      Builder.registry_build, Builder.registry_congr same]
  · intro world depth scope node built rebuilt
    have alike : built = rebuilt := congrArg world.addRegistry (Builder.registry_congr same)
    rw [alike]

/-- A second `max` takes the place of the first one and of the builtin, though the builtins are switched
on between them. So `max(1)` has the same value as if there were only the second `max`. -/
theorem builder_precedence_override :
    let first : HostFunction := .plain "max" fun _ => .fail .divisionByZero
    let second : HostFunction := .plain "max" fun _ => .succeed (.str "mine")
    let calls : List BuilderCall :=
      [.withBuiltins false, .function first, .withBuiltins true, .functionsOf [second]]
    let moved : List BuilderCall := [.function first, .functionsOf [second], .withBuiltins true]
    let other : List BuilderCall := [.function second]
    let node : Node := .call "max" [.constant (.int 1)]
    let world : World := ((Builder.ofCalls calls).build .empty).2
    Builder.ofCalls calls = Builder.ofCalls moved ∧
      (∀ name, resolution calls name = resolution other name) ∧
      EngineId.compile ⟨0⟩ node world =
        EngineId.compile ⟨0⟩ node ((Builder.ofCalls other).build .empty).2 ∧
      ∃ left, Yields (EngineId.evaluate ⟨0⟩ 2 .empty node) ((Builder.ofCalls other).build .empty).2
          (.ok (.str "mine")) left ∧
        Yields (EngineId.evaluate ⟨0⟩ 2 .empty node) world (.ok (.str "mine")) left := by
  intro first second calls moved other node world
  obtain ⟨-, anywhere, same⟩ := builder_precedence calls
  have stand : ∀ name, resolution calls name = resolution other name := by
    intro name
    have last : HostFunction.lastNamed name [first, second] = HostFunction.lastNamed name [second] := by
      rw [HostFunction.lastNamed_cons, HostFunction.lastNamed_cons]
      by_cases named : "max" = name
      · rw [if_pos (show second.name = name from named)]
        rfl
      · rw [if_neg (show ¬first.name = name from named), Option.or_none]
    exact congrArg (Option.or · _) last
  obtain ⟨compiled, evaluated⟩ := same other stand
  obtain ⟨left, ran⟩ : ∃ left, Yields (EngineId.evaluate ⟨0⟩ 2 .empty node)
      ((Builder.ofCalls other).build .empty).2 (.ok (.str "mine")) left := by
    subst node other second
    exact ⟨_, rfl⟩
  exact ⟨anywhere moved rfl rfl, stand, compiled .empty .empty node, left, ran,
    (evaluated .empty 2 .empty node).trans ran⟩

end ArrowExpr
