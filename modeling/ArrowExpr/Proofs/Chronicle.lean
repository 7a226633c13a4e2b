import ArrowExpr.Proofs.Conduct
/-!
# Histories with a record of what was done

A host does one operation after the other (`Operation`), and each has its effects
(`Operation.Takes`). A `Chronicle` is a history that lists the effects of all of them in order,
down to what host code does in the middle of an evaluation, so a statement about the list is one
about everything that has ever been done. It may stop inside an operation, at any place of its
effects.

1. `Chronicle.world`: what there is now comes from these effects, applied to what there was.
2. `Reaches.chronicle`: every history has a chronicle, and so has every session.
3. `Chronicle.obeys`: if host code keeps to rules all along, all that is recorded keeps to them.
-/

namespace ArrowExpr

open EvalM

/-- One thing that a host does. To clone an engine or to copy a callable is none, since the handle
and the callable stay what they are. -/
inductive Operation where
  | build (builder : Builder)
  | register (engine : EngineId) (function : HostFunction)
  | extend (engine : EngineId) (functions : List HostFunction)
  /-- Makes a callable of a callback. -/
  | wrap (callback : List Value → Action)
  | cell (value : Value)
  | store (cell : CellId) (value : Value)
  /-- An evaluation, a call or host code, with at most `depth` of them inside each other. -/
  | start (depth : Nat) (activity : Activity)

/-- The functions that an engine is built with, in order. -/
def Builder.all (builder : Builder) : List HostFunction :=
  (if builder.builtins then Builtins.all else []) ++ builder.functions

/-- The operation has these effects and leaves this world.

* An engine is built without functions first, and then gets one after the other.
* `ended`: an activity has come to its end, or to where its depth does not suffice.
* `underway`: an activity has come as far as some of its effects. -/
inductive Operation.Takes : Operation → World → List Effect → World → Prop
  | build {builder : Builder} {world : World} :
      Takes (.build builder) world
        (.build :: builder.all.map (.register (builder.build world).1)) (builder.build world).2
  | register {engine : EngineId} {function : HostFunction} {world : World} :
      Takes (.register engine function) world [.register engine function]
        (engine.register function world).2
  | extend {engine : EngineId} {functions : List HostFunction} {world : World} :
      Takes (.extend engine functions) world (functions.map (.register engine))
        (engine.extend functions world)
  | wrap {callback : List Value → Action} {world : World} :
      Takes (.wrap callback) world [.construct (.host callback)]
        (world.addClosure (.host callback)).2
  | cell {value : Value} {world : World} :
      Takes (.cell value) world [.newCell value] (world.addCell value).2
  | store {cell : CellId} {value : Value} {world : World} :
      Takes (.store cell value) world [.store cell value] (world.store cell value)
  | ended {depth : Nat} {activity : Activity} {world left : World} {outcome : Outcome} :
      Moment.EndsWith ⟨depth, activity, world⟩ outcome left →
      Takes (.start depth activity) world (activity.effects depth world) left
  | underway {depth : Nat} {activity : Activity} {world : World} {effects : List Effect} :
      effects <+: activity.effects depth world →
      Takes (.start depth activity) world effects (world.after effects)

/-- A history of a host from the world `start` on, of operations that are admitted where they are
done, with the effects of all of them. -/
inductive Chronicle (admits : World → Operation → Prop) (start : World) :
    List Effect → World → Prop
  | nil : Chronicle admits start [] start
  | step {effects more : List Effect} {world left : World} {operation : Operation} :
      Chronicle admits start effects world → admits world operation →
      operation.Takes world more left → Chronicle admits start (effects ++ more) left

/-! ## The record accounts for what there is -/

theorem Registry.insertAll_append (registry : Registry) (functions others : List HostFunction) :
    registry.insertAll (functions ++ others) = (registry.insertAll functions).insertAll others :=
  List.foldl_append

theorem Builder.registry_eq (builder : Builder) :
    builder.registry = Registry.empty.insertAll builder.all :=
  (Registry.insertAll_append _ _ _).symm

namespace World

variable (world : World)

/-- Functions that are registered one after the other. -/
theorem after_map_register (engine : EngineId) (functions : List HostFunction) :
    world.after (functions.map (.register engine)) =
      world.updateRegistry engine (·.insertAll functions) := by
  induction functions generalizing world with
  | nil => exact (world.updateRegistry_id engine).symm
  | cons function rest ih =>
    rw [List.map_cons, after_cons, ih, Effect.apply, updateRegistry_updateRegistry]
    rfl

/-- A new engine may get its functions later. The handle does not depend on them. -/
theorem updateRegistry_addRegistry (registry other : Registry) (change : Registry → Registry) :
    (world.addRegistry registry).2.updateRegistry (world.addRegistry other).1 change =
      (world.addRegistry (change registry)).2 := by
  simp only [addRegistry, updateRegistry, World.mk.injEq, and_true]
  apply Array.ext_getElem?
  intro index
  simp only [Array.getElem?_modify, Array.getElem?_push]
  by_cases last : world.registries.size = index
  · simp only [last, if_true, Option.map_some]
  · simp only [last, Ne.symm last, if_false]

end World

theorem Operation.Takes.world {operation : Operation} {world left : World} {effects : List Effect}
    (takes : operation.Takes world effects left) : left = world.after effects := by
  cases takes with
  | @build builder =>
    rw [World.after_cons, World.after_map_register, Effect.apply, Builder.build,
      Builder.registry_eq]
    exact (world.updateRegistry_addRegistry .empty _ (·.insertAll builder.all)).symm
  | extend => exact (world.after_map_register _ _).symm
  | ended ends => exact ends.world
  | _ => rfl

namespace Chronicle

variable {admits : World → Operation → Prop} {start now : World} {effects : List Effect}

/-- What there is now comes from what there was by the effects that are recorded. -/
theorem world (chronicle : Chronicle admits start effects now) : now = start.after effects := by
  induction chronicle with
  | nil => rfl
  | step _ _ takes ih => rw [World.after_append, ← ih, takes.world]

/-- Whatever starts in the course of an activity has a place in the chronicle. -/
theorem starts {moment inner : Moment} (chronicle : Chronicle admits start effects moment.world)
    (admitted : admits moment.world (.start moment.depth moment.activity))
    (starts : Starts moment inner) :
    ∃ before, Chronicle admits start (effects ++ before) inner.world ∧
      before ++ inner.effects <+: moment.effects := by
  obtain ⟨before, there, within⟩ := starts.effects
  refine ⟨before, ?_, within⟩
  rw [there]
  exact chronicle.step admitted (.underway ((List.prefix_append _ _).trans within))

end Chronicle

/-- Every history has a chronicle. -/
theorem Reaches.chronicle {start now : World} (reaches : Reaches start now) :
    ∃ effects, Chronicle (fun _ _ => True) start effects now := by
  induction reaches with
  | here => exact ⟨[], .nil⟩
  | build builder _ ih => exact ih.imp' _ fun _ chronicle => chronicle.step trivial .build
  | register engine function _ ih =>
    exact ih.imp' _ fun _ chronicle => chronicle.step trivial .register
  | extend engine functions _ ih =>
    exact ih.imp' _ fun _ chronicle => chronicle.step trivial .extend
  | wrap callback _ ih => exact ih.imp' _ fun _ chronicle => chronicle.step trivial .wrap
  | cell value _ ih => exact ih.imp' _ fun _ chronicle => chronicle.step trivial .cell
  | store cell value _ ih => exact ih.imp' _ fun _ chronicle => chronicle.step trivial .store
  | ended _ ends ih => exact ih.imp' _ fun _ chronicle => chronicle.step trivial (.ended ends)
  | within _ starts ih =>
    obtain ⟨effects, chronicle⟩ := ih
    obtain ⟨before, there, _⟩ := chronicle.starts trivial starts
    exact ⟨_, there⟩

/-! ## Places of a record

What is made is told by how many of its kind were made before: this number belongs to exactly one
place.
-/

section Places

variable {p : Effect → Bool} {effects : List Effect}

/-- What was done before a place, at it and after it. -/
theorem take_append_drop_of_place {position : Nat} {effect : Effect}
    (there : effects[position]? = some effect) :
    effects.take position ++ effect :: effects.drop (position + 1) = effects := by
  rw [← List.singleton_append, ← List.append_assoc, ← Option.toList_some, ← there,
    ← List.take_add_one, List.take_append_drop]

/-- The effects up to a place of the kind are one more than those before it. -/
theorem countP_take_succ {position : Nat} {effect : Effect}
    (there : effects[position]? = some effect) (kind : p effect) :
    (effects.take (position + 1)).countP p = (effects.take position).countP p + 1 := by
  rw [List.take_add_one, there, List.countP_append, Option.toList_some, List.countP_singleton,
    if_pos kind]

theorem countP_take_lt {first second : Nat} {effect : Effect}
    (there : effects[first]? = some effect) (kind : p effect) (less : first < second) :
    (effects.take first).countP p < (effects.take second).countP p := by
  have within : effects.take (first + 1) <+: effects.take second := List.take_prefix_take_left less
  calc (effects.take first).countP p
      < (effects.take (first + 1)).countP p := by
        rw [countP_take_succ there kind]
        exact Nat.lt_succ_self _
    _ ≤ (effects.take second).countP p := within.sublist.countP_le

/-- Two places of the kind have different numbers. -/
theorem place_unique {first second : Nat} {effect other : Effect}
    (there : effects[first]? = some effect) (kind : p effect)
    (otherThere : effects[second]? = some other) (otherKind : p other)
    (same : (effects.take first).countP p = (effects.take second).countP p) : first = second := by
  rcases Nat.lt_trichotomy first second with less | equal | more
  · exact absurd same (Nat.ne_of_lt (countP_take_lt there kind less))
  · exact equal
  · exact absurd same.symm (Nat.ne_of_lt (countP_take_lt otherThere otherKind more))

/-- Every number up to how many there are has its place. -/
theorem exists_place {number : Nat} (below : number < effects.countP p) :
    ∃ position effect, effects[position]? = some effect ∧ p effect ∧
      (effects.take position).countP p = number := by
  induction effects generalizing number with
  | nil => cases below
  | cons first rest ih =>
    rw [List.countP_cons] at below
    by_cases kind : p first
    · cases number with
      | zero => exact ⟨0, first, rfl, kind, rfl⟩
      | succ number =>
        rw [if_pos kind] at below
        obtain ⟨position, effect, there, isKind, before⟩ := ih (Nat.lt_of_succ_lt_succ below)
        refine ⟨position + 1, effect, there, isKind, ?_⟩
        rw [List.take_succ_cons, List.countP_cons, before, if_pos kind]
    · rw [if_neg kind] at below
      obtain ⟨position, effect, there, isKind, before⟩ := ih below
      refine ⟨position + 1, effect, there, isKind, ?_⟩
      rw [List.take_succ_cons, List.countP_cons, before, if_neg kind, Nat.add_zero]

end Places

/-! ## Hosts that keep to rules -/

/-- The operation keeps to the rules, if it is done in this world. -/
def Operation.Obeys (rules : Rules) (world : World) : Operation → Prop
  | build builder =>
    (builder.build world).1 ∈ rules.registers ∧
      ∀ function ∈ builder.all, function.Obeys rules world.closures.size
  | register engine function =>
    engine ∈ rules.registers ∧ function.Obeys rules world.closures.size
  | extend engine functions =>
    engine ∈ rules.registers ∧ ∀ function ∈ functions, function.Obeys rules world.closures.size
  | wrap callback => (Closure.host callback).Obeys rules world.closures.size
  | cell value => rules.Permits world.closures.size value
  | store _ value => rules.Permits world.closures.size value
  | start _ activity => activity.Obeys rules world.closures.size

variable {rules : Rules}

/-- A new engine obeys if its functions do, whatever engines there are to register in. -/
theorem World.Obeys.build {world : World} (obeys : world.Obeys rules) {builder : Builder}
    (functions : ∀ function ∈ builder.all, function.Obeys rules world.closures.size) :
    (builder.build world).2.Obeys rules where
  first := obeys.first
  functions engine there name function found := by
    rw [Builder.build, World.registry_addRegistry, Builder.registry_eq] at found
    split at found
    · rcases Registry.find?_insertAll found with ⟨inside, _⟩ | nowhere
      · exact functions function inside
      · rw [Registry.find?_empty] at nowhere
        cases nowhere
    · exact obeys.functions engine there name function found
  closures := obeys.closures
  cells := obeys.cells

theorem Rules.kept_register {engine : EngineId} {functions : List HostFunction} {world : World}
    (there : engine ∈ rules.registers)
    (obeys : ∀ function ∈ functions, function.Obeys rules world.closures.size) :
    rules.Kept world (functions.map (.register engine)) := by
  induction functions generalizing world with
  | nil => exact trivial
  | cons function rest ih =>
    rw [List.forall_mem_cons] at obeys
    exact ⟨⟨there, fun _ => obeys.1⟩, ih obeys.2⟩

theorem Operation.Takes.kept {operation : Operation} {world left : World} {effects : List Effect}
    (takes : operation.Takes world effects left) (obeys : world.Obeys rules)
    (operationObeys : operation.Obeys rules world) : rules.Kept world effects := by
  cases takes with
  | build => exact ⟨trivial, Rules.kept_register operationObeys.1 operationObeys.2⟩
  | register => exact ⟨⟨operationObeys.1, fun _ => operationObeys.2⟩, trivial⟩
  | extend => exact Rules.kept_register operationObeys.1 operationObeys.2
  | wrap => exact ⟨fun _ => operationObeys, trivial⟩
  | cell => exact ⟨operationObeys, trivial⟩
  | store => exact ⟨operationObeys, trivial⟩
  | ended ends => exact (Activity.conforms _ obeys operationObeys).kept
  | @underway depth activity _ _ within =>
    obtain ⟨rest, all⟩ := within
    have kept := (Activity.conforms depth obeys operationObeys).kept
    rw [← all, Rules.kept_append] at kept
    exact kept.1

/-- If all host code keeps to the rules, then so does all that is recorded. -/
theorem Chronicle.kept {start now : World} {effects : List Effect}
    (chronicle : Chronicle (Operation.Obeys rules) start effects now) (obeys : start.Obeys rules) :
    rules.Kept start effects := by
  induction chronicle with
  | nil => exact trivial
  | @step effects more world left operation past operationObeys takes ih =>
    have here := obeys.after ih
    rw [← past.world] at here
    rw [Rules.kept_append, ← past.world]
    exact ⟨ih, takes.kept here operationObeys⟩

theorem Chronicle.obeys {start now : World} {effects : List Effect}
    (chronicle : Chronicle (Operation.Obeys rules) start effects now) (obeys : start.Obeys rules) :
    now.Obeys rules := by
  rw [chronicle.world]
  exact obeys.after (chronicle.kept obeys)

end ArrowExpr
