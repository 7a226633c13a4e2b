import ArrowExpr.Proofs.Chronicle
import ArrowExpr.Session.Run
/-!
# An engine has what was registered in it last

Whatever a host does, and whatever host code registers in the course of evaluations and calls, the
functions of an engine can be read off the record: under each name it has the one that was
registered last since the engine was built (`World.find?_after`). The laws of registries follow from
this one (`registries_of_chronicle`).
-/

namespace ArrowExpr

/-- The function that is registered here in the engine under the name. -/
def Effect.registered? (engine : EngineId) (name : String) : Effect → Option HostFunction
  | register other function =>
    if other = engine ∧ function.name = name then some function else none
  | _ => none

/-- The function that was registered last in the engine under the name. -/
def lastRegistered (engine : EngineId) (name : String) (effects : List Effect) :
    Option HostFunction :=
  effects.reverse.findSome? (·.registered? engine name)

/-- The engine is the one that is built at this place of the record. -/
def BuiltAt (effects : List Effect) (position : Nat) (engine : EngineId) : Prop :=
  effects[position]? = some .build ∧
    engine = ((World.empty.after (effects.take position)).addRegistry .empty).1

/-! ## The record tells what a name stands for -/

section LastRegistered

variable {engine : EngineId} {name : String}

theorem lastRegistered_cons (effect : Effect) (effects : List Effect) :
    lastRegistered engine name (effect :: effects) =
      (lastRegistered engine name effects).or (effect.registered? engine name) := by
  rw [lastRegistered, List.reverse_cons, List.findSome?_append, List.findSome?_singleton]
  rfl

theorem Effect.name_of_registered? {effect : Effect} {function : HostFunction}
    (registered : effect.registered? engine name = some function) : function.name = name := by
  cases effect with
  | register other new =>
    rw [registered?, Option.ite_none_right_eq_some] at registered
    obtain ⟨⟨_, named⟩, same⟩ := registered
    cases same
    exact named
  | _ => cases registered

end LastRegistered

namespace World

variable (world : World) (effects : List Effect) {engine : EngineId} {name : String}

theorem find?_apply (effect : Effect) (present : engine.index < world.registries.size) :
    ((effect.apply world).registry engine).find? name =
      (effect.registered? engine name).or ((world.registry engine).find? name) := by
  cases effect with
  | build =>
    rw [Effect.apply, registry_addRegistry_empty]
    rfl
  | register other function =>
    rw [Effect.apply, find?_register, Effect.registered?]
    by_cases seen : other = engine ∧ function.name = name
    · rw [if_pos seen, if_pos ⟨seen.1, present, seen.2⟩]
      rfl
    · rw [if_neg seen, if_neg fun all => seen ⟨all.1, all.2.2⟩]
      rfl
  | _ => rfl

/-- Under each name an engine has the function that was registered last, or else what it had. -/
theorem find?_after (present : engine.index < world.registries.size) :
    ((world.after effects).registry engine).find? name =
      (lastRegistered engine name effects).or ((world.registry engine).find? name) := by
  induction effects generalizing world with
  | nil => rfl
  | cons effect rest ih =>
    have size := world.size_registries_after [effect]
    have stillPresent : engine.index < (effect.apply world).registries.size :=
      present.trans_le (Nat.le.intro size.symm)
    rw [after_cons, ih _ stillPresent, world.find?_apply effect present, lastRegistered_cons,
      Option.or_assoc]

/-- An engine is unaffected if nothing is registered in it. -/
theorem registry_after (none : ∀ function, Effect.register engine function ∉ effects) :
    (world.after effects).registry engine = world.registry engine := by
  induction effects generalizing world with
  | nil => rfl
  | cons effect rest ih =>
    simp only [List.mem_cons, not_or] at none
    rw [after_cons, ih _ fun function => (none function).2]
    cases effect with
    | build => exact registry_addRegistry_empty _ _
    | register other function =>
      refine Registry.ext_find? fun name => ?_
      rw [Effect.apply, find?_register, if_neg]
      rintro ⟨rfl, _⟩
      exact (none function).1 rfl
    | _ => rfl

/-- A name that stands for something keeps doing so. -/
theorem contains_after (there : (world.registry engine).contains name) :
    ((world.after effects).registry engine).contains name := by
  induction effects generalizing world with
  | nil => exact there
  | cons effect rest ih =>
    refine ih _ ?_
    rw [Registry.contains_eq_isSome] at there ⊢
    cases effect with
    | build =>
      rw [Effect.apply, registry_addRegistry_empty]
      exact there
    | register other function =>
      rw [Effect.apply, find?_register]
      split
      · rfl
      · exact there
    | _ => exact there

/-- Registrations under different names commute, in one engine or in two. -/
theorem register_comm {first second : HostFunction} (different : first.name ≠ second.name)
    (engine other : EngineId) :
    (world.updateRegistry engine (·.insert first)).updateRegistry other (·.insert second) =
      (world.updateRegistry other (·.insert second)).updateRegistry engine (·.insert first) := by
  by_cases same : engine = other
  · subst same
    rw [updateRegistry_updateRegistry, updateRegistry_updateRegistry]
    refine updateRegistry_congr (Registry.ext_find? fun name => ?_)
    simp only [Registry.find?_insert]
    by_cases isFirst : first.name = name
    · rw [if_pos isFirst, if_pos isFirst,
        if_neg fun isSecond => different (isFirst.trans isSecond.symm)]
    · rw [if_neg isFirst, if_neg isFirst]
  · have apart : engine.index ≠ other.index := fun equal => same (congrArg EngineId.mk equal)
    simp only [updateRegistry, World.mk.injEq, and_true]
    apply Array.ext_getElem?
    intro index
    simp only [Array.getElem?_modify]
    by_cases here : engine.index = index
    · have elsewhere : ¬other.index = index := fun there => apart (here.trans there.symm)
      simp only [here, elsewhere, if_true, if_false]
    · simp only [here, if_false]

end World

/-! ## Names -/

namespace Registry

variable (registry : Registry)

theorem names_increasing : registry.names.Pairwise (· < ·) := by
  have ordered : registry.functions.keys.Pairwise fun a b => compare a b = .lt :=
    Std.ExtTreeMap.ordered_keys
  exact ordered.imp fun before => compareOfLessAndEq_eq_lt.mp before

theorem mem_names (name : String) : name ∈ registry.names ↔ registry.contains name := by
  rw [names, Std.ExtTreeMap.mem_keys, ← Std.ExtTreeMap.contains_iff_mem]
  rfl

theorem length_names : registry.names.length = registry.size := Std.ExtTreeMap.length_keys

end Registry

/-! ## Engines are told apart by how they were built -/

namespace BuiltAt

variable {effects : List Effect} {position : Nat} {engine other : EngineId}

theorem index_eq (built : BuiltAt effects position engine) :
    engine.index = (effects.take position).countP Effect.builds := by
  obtain ⟨_, rfl⟩ := built
  have size := World.empty.size_registries_after (effects.take position)
  exact size.trans (Nat.zero_add _)

theorem engine_unique (built : BuiltAt effects position engine)
    (otherBuilt : BuiltAt effects position other) : engine = other :=
  built.2.trans otherBuilt.2.symm

theorem position_unique {otherPosition : Nat} (built : BuiltAt effects position engine)
    (again : BuiltAt effects otherPosition engine) : position = otherPosition :=
  place_unique built.1 rfl again.1 rfl (built.index_eq.symm.trans again.index_eq)

/-- Under each name the engine has the function that was registered last since it was built. -/
theorem find?_eq (built : BuiltAt effects position engine) (name : String) :
    ((World.empty.after effects).registry engine).find? name =
      lastRegistered engine name (effects.drop (position + 1)) := by
  obtain ⟨there, isNext⟩ := built
  let before := World.empty.after (effects.take position)
  have split : World.empty.after effects =
      (before.addRegistry .empty).2.after (effects.drop (position + 1)) := by
    conv_lhs => rw [← take_append_drop_of_place there]
    rw [World.after_append, World.after_cons, Effect.apply]
  have present : engine.index < (before.addRegistry .empty).2.registries.size := by
    rw [isNext, World.addRegistry, Array.size_push]
    exact Nat.lt_succ_self _
  have nothing : (before.registry engine).find? name = none := by
    have absent : ¬engine.index < before.registries.size := isNext ▸ Nat.lt_irrefl _
    rw [before.registry_of_absent absent, Registry.find?_empty]
  rw [split, World.find?_after _ _ present, World.registry_addRegistry_empty, nothing,
    Option.or_none]

end BuiltAt

/-- An engine is there exactly if it was built at some place. -/
theorem exists_builtAt_iff {effects : List Effect} {engine : EngineId} :
    (∃ position, BuiltAt effects position engine) ↔
      engine.index < (World.empty.after effects).registries.size := by
  have size : ∀ effects, (World.empty.after effects).registries.size =
      effects.countP Effect.builds :=
    fun effects => (World.empty.size_registries_after effects).trans (Nat.zero_add _)
  rw [size]
  constructor
  · rintro ⟨position, built⟩
    have inside := (List.getElem?_eq_some_iff.mp built.1).1
    have less : (effects.take position).countP Effect.builds <
        (effects.take effects.length).countP Effect.builds := countP_take_lt built.1 rfl inside
    rw [List.take_length] at less
    rw [built.index_eq]
    exact less
  · intro below
    obtain ⟨position, effect, there, builds, before⟩ := exists_place below
    cases effect with
    | build =>
      refine ⟨position, there, ?_⟩
      rw [World.addRegistry, size, before]
    | _ => cases builds

/-! ## The laws of registries -/

/-- What holds of the engines after a history with this record. -/
structure RegistryLaws (effects : List Effect) (now : World) : Prop where
  /-- Each engine was built at one place, and nothing else was. -/
  built : ∀ engine, engine.index < now.registries.size ↔
    ∃! position, BuiltAt effects position engine
  apart : ∀ position engine other, BuiltAt effects position engine →
    BuiltAt effects position other → engine = other
  /-- A name stands for the function that was registered last. -/
  latest : ∀ position engine, BuiltAt effects position engine → ∀ name,
    (now.registry engine).find? name =
      lastRegistered engine name (effects.drop (position + 1))
  /-- To register yields the function that was seen before, if there is one. -/
  replaced : ∀ position engine, BuiltAt effects position engine → ∀ function,
    (engine.register function now).1 =
        lastRegistered engine function.name (effects.drop (position + 1)) ∧
      (engine.register function now).1.isSome =
        (now.registry engine).contains function.name
  /-- A function bears the name that it is found under. -/
  named : ∀ engine name function,
    (now.registry engine).find? name = some function → function.name = name
  increasing : ∀ engine, (now.registry engine).names.Pairwise (· < ·)
  listed : ∀ engine name,
    name ∈ (now.registry engine).names ↔ (now.registry engine).contains name
  counted : ∀ engine, (now.registry engine).size = (now.registry engine).names.length
  /-- Whatever is done later, a name stays registered. -/
  stays : ∀ admits more later, Chronicle admits now more later → ∀ engine name,
    (now.registry engine).contains name → (later.registry engine).contains name
  /-- Whatever is done later, an engine is unaffected by registrations in others. -/
  isolated : ∀ admits more later, Chronicle admits now more later → ∀ engine,
    (∀ function, Effect.register engine function ∉ more) →
    later.registry engine = now.registry engine
  /-- Registrations under different names commute, through any handles. -/
  commute : ∀ (engine other : EngineId) (first second : HostFunction), first.name ≠ second.name →
    let firstDone := engine.register first now
    let secondDone := other.register second now
    other.register second firstDone.2 =
        (secondDone.1, (engine.register first secondDone.2).2) ∧
      (engine.register first secondDone.2).1 = firstDone.1
  /-- If host code does not register in an engine, then evaluations, calls and host code leave its
  functions as they are, at every place of what they do and however they end. -/
  unregistering : ∀ rules depth activity engine, engine ∉ rules.registers → now.Obeys rules →
    activity.Obeys rules now.closures.size →
    (∀ done, done <+: activity.effects depth now →
      (now.after done).registry engine = now.registry engine) ∧
    ∀ outcome left, Moment.EndsWith ⟨depth, activity, now⟩ outcome left →
      left.registry engine = now.registry engine

/-- To register under one name is not seen under others. -/
theorem EngineId.register_fst_of_ne {first second : HostFunction}
    (different : first.name ≠ second.name) (engine other : EngineId) (world : World) :
    (other.register second (engine.register first world).2).1 =
      (other.register second world).1 := by
  rw [register, register, register, World.find?_register,
    if_neg fun seen => different seen.2.2]

theorem name_of_lastRegistered {engine : EngineId} {name : String} {effects : List Effect}
    {function : HostFunction} (found : lastRegistered engine name effects = some function) :
    function.name = name := by
  obtain ⟨effect, _, registered⟩ := List.exists_of_findSome?_eq_some found
  exact effect.name_of_registered? registered

theorem registryLaws (effects : List Effect) :
    RegistryLaws effects (World.empty.after effects) where
  built engine := by
    rw [← exists_builtAt_iff]
    constructor
    · rintro ⟨position, built⟩
      exact ⟨position, built, fun other again => again.position_unique built⟩
    · rintro ⟨position, built, _⟩
      exact ⟨position, built⟩
  apart _ _ _ built otherBuilt := built.engine_unique otherBuilt
  latest _ _ built := built.find?_eq
  replaced _ _ built function :=
    ⟨built.find?_eq function.name, (Registry.contains_eq_isSome _ _).symm⟩
  named engine name function found := by
    by_cases present : engine.index < (World.empty.after effects).registries.size
    · obtain ⟨position, built⟩ := exists_builtAt_iff.mpr present
      rw [built.find?_eq] at found
      exact name_of_lastRegistered found
    · rw [World.registry_of_absent _ present, Registry.find?_empty] at found
      cases found
  increasing _ := Registry.names_increasing _
  listed _ := Registry.mem_names _
  counted _ := (Registry.length_names _).symm
  stays _ more _ chronicle _ _ there := chronicle.world ▸ World.contains_after _ more there
  isolated _ more _ chronicle _ none := chronicle.world ▸ World.registry_after _ more none
  commute engine other first second different := by
    refine ⟨Prod.ext ?_ ?_, ?_⟩
    · exact EngineId.register_fst_of_ne different engine other _
    · exact World.register_comm _ different engine other
    · exact EngineId.register_fst_of_ne different.symm other engine _
  unregistering rules depth activity engine forbidden obeys activityObeys := by
    have none := (Activity.conforms depth obeys activityObeys).kept.not_register forbidden
    refine ⟨fun done within => ?_, fun outcome left ends => ?_⟩
    · exact World.registry_after _ _ fun function there => none function (within.subset there)
    · rw [ends.world]
      exact World.registry_after _ _ none

/-! ## Clones, and compiling -/

namespace Session

variable {session : Session} {engine : EngineId}

theorem engineOf_eq (name : String) (session : Session) :
    engineOf name session = need session.engines[name]? session := rfl

/-- A clone is the same engine under one more name. -/
theorem step_cloneEngine {source : String} (found : session.engines[source]? = some engine)
    (depth : Nat) (name : String) :
    session.step depth (.cloneEngine source name) =
      (.same true, { session with engines := session.engines.insert name engine }) := by
  let after := { session with engines := session.engines.insert name engine }
  have named : after.engines[name]? = some engine := Std.ExtTreeMap.getElem?_insert_self
  have done : perform depth (.cloneEngine source name) session = .ok (.same true, after) := by
    show (engineOf source session).bind _ = _
    rw [engineOf_eq, found]
    show (engineOf name after).bind _ = _
    rw [engineOf_eq, named]
    show Except.ok (Reply.same (engine == engine), after) = _
    rw [beq_self_eq_true]
  rw [step, StateT.run, done]

/-- Compiling changes nothing, whether or not there is the engine. -/
theorem step_compile (depth : Nat) (name : String) (node : Node) (session : Session) :
    (session.step depth (.compile name node)).2 = session := by
  have asked : perform depth (.compile name node) session =
      (engineOf name session).bind fun made =>
        .ok (.code (made.1.compile node made.2.world), made.2) := rfl
  rw [step, StateT.run, asked, engineOf_eq]
  cases session.engines[name]? with
  | none => rfl
  | some engine => rfl

end Session

/-- The invariant of registries. Whatever a host has done, and whatever host code has registered in
the course of it, the laws of registries hold. A clone of an engine is the same handle again, so it
has the same functions for ever, and compiling changes nothing at all. -/
theorem registries_of_chronicle {effects : List Effect} {now : World}
    (chronicle : Chronicle (fun _ _ => True) .empty effects now) :
    RegistryLaws effects now ∧
    (∀ depth session source name engine, session.engines[source]? = some engine →
      Session.step depth (.cloneEngine source name) session =
        (.same true, { session with engines := session.engines.insert name engine })) ∧
    ∀ depth session engine node,
      (Session.step depth (.compile engine node) session).2 = session :=
  ⟨chronicle.world ▸ registryLaws effects,
    fun depth _ _ name _ found => Session.step_cloneEngine found depth name,
    fun depth session engine node => Session.step_compile depth engine node session⟩

/-- An engine whose function `install` registers `f`: after an evaluation of `install()`, the engine
has `f`. An engine with builtins alone has the same functions after `min()`, which fails. -/
theorem registries_of_chronicle_install :
    let f : HostFunction := .plain "f" fun _ => .fail .divisionByZero
    let install : HostFunction := .plain "install" fun _ =>
      .register ⟨0⟩ f.name f.compile f.evaluate fun replaces => .succeed (.bool replaces)
    let builder : Builder := Builder.empty.function install
    (∃ left, Yields (EngineId.evaluate ⟨0⟩ 2 .empty (.call "install" [])) (builder.build .empty).2
        (.ok (.bool false)) left ∧ (left.registry ⟨0⟩).find? "f" = some f) ∧
    ∃ left, Yields (EngineId.evaluate ⟨0⟩ 2 .empty (.call "min" [])) (Builder.empty.build .empty).2
        (.error (.custom "min expects at least 1 argument")) left ∧
      left.registry ⟨0⟩ = (Builder.empty.build .empty).2.registry ⟨0⟩ := by
  intro f install builder
  constructor
  · obtain ⟨left, ran⟩ : ∃ left, Yields (EngineId.evaluate ⟨0⟩ 2 .empty (.call "install" []))
        (builder.build .empty).2 (.ok (.bool false)) left := by
      subst builder install f
      exact ⟨_, rfl⟩
    have ends : Moment.EndsWith
        ⟨2, .evaluate ⟨0⟩ .empty (.call "install" []), (builder.build .empty).2⟩
        (.ok (.bool false)) left := ran
    have built : Chronicle (fun _ _ => True) .empty _ (builder.build .empty).2 :=
      .step .nil trivial .build
    obtain ⟨laws, _, _⟩ := registries_of_chronicle (built.step trivial (.ended ends))
    refine ⟨left, ran, ?_⟩
    rw [laws.latest 0 ⟨0⟩ ⟨rfl, rfl⟩]
    subst builder install f
    rfl
  · obtain ⟨left, ran⟩ : ∃ left, Yields (EngineId.evaluate ⟨0⟩ 2 .empty (.call "min" []))
        (Builder.empty.build .empty).2
        (.error (.custom "min expects at least 1 argument")) left := ⟨_, rfl⟩
    have ends : Moment.EndsWith
        ⟨2, .evaluate ⟨0⟩ .empty (.call "min" []), (Builder.empty.build .empty).2⟩
        (.error (.custom "min expects at least 1 argument")) left := ran
    have built : Chronicle (fun _ _ => True) .empty _ (Builder.empty.build .empty).2 :=
      .step .nil trivial .build
    obtain ⟨laws, _, _⟩ := registries_of_chronicle built
    -- host code may do anything but register
    let rules : Rules := ⟨Set.univ, ∅, True, ∅, 0⟩
    have start : World.empty.Obeys rules := World.empty_obeys rfl
    have obeys : (Builder.empty.build .empty).2.Obeys rules :=
      start.build fun function there => by
        rw [Builder.all, Builder.empty, List.append_nil] at there
        exact Builtins.obeys trivial _ there
    have unchanged := laws.unregistering rules 2 (.evaluate ⟨0⟩ .empty (.call "min" [])) ⟨0⟩
      (Set.notMem_empty _) obeys ⟨trivial, Scope.within_empty _⟩
    exact ⟨left, ran, unchanged.2 _ left ends⟩

end ArrowExpr
