import ArrowExpr.Proofs.Conduct
import ArrowExpr.Proofs.Pairing
import ArrowExpr.Proofs.SideBySide
/-!
# Evaluation does not look into callables

Two runs are compared in worlds whose closures have nothing to do with each other. Only a pairing
says which callables stand for which. The host functions are parametric in callables: whatever the
pairing is, from paired arguments they do the same up to it (`HostFunction.Parametric`). Then

* the runs come to the same end, up to the pairing, and what they make anew is paired in the order
  in which it is made (`Interpreter.ofDepth_paired`);
* no closure is ever started, in neither of them (`Activity.starts_no_closure`).

That a parametric function calls nothing is part of what parametric means: nothing could be said of
two runs that go on with what unrelated callbacks give.
-/

namespace ArrowExpr

open EvalM

/-! ## Host code that is parametric in callables -/

/-- Two runs of host code that take the same steps, up to the pairing, and call nothing.

* They evaluate with the given engines only.
* They may make callables, of any callbacks, and register functions. Where they register in one of
  the given engines, the functions are paired as well.
* They may count on it that what they get is paired. -/
inductive Action.Paired (engines : Set EngineId) (pairing : Pairing) : Action → Action → Prop
  | done {outcome other : Outcome} :
      outcome.Paired pairing other → Paired engines pairing (.done outcome) (.done other)
  | evaluate {engine : EngineId} {scope other : Scope} {node : Node}
      {next otherNext : Outcome → Action} :
      engine ∈ engines → scope.Paired pairing other →
      (∀ outcome otherOutcome, Outcome.Paired pairing outcome otherOutcome →
        Paired engines pairing (next outcome) (otherNext otherOutcome)) →
      Paired engines pairing (.evaluate engine scope node next)
        (.evaluate engine other node otherNext)
  | wrap {callback otherCallback : List Value → Action} {next otherNext : CallableId → Action} :
      (∀ id otherId, pairing.rel id otherId →
        Paired engines pairing (next id) (otherNext otherId)) →
      Paired engines pairing (.wrap callback next) (.wrap otherCallback otherNext)
  | register {engine : EngineId} {name : String} {compile otherCompile : List String → String}
      {evaluate otherEvaluate : Scope → List Value → Action} {next otherNext : Bool → Action} :
      (engine ∈ engines → ∀ scope other arguments others, Scope.Paired pairing scope other →
        List.Forall₂ (Value.Paired pairing) arguments others →
        Paired engines pairing (evaluate scope arguments) (otherEvaluate other others)) →
      (∀ replaces, Paired engines pairing (next replaces) (otherNext replaces)) →
      Paired engines pairing (.register engine name compile evaluate next)
        (.register engine name otherCompile otherEvaluate otherNext)
  | load {cell : CellId} {next otherNext : Value → Action} :
      (∀ value other, value.Paired pairing other →
        Paired engines pairing (next value) (otherNext other)) →
      Paired engines pairing (.load cell next) (.load cell otherNext)
  | store {cell : CellId} {value other : Value} {next otherNext : Action} :
      value.Paired pairing other → Paired engines pairing next otherNext →
      Paired engines pairing (.store cell value next) (.store cell other otherNext)

/-- From paired scopes and arguments the functions do the same, up to the pairing. -/
def HostFunction.Paired (engines : Set EngineId) (pairing : Pairing)
    (function other : HostFunction) : Prop :=
  ∀ scope otherScope arguments others, Scope.Paired pairing scope otherScope →
    List.Forall₂ (Value.Paired pairing) arguments others →
    Action.Paired engines pairing (function.evaluate scope arguments)
      (other.evaluate otherScope others)

/-- The function calls no callables, has none of its own, and depends on those that it gets by their
type and by which of them are equal only. -/
def HostFunction.Parametric (engines : Set EngineId) (function : HostFunction) : Prop :=
  ∀ pairing, function.Paired engines pairing function

/-- The worlds have the same engines and cells, up to the pairing, and what is made next in the one
is paired with what is made next in the other. About their closures nothing is said. -/
structure World.Paired (engines : Set EngineId) (pairing : Pairing) (world other : World) :
    Prop where
  registries : world.registries.size = other.registries.size
  contains : ∀ engine name,
    (world.registry engine).contains name = (other.registry engine).contains name
  functions : ∀ engine ∈ engines, ∀ name, Option.Rel (HostFunction.Paired engines pairing)
    ((world.registry engine).find? name) ((other.registry engine).find? name)
  cells : world.cells.size = other.cells.size
  loads : ∀ cell, (world.load cell).Paired pairing (other.load cell)
  ahead : ∀ count, pairing.rel (.made (world.closures.size + count))
    (.made (other.closures.size + count))

theorem Builtins.min_parametric (engines : Set EngineId) : Builtins.min.Parametric engines :=
  fun _ _ _ _ _ _ paired => .done (extreme_paired _ _ paired)

theorem Builtins.max_parametric (engines : Set EngineId) : Builtins.max.Parametric engines :=
  fun _ _ _ _ _ _ paired => .done (extreme_paired _ _ paired)

/-! ## What paired worlds do -/

variable {engines : Set EngineId} {pairing : Pairing}

namespace World.Paired

variable {world other : World}

theorem record (paired : world.Paired engines pairing other) (event otherEvent : Event) :
    (world.record event).Paired engines pairing (other.record otherEvent) :=
  ⟨paired.registries, paired.contains, paired.functions, paired.cells, paired.loads, paired.ahead⟩

theorem addClosure (paired : world.Paired engines pairing other) (closure otherClosure : Closure) :
    (world.addClosure closure).2.Paired engines pairing (other.addClosure otherClosure).2 := by
  refine ⟨paired.registries, paired.contains, paired.functions, paired.cells, paired.loads, ?_⟩
  intro count
  have later := paired.ahead (1 + count)
  simp only [← Nat.add_assoc] at later
  rw [World.addClosure, World.addClosure, Array.size_push, Array.size_push]
  exact later

theorem register (paired : world.Paired engines pairing other) {engine : EngineId}
    {function otherFunction : HostFunction} (name : function.name = otherFunction.name)
    (functions : engine ∈ engines → function.Paired engines pairing otherFunction) :
    (world.updateRegistry engine (·.insert function)).Paired engines pairing
      (other.updateRegistry engine (·.insert otherFunction)) where
  registries := by
    rw [updateRegistry, updateRegistry, Array.size_modify, Array.size_modify]
    exact paired.registries
  contains asked x := by
    have before := paired.contains asked x
    simp only [Registry.contains_eq_isSome, find?_register, ← name, ← paired.registries] at before ⊢
    split
    · rfl
    · exact before
  functions asked there x := by
    simp only [find?_register, ← name, ← paired.registries]
    split
    · next seen => exact .some (functions (seen.1 ▸ there))
    · exact paired.functions asked there x
  cells := paired.cells
  loads := paired.loads
  ahead := paired.ahead

theorem store (paired : world.Paired engines pairing other) (cell : CellId)
    {value otherValue : Value} (values : value.Paired pairing otherValue) :
    (world.store cell value).Paired engines pairing (other.store cell otherValue) where
  registries := paired.registries
  contains := paired.contains
  functions := paired.functions
  cells := by
    rw [World.store, World.store, Array.size_modify, Array.size_modify]
    exact paired.cells
  loads asked := by
    rw [load_store, load_store, ← paired.cells]
    split
    · exact values
    · exact paired.loads asked
  ahead := paired.ahead

end World.Paired

/-- What is evaluated inside comes to the same end, up to the pairing. -/
def Interpreter.Paired (engines : Set EngineId) (pairing : Pairing) (inner : Interpreter) : Prop :=
  ∀ engine ∈ engines, ∀ scope other node, Scope.Paired pairing scope other →
    Agree (World.Paired engines pairing) (Value.Paired pairing) (inner.evaluate engine scope node)
      (inner.evaluate engine other node)

namespace Agree

variable {inner : Interpreter}

theorem ofOutcome {related : World → World → Prop} {outcome other : Outcome}
    (paired : outcome.Paired pairing other) :
    Agree related (Value.Paired pairing) (EvalM.ofOutcome outcome) (EvalM.ofOutcome other) := by
  cases paired with
  | value values => exact fun _ _ worlds => .value values worlds
  | error error => exact fun _ _ worlds => .error worlds

theorem attempt {related : World → World → Prop} {first second : EvalM Value}
    (agree : Agree related (Value.Paired pairing) first second) :
    Agree related (Outcome.Paired pairing) (EvalM.attempt first) (EvalM.attempt second) := by
  intro left right worlds
  have ends := agree left right worlds
  rw [run_attempt, run_attempt]
  generalize ExceptT.run first left = firstEnd at ends ⊢
  generalize ExceptT.run second right = secondEnd at ends ⊢
  cases ends with
  | outOfDepth => exact .outOfDepth
  | value values worlds => exact .value (.value values) worlds
  | error worlds => exact .value (.error _) worlds

theorem perform (inside : inner.Paired engines pairing) {action other : Action}
    (paired : action.Paired engines pairing other) :
    Agree (World.Paired engines pairing) (Value.Paired pairing) (inner.perform action)
      (inner.perform other) := by
  induction paired with
  | done outcomes => exact ofOutcome outcomes
  | evaluate there scopes _ ih => exact (inside _ there _ _ _ scopes).attempt.bind ih
  | @wrap callback otherCallback next otherNext _ ih =>
    have made : Agree (World.Paired engines pairing) pairing.rel
        (EvalM.make (·.addClosure (.host callback)))
        (EvalM.make (·.addClosure (.host otherCallback))) :=
      make (fun _ _ worlds => worlds.ahead 0) fun _ _ worlds => worlds.addClosure _ _
    exact made.bind ih
  | @register engine name compile otherCompile evaluate otherEvaluate _ _ functions _ _ ih =>
    have asked : Agree (World.Paired engines pairing) Eq
        (EvalM.ask fun world => (world.registry engine).contains name)
        (EvalM.ask fun world => (world.registry engine).contains name) :=
      ask fun _ _ worlds => worlds.contains engine name
    have registered : Agree (World.Paired engines pairing) Eq
        (EvalM.update (·.updateRegistry engine (·.insert ⟨name, compile, evaluate⟩)))
        (EvalM.update (·.updateRegistry engine (·.insert ⟨name, otherCompile, otherEvaluate⟩))) :=
      update fun _ _ worlds => worlds.register rfl functions
    refine asked.bind fun replaces otherReplaces same => registered.bind fun _ _ _ => ?_
    exact same ▸ ih replaces
  | @load cell _ _ _ ih =>
    have asked : Agree (World.Paired engines pairing) (Value.Paired pairing)
        (EvalM.ask (·.load cell)) (EvalM.ask (·.load cell)) :=
      ask fun _ _ worlds => worlds.loads cell
    exact asked.bind ih
  | @store cell value other _ _ values _ ih =>
    have stored : Agree (World.Paired engines pairing) Eq (EvalM.update (·.store cell value))
        (EvalM.update (·.store cell other)) :=
      update fun _ _ worlds => worlds.store cell values
    exact stored.bind fun _ _ _ => ih

theorem run (inside : inner.Paired engines pairing) {function otherFunction : HostFunction}
    (functions : function.Paired engines pairing otherFunction) {scope other : Scope}
    {arguments others : List Value} (scopes : scope.Paired pairing other)
    (values : List.Forall₂ (Value.Paired pairing) arguments others) :
    Agree (World.Paired engines pairing) (Value.Paired pairing)
      (inner.run function scope arguments) (inner.run otherFunction other others) := by
  have noted : Agree (World.Paired engines pairing) Eq
      (EvalM.update (·.record (.function function arguments)))
      (EvalM.update (·.record (.function otherFunction others))) :=
    update fun _ _ worlds => worlds.record _ _
  exact noted.bind fun _ _ _ => perform inside (functions _ _ _ _ scopes values)

theorem evaluateNode (inside : inner.Paired engines pairing) {engine : EngineId}
    (there : engine ∈ engines) {scope other : Scope} (scopes : scope.Paired pairing other)
    (node : Node) :
    Agree (World.Paired engines pairing) (Value.Paired pairing)
      (inner.evaluateNode engine scope node) (inner.evaluateNode engine other node) := by
  have each : ∀ child, Agree (World.Paired engines pairing) (Value.Paired pairing)
      (inner.evaluate engine scope child) (inner.evaluate engine other child) :=
    fun child => inside engine there scope other child scopes
  cases node with
  | constant literal =>
    exact pure (.self fun id holds => absurd holds (Value.ofLiteral_not_holds literal id))
  | name x =>
    have bound := scopes x
    rw [Interpreter.evaluateNode, Interpreter.evaluateNode]
    generalize scope.lookup? x = value at bound ⊢
    generalize other.lookup? x = otherValue at bound ⊢
    cases bound with
    | none => exact throw _
    | some values => exact pure values
  | unary op operand =>
    refine (each operand).bind fun value otherValue values => ofOutcome ?_
    rw [op.apply_eq_of_paired values]
    exact .of_plain (op.apply_plain otherValue)
  | binary op left right =>
    refine (each left).bind fun value otherValue values => ?_
    rw [values.isTruthy_eq]
    split
    · exact pure (.bool _)
    · refine (each right).bind fun second otherSecond seconds => ofOutcome ?_
      rw [op.apply_eq_of_paired values seconds]
      exact .of_plain (op.apply_plain otherValue otherSecond)
  | call name arguments =>
    have asked : Agree (World.Paired engines pairing)
        (fun registry otherRegistry => Option.Rel (HostFunction.Paired engines pairing)
          (registry.find? name) (otherRegistry.find? name))
        (EvalM.ask (·.registry engine)) (EvalM.ask (·.registry engine)) :=
      ask fun _ _ worlds => worlds.functions engine there name
    refine asked.bind fun registry otherRegistry found => ?_
    generalize registry.find? name = function at found ⊢
    generalize otherRegistry.find? name = otherFunction at found ⊢
    cases found with
    | none => exact throw _
    | some functions =>
      exact (mapM arguments fun argument _ => each argument).bind fun _ _ values =>
        run inside functions scopes values
  | list items =>
    exact (mapM items fun item _ => each item).bind fun _ _ values => pure (.list values)
  | arrow parameters body =>
    cases body with
    | none => exact pure (.callable pairing.noop)
    | some body =>
      have made : Agree (World.Paired engines pairing) pairing.rel
          (EvalM.make (·.addClosure (.arrow engine parameters body)))
          (EvalM.make (·.addClosure (.arrow engine parameters body))) :=
        make (fun _ _ worlds => worlds.ahead 0) fun _ _ worlds => worlds.addClosure _ _
      exact made.bind fun _ _ paired => pure (.callable paired)

end Agree

theorem Interpreter.ofDepth_paired (engines : Set EngineId) (pairing : Pairing) (depth : Nat) :
    (Interpreter.ofDepth depth).Paired engines pairing := by
  induction depth with
  | zero => exact fun _ _ _ _ _ _ => .outOfDepth
  | succ depth ih => exact fun _ there _ _ node scopes => .evaluateNode ih there scopes node

/-! ## No closure is started -/

/-- Host code may evaluate with these engines, but call nothing. -/
def Rules.silent (engines : Set EngineId) : Rules := ⟨engines, Set.univ, False, Set.univ, 0⟩

theorem Rules.silent_permits (made : Nat) (value : Value) : (silent engines).Permits made value :=
  fun _ _ => .inr (.inl trivial)

theorem Outcome.Paired.self (outcome : Outcome) : outcome.Paired .same outcome := by
  cases outcome with
  | error error => exact .error error
  | ok value => exact .value (Value.Paired.self fun _ _ => rfl)

/-- What is paired calls nothing. -/
theorem Action.Paired.obeys {action other : Action} (paired : action.Paired engines .same other)
    (made : Nat) : action.Obeys (.silent engines) made := by
  have all : ∀ made value, (Rules.silent engines).Permits made value := Rules.silent_permits
  induction paired generalizing made with
  | done _ => exact .done fun value _ => all made value
  | evaluate there _ _ ih =>
    refine .evaluate there (fun _ value _ => all made value) fun later outcome _ _ => ?_
    exact ih outcome outcome (.self outcome) later
  | wrap _ ih => exact .wrap False.elim (ih _ _ rfl _)
  | register _ _ functionIh ih =>
    refine .register trivial (fun there later scope arguments _ _ _ => ?_) fun replaces =>
      ih replaces made
    exact functionIh there scope scope arguments arguments (.self fun _ _ _ _ _ => rfl)
      (Value.Paired.selfAll fun _ _ _ _ => rfl) later
  | load _ ih =>
    exact .load fun value _ => ih value value (Value.Paired.self fun _ _ => rfl) made
  | store _ _ ih => exact .store (all made _) (ih made)

/-- A parametric function calls nothing. -/
theorem HostFunction.Parametric.obeys {function : HostFunction}
    (parametric : function.Parametric engines) (made : Nat) :
    function.Obeys (.silent engines) made :=
  fun later scope arguments _ _ _ =>
    (parametric .same scope scope arguments arguments (.self fun _ _ _ _ _ => rfl)
      (Value.Paired.selfAll fun _ _ _ _ => rfl)).obeys later

/-- All functions of these engines are parametric. -/
def World.Parametric (engines : Set EngineId) (world : World) : Prop :=
  ∀ engine ∈ engines, ∀ name function, (world.registry engine).find? name = some function →
    function.Parametric engines

theorem World.Parametric.obeys {world : World} (parametric : world.Parametric engines) :
    world.Obeys (.silent engines) where
  first := Nat.zero_le _
  functions engine there name function found :=
    (parametric engine there name function found).obeys _
  closures := False.elim
  cells _ := Rules.silent_permits _ _

/-- Where host code must not call, no closure is ever started. -/
theorem Activity.starts_no_closure {rules : Rules} (silent : ¬rules.calls) {world : World}
    (obeys : world.Obeys rules) {activity : Activity}
    (activityObeys : activity.Obeys rules world.closures.size) (depth : Nat) (id : CallableId)
    (arguments : List Value) : .start (.closure id arguments) ∉ activity.effects depth world :=
  (Activity.conforms depth obeys activityObeys).kept.not_start silent id arguments

/-! ## Other callbacks -/

/-- The world with other closures in place of those that there are. -/
def World.withClosures (world : World) (closures : Array Closure) : World :=
  { world with closures }

/-- Callables of the one world stand for callables of the other. -/
def Pairing.Between (pairing : Pairing) (world other : World) : Prop :=
  ∀ a b, pairing.rel a b → a ∈ world.callables ∧ b ∈ other.callables

/-- What is made later stands for nothing that there is, on either side. -/
theorem Pairing.Between.ne_made {world other : World} (between : pairing.Between world other)
    {a b : CallableId} (related : pairing.rel a b) (count : Nat) :
    a ≠ .made (world.closures.size + count) ∧ b ≠ .made (other.closures.size + count) := by
  have later : ∀ world : World, .made (world.closures.size + count) ∉ world.callables := by
    rintro world (isNoop | ⟨index, same, below⟩)
    · cases isNoop
    · cases same
      exact Nat.not_lt.mpr (Nat.le_add_right _ _) below
  obtain ⟨there, otherThere⟩ := between a b related
  exact ⟨fun same => later world (same ▸ there), fun same => later other (same ▸ otherThere)⟩

/-- The pairing goes on with what is made in both worlds from now on, in the order in which it is
made. -/
def Pairing.onward (pairing : Pairing) {world other : World}
    (between : pairing.Between world other) : Pairing where
  rel a b := pairing.rel a b ∨
    ∃ count, a = .made (world.closures.size + count) ∧ b = .made (other.closures.size + count)
  noop := .inl pairing.noop
  unique := by
    rintro a b c d (first | ⟨count, rfl, rfl⟩) (second | ⟨otherCount, rfl, rfl⟩)
    · exact pairing.unique first second
    · have apart := between.ne_made first otherCount
      exact iff_of_false apart.1 apart.2
    · have apart := between.ne_made second count
      exact iff_of_false apart.1.symm apart.2.symm
    · simp only [CallableId.made.injEq, Nat.add_left_cancel_iff]

theorem Pairing.rel_onward {world other : World} (between : pairing.Between world other)
    (a b : CallableId) (related : pairing.rel a b) : (pairing.onward between).rel a b :=
  Or.inl related

theorem World.Parametric.paired {world : World} (parametric : world.Parametric engines)
    {closures : Array Closure} (between : pairing.Between world (world.withClosures closures))
    (cells : ∀ cell, (world.load cell).Paired pairing (world.load cell)) :
    world.Paired engines (pairing.onward between) (world.withClosures closures) where
  registries := rfl
  contains _ _ := rfl
  functions engine there name := by
    show Option.Rel _ ((world.registry engine).find? name) ((world.registry engine).find? name)
    cases found : (world.registry engine).find? name with
    | none => exact .none
    | some function => exact .some (parametric engine there name function found _)
  cells := rfl
  loads cell := (cells cell).mono (Pairing.rel_onward between)
  ahead count := Or.inr ⟨count, rfl, rfl⟩

/-- Callables are opaque to evaluation. All functions of these engines are parametric, and whatever
callables there are in the scope and in cells, they get other closures.

* Both evaluations end in the same error, or in values that are equal up to what stands for what, or
  none of them ends.
* None of them starts a closure, be it a callback or the body of an arrow function.
* Where host code does not call, no closure is started in any run. -/
theorem evaluate_of_other_closures {engines : Set EngineId} {engine : EngineId} {world : World}
    {closures : Array Closure} {pairing : Pairing} {scope other : Scope} {node : Node} {depth : Nat}
    (parametric : world.Parametric engines) (there : engine ∈ engines)
    (between : pairing.Between world (world.withClosures closures))
    (cells : ∀ cell, (world.load cell).Paired pairing (world.load cell))
    (scopes : scope.Paired pairing other) :
    Matching (World.Paired engines (pairing.onward between))
      (Value.Paired (pairing.onward between))
      (ExceptT.run (engine.evaluate depth scope node) world)
      (ExceptT.run (engine.evaluate depth other node) (world.withClosures closures)) ∧
    (∀ id arguments,
      .start (.closure id arguments) ∉ evaluationEffects depth engine scope node world ∧
      .start (.closure id arguments) ∉
        evaluationEffects depth engine other node (world.withClosures closures)) ∧
    ∀ rules : Rules, ¬rules.calls → ∀ world : World, world.Obeys rules → ∀ depth activity,
      activity.Obeys rules world.closures.size → ∀ id arguments,
        .start (.closure id arguments) ∉ Activity.effects depth activity world := by
  have starts : ∀ (closures : Array Closure) (scope : Scope) (id : CallableId)
      (arguments : List Value), .start (.closure id arguments) ∉
        evaluationEffects depth engine scope node (world.withClosures closures) := by
    intro closures scope id arguments
    have obeys : (world.withClosures closures).Obeys (.silent engines) :=
      World.Parametric.obeys parametric
    have scopeObeys : (Activity.evaluate engine scope node).Obeys (.silent engines)
        (world.withClosures closures).closures.size :=
      ⟨there, fun _ value _ => Rules.silent_permits _ value⟩
    exact Activity.starts_no_closure not_false obeys scopeObeys depth id arguments
  refine ⟨?_, fun id arguments =>
    ⟨starts world.closures scope id arguments, starts closures other id arguments⟩,
    fun rules silent world obeys depth activity activityObeys =>
      Activity.starts_no_closure silent obeys activityObeys depth⟩
  have onward := scopes.mono (Pairing.rel_onward between)
  exact Interpreter.ofDepth_paired engines _ depth engine there scope other node onward _ _
    (parametric.paired between cells)

/-- Each callable that there is stands for itself. -/
def Pairing.within (world : World) : Pairing where
  rel a b := a = b ∧ a ∈ world.callables
  noop := ⟨rfl, .inl rfl⟩
  unique := by
    rintro a b c d ⟨rfl, _⟩ ⟨rfl, _⟩
    exact Iff.rfl

/-- `[f == f, min(1, 2), () -> {f}]` with a callable `f` that fails in place of one that gives 1. -/
theorem evaluate_of_other_closures_min :
    let builder : Builder := ⟨[Builtins.min, Builtins.max], false⟩
    let world : World :=
      (builder.build (World.empty.addClosure (.arrow ⟨0⟩ [] (.constant (.int 1)))).2).2
    let scope : Scope := .ofList [("f", .callable (.made 0))]
    let node : Node := .list [.binary .eq (.name "f") (.name "f"),
      .call "min" [.constant (.int 1), .constant (.int 2)], .arrow [] (some (.name "f"))]
    let failing : Closure := .host fun _ => .fail .divisionByZero
    ∃ value left, Yields (EngineId.evaluate ⟨0⟩ 3 scope node) (world.withClosures #[failing])
      (.ok value) left := by
  intro builder world scope node failing
  have parametric : world.Parametric {⟨0⟩} := by
    rintro engine rfl name function found
    rcases Registry.find?_insertAll found with ⟨there, _⟩ | nowhere
    · simp only [builder, List.mem_cons, List.not_mem_nil, or_false] at there
      rcases there with rfl | rfl
      · exact Builtins.min_parametric _
      · exact Builtins.max_parametric _
    · have inEmpty : Registry.empty.find? name = some function := nowhere
      rw [Registry.find?_empty] at inEmpty
      cases inEmpty
  have between : (Pairing.within world).Between world (world.withClosures #[failing]) := by
    rintro a b ⟨rfl, there⟩
    exact ⟨there, there⟩
  have cells : ∀ cell, (world.load cell).Paired (.within world) (world.load cell) :=
    fun cell => .self nofun
  have scopes : scope.Paired (.within world) scope := by
    refine .self fun name value found id holds => ?_
    have inScope : (Scope.empty.define "f" (.callable (.made 0))).lookup? name = some value := found
    rw [Scope.lookup?_define, Scope.lookup?_empty, Option.ite_none_right_eq_some] at inScope
    obtain ⟨_, same⟩ := inScope
    cases same
    cases holds
    exact ⟨rfl, .inr ⟨0, rfl, Nat.one_pos⟩⟩
  obtain ⟨matching, _, _⟩ := @evaluate_of_other_closures _ ⟨0⟩ _ _ _ _ _ node 3 parametric rfl
    between cells scopes
  obtain ⟨first, ran⟩ : ∃ left, ExceptT.run (EngineId.evaluate ⟨0⟩ 3 scope node) world =
      some (.ok (.list [.bool true, .int 1, .callable (.made 1)]), left) := by
    subst node scope world builder
    exact ⟨_, rfl⟩
  rw [ran] at matching
  generalize isSecond : ExceptT.run (EngineId.evaluate ⟨0⟩ 3 scope node)
    (world.withClosures #[failing]) = second at matching
  cases matching with
  | value _ _ => exact ⟨_, _, isSecond⟩

end ArrowExpr
