import ArrowExpr.Proofs.Binding
import ArrowExpr.Proofs.Callables
import ArrowExpr.Proofs.Effects
/-!
# What runs do if host code keeps to rules

Host code is arbitrary, so whatever is said of all runs in an engine must be asked of its functions
and callbacks first. `Rules` say with which engines host code may evaluate, where it may register,
whether it may call, and which callables it may have. If the host code that is there keeps to them
(`World.Obeys`), then

* so does everything that a run does, one effect after the other (`Rules.Kept`), whether the run
  ends or not;
* the world obeys in between and at the end (`World.Obeys.after`);
* a value that a run ends in holds no other callables (`Activity.conforms`).

The builtins keep to all rules under which calls are allowed, and `min` and `max` to the others too.
-/

namespace ArrowExpr

open EvalM

/-- What host code may do. -/
structure Rules where
  /-- The engines that it may evaluate expressions with. -/
  engines : Set EngineId
  /-- The engines that it may register functions in. -/
  registers : Set EngineId
  /-- Whether it may call callables. -/
  calls : Prop
  /-- The callables that it may have from the start on. -/
  held : Set CallableId
  /-- How many callables there are at the start. -/
  first : Nat

/-- The callables that host code may have when so many have been made. -/
def Rules.known (rules : Rules) (made : Nat) : Set CallableId :=
  {id | id = .noop ∨ id ∈ rules.held ∨
    ∃ index, id = .made index ∧ rules.first ≤ index ∧ index < made}

/-! ## Host code that keeps to the rules -/

/-- The run of host code keeps to the rules, if it starts when so many callables have been made.

* It uses no other callables than those that it may have then, and it puts no others into cells.
* It may count on the same of everything that it gets: the results of calls and evaluations, what it
  reads from cells, and the arguments of its callbacks. -/
inductive Action.Obeys (rules : Rules) : Nat → Action → Prop
  | done {made : Nat} {outcome : Outcome} :
      outcome.Within (rules.known made) → Obeys rules made (.done outcome)
  | call {made : Nat} {id : CallableId} {arguments : List Value} {next : Outcome → Action} :
      rules.calls → id ∈ rules.known made →
      (∀ argument ∈ arguments, argument.Within (rules.known made)) →
      (∀ later outcome, made ≤ later → outcome.Within (rules.known later) →
        Obeys rules later (next outcome)) →
      Obeys rules made (.call id arguments next)
  | evaluate {made : Nat} {engine : EngineId} {scope : Scope} {node : Node}
      {next : Outcome → Action} :
      engine ∈ rules.engines → scope.Within (rules.known made) →
      (∀ later outcome, made ≤ later → outcome.Within (rules.known later) →
        Obeys rules later (next outcome)) →
      Obeys rules made (.evaluate engine scope node next)
  | wrap {made : Nat} {callback : List Value → Action} {next : CallableId → Action} :
      (rules.calls → ∀ later arguments, made ≤ later →
        (∀ argument ∈ arguments, argument.Within (rules.known later)) →
        Obeys rules later (callback arguments)) →
      Obeys rules (made + 1) (next (.made made)) → Obeys rules made (.wrap callback next)
  | register {made : Nat} {engine : EngineId} {name : String} {compile : List String → String}
      {evaluate : Scope → List Value → Action} {next : Bool → Action} :
      engine ∈ rules.registers →
      (engine ∈ rules.engines → ∀ later scope arguments, made ≤ later →
        scope.Within (rules.known later) →
        (∀ argument ∈ arguments, argument.Within (rules.known later)) →
        Obeys rules later (evaluate scope arguments)) →
      (∀ replaces, Obeys rules made (next replaces)) →
      Obeys rules made (.register engine name compile evaluate next)
  | load {made : Nat} {cell : CellId} {next : Value → Action} :
      (∀ value, value.Within (rules.known made) → Obeys rules made (next value)) →
      Obeys rules made (.load cell next)
  | store {made : Nat} {cell : CellId} {value : Value} {next : Action} :
      value.Within (rules.known made) → Obeys rules made next →
      Obeys rules made (.store cell value next)

/-- The function keeps to the rules whenever it is run from now on. -/
def HostFunction.Obeys (rules : Rules) (made : Nat) (function : HostFunction) : Prop :=
  ∀ later scope arguments, made ≤ later → scope.Within (rules.known later) →
    (∀ argument ∈ arguments, argument.Within (rules.known later)) →
    (function.evaluate scope arguments).Obeys rules later

/-- The closure is of an engine that may be used, or its callback keeps to the rules whenever it is
run from now on. -/
def Closure.Obeys (rules : Rules) (made : Nat) : Closure → Prop
  | arrow engine _ _ => engine ∈ rules.engines
  | host callback => ∀ later arguments, made ≤ later →
      (∀ argument ∈ arguments, argument.Within (rules.known later)) →
      (callback arguments).Obeys rules later

/-- All host code that is there keeps to the rules, and cells hold no callables beyond them. -/
structure World.Obeys (rules : Rules) (world : World) : Prop where
  first : rules.first ≤ world.closures.size
  functions : ∀ engine ∈ rules.engines, ∀ name function,
    (world.registry engine).find? name = some function →
      function.Obeys rules world.closures.size
  closures : rules.calls → ∀ id ∈ rules.known world.closures.size, ∀ closure,
    world.closure? id = some closure → closure.Obeys rules world.closures.size
  cells : ∀ cell, (world.load cell).Within (rules.known world.closures.size)

/-- What is done keeps to the rules. -/
def Effect.Obeys (rules : Rules) (world : World) : Effect → Prop
  | build => True
  | register engine function =>
    engine ∈ rules.registers ∧
      (engine ∈ rules.engines → function.Obeys rules world.closures.size)
  | construct closure => rules.calls → closure.Obeys rules world.closures.size
  | newCell value => value.Within (rules.known world.closures.size)
  | store _ value => value.Within (rules.known world.closures.size)
  | start (.function _ arguments) =>
    ∀ argument ∈ arguments, argument.Within (rules.known world.closures.size)
  | start (.closure id arguments) =>
    rules.calls ∧ id ∈ rules.known world.closures.size ∧
      ∀ argument ∈ arguments, argument.Within (rules.known world.closures.size)

/-- All that is done from the world on keeps to the rules. -/
def Rules.Kept (rules : Rules) : World → List Effect → Prop
  | _, [] => True
  | world, effect :: effects => effect.Obeys rules world ∧ rules.Kept (effect.apply world) effects

/-- The activity keeps to the rules, if it starts when so many callables have been made. -/
def Activity.Obeys (rules : Rules) (made : Nat) : Activity → Prop
  | evaluate engine scope _ => engine ∈ rules.engines ∧ scope.Within (rules.known made)
  | call id arguments =>
    rules.calls ∧ id ∈ rules.known made ∧
      ∀ argument ∈ arguments, argument.Within (rules.known made)
  | run function scope arguments =>
    function.Obeys rules made ∧ scope.Within (rules.known made) ∧
      ∀ argument ∈ arguments, argument.Within (rules.known made)
  | perform action => action.Obeys rules made

/-! ## Rules as more callables are made -/

namespace Rules

variable (rules : Rules)

theorem known_mono {made later : Nat} (le : made ≤ later) :
    rules.known made ⊆ rules.known later := by
  rintro id (isNoop | isHeld | ⟨index, same, from_, below⟩)
  · exact .inl isNoop
  · exact .inr (.inl isHeld)
  · exact .inr (.inr ⟨index, same, from_, below.trans_le le⟩)

theorem noop_known (made : Nat) : .noop ∈ rules.known made := .inl rfl

/-- The callable that is made next. -/
theorem made_known {made : Nat} (started : rules.first ≤ made) :
    .made made ∈ rules.known (made + 1) :=
  .inr (.inr ⟨made, rfl, started, made.lt_succ_self⟩)

/-- A value that host code may have when so many callables have been made. -/
def Permits (made : Nat) (value : Value) : Prop := value.Within (rules.known made)

/-- The next callable is the only one that is new. -/
theorem known_succ {made : Nat} {id : CallableId} (known : id ∈ rules.known (made + 1)) :
    id = .made made ∨ id ∈ rules.known made := by
  rcases known with isNoop | isHeld | ⟨index, rfl, from_, below⟩
  · exact .inr (.inl isNoop)
  · exact .inr (.inr (.inl isHeld))
  · rcases Nat.lt_succ_iff_lt_or_eq.mp below with earlier | rfl
    · exact .inr (.inr (.inr ⟨index, rfl, from_, earlier⟩))
    · exact .inl rfl

end Rules

theorem Scope.Within.mono {scope : Scope} {known more : Set CallableId}
    (within : scope.Within known) (sub : known ⊆ more) : scope.Within more :=
  fun name value found => (within name value found).mono sub

theorem Scope.within_empty (known : Set CallableId) : Scope.empty.Within known := by
  intro name value found
  rw [Scope.lookup?_empty] at found
  cases found

/-- The scope of a call holds what the arguments hold. -/
theorem Scope.within_ofList {parameters : List String} {arguments : List Value}
    {known : Set CallableId} (enough : parameters.length ≤ arguments.length)
    (within : ∀ argument ∈ arguments, argument.Within known) :
    (Scope.ofList (parameters.zip arguments)).Within known :=
  fun _ value found => within value ((bindsLast_ofList enough).mem_of_lookup? found)

theorem Outcome.within_of_plain {outcome : Outcome} {known : Set CallableId}
    (plain : outcome.Plain) : outcome.Within known := by
  rintro value rfl
  exact .of_plain plain

variable {rules : Rules}

theorem HostFunction.Obeys.mono {made later : Nat} {function : HostFunction}
    (obeys : function.Obeys rules made) (le : made ≤ later) : function.Obeys rules later :=
  fun last scope arguments further => obeys last scope arguments (le.trans further)

theorem Closure.Obeys.mono {made later : Nat} {closure : Closure}
    (obeys : closure.Obeys rules made) (le : made ≤ later) : closure.Obeys rules later := by
  cases closure with
  | arrow engine parameters body => exact obeys
  | host callback => exact fun last arguments further => obeys last arguments (le.trans further)

/-! ## Worlds that obey -/

/-- Where nothing is, all rules are kept. -/
theorem World.empty_obeys (fromStart : rules.first = 0) : World.empty.Obeys rules where
  first := fromStart.le
  functions engine _ name function found := by
    rw [empty.registry_of_absent (Nat.not_lt_zero _), Registry.find?_empty] at found
    cases found
  closures _ id _ closure found := by
    cases id with
    | noop => cases found
    | made index => cases found
  cells _ := nofun

namespace World.Obeys

variable {world : World} {effect : Effect} {effects : List Effect}

/-- What keeps to the rules keeps the world obeying. -/
theorem apply (obeys : world.Obeys rules) (effectObeys : effect.Obeys rules world) :
    (effect.apply world).Obeys rules := by
  have within : ∀ (cell : CellId) (made : Nat), world.closures.size ≤ made →
      (world.load cell).Within (rules.known made) :=
    fun cell made le => (obeys.cells cell).mono (rules.known_mono le)
  cases effect with
  | build =>
    refine ⟨obeys.first, fun engine there name function found => ?_, obeys.closures, obeys.cells⟩
    rw [Effect.apply, registry_addRegistry_empty] at found
    exact obeys.functions engine there name function found
  | register engine function =>
    refine ⟨obeys.first, fun other there name found seen => ?_, obeys.closures, obeys.cells⟩
    rw [Effect.apply, find?_register] at seen
    split at seen
    · next same =>
      obtain ⟨rfl, _⟩ := same
      cases seen
      exact effectObeys.2 there
    · exact obeys.functions other there name found seen
  | construct closure =>
    have more : (world.addClosure closure).2.closures.size = world.closures.size + 1 :=
      Array.size_push _
    have le := Nat.le_succ world.closures.size
    refine ⟨?_, fun engine there name function found => ?_, fun calls id known found seen => ?_,
      fun cell => ?_⟩
    · rw [Effect.apply, more]
      exact obeys.first.trans le
    · rw [Effect.apply, more]
      exact (obeys.functions engine there name function found).mono le
    · rw [Effect.apply, more] at known ⊢
      rcases rules.known_succ known with rfl | before
      · rw [Effect.apply, closure?_addClosure, if_pos rfl] at seen
        cases seen
        exact (effectObeys calls).mono le
      · cases id with
        | noop => cases seen
        | made index =>
          rw [Effect.apply, closure?_addClosure] at seen
          split at seen
          · cases seen
            exact (effectObeys calls).mono le
          · exact (obeys.closures calls _ before found seen).mono le
    · rw [Effect.apply, more]
      exact within cell _ le
  | newCell value =>
    refine ⟨obeys.first, obeys.functions, obeys.closures, fun cell => ?_⟩
    rw [Effect.apply, load, addCell, Array.getElem?_push]
    split
    · exact effectObeys
    · exact obeys.cells cell
  | store cell value =>
    refine ⟨obeys.first, obeys.functions, obeys.closures, fun other => ?_⟩
    rw [Effect.apply, load_store]
    split
    · exact effectObeys
    · exact obeys.cells other
  | start event => exact ⟨obeys.first, obeys.functions, obeys.closures, obeys.cells⟩

theorem after (obeys : world.Obeys rules) (kept : rules.Kept world effects) :
    (world.after effects).Obeys rules := by
  induction effects generalizing world with
  | nil => exact obeys
  | cons effect rest ih => exact ih (obeys.apply kept.1) kept.2

end World.Obeys

theorem Rules.kept_append {world : World} {effects others : List Effect} :
    rules.Kept world (effects ++ others) ↔
      rules.Kept world effects ∧ rules.Kept (world.after effects) others := by
  induction effects generalizing world with
  | nil => exact (iff_of_eq (true_and _)).symm
  | cons effect rest ih => exact (and_congr_right' ih).trans and_assoc.symm

/-- Each thing that is done keeps to the rules in the world that it is done in. -/
theorem Rules.Kept.obeys_of_mem {world : World} {effects : List Effect}
    (kept : rules.Kept world effects) {effect : Effect} (there : effect ∈ effects) :
    ∃ world, effect.Obeys rules world := by
  induction effects generalizing world with
  | nil => cases there
  | cons first rest ih =>
    rcases List.mem_cons.mp there with rfl | later
    · exact ⟨world, kept.1⟩
    · exact ih kept.2 later

/-- Nothing is registered where the rules do not allow it. -/
theorem Rules.Kept.not_register {world : World} {effects : List Effect}
    (kept : rules.Kept world effects) {engine : EngineId} (forbidden : engine ∉ rules.registers)
    (function : HostFunction) : .register engine function ∉ effects := by
  intro there
  obtain ⟨_, allowed, _⟩ := kept.obeys_of_mem there
  exact forbidden allowed

/-- No closure is started if the rules allow no calls. -/
theorem Rules.Kept.not_start {world : World} {effects : List Effect}
    (kept : rules.Kept world effects) (forbidden : ¬rules.calls) (id : CallableId)
    (arguments : List Value) : .start (.closure id arguments) ∉ effects := by
  intro there
  obtain ⟨_, allowed, _⟩ := kept.obeys_of_mem there
  exact forbidden allowed

/-! ## Runs that conform -/

/-- What the run does keeps to the rules, and a value that it ends in is `good` for the number of
callables that have been made by then. -/
structure Conforms {α : Type} (rules : Rules) (good : Nat → α → Prop) (world : World)
    (run : EvalM α) (effects : Effects) : Prop where
  kept : rules.Kept world (effects world)
  ends : Ends run world fun outcome left => ∀ a, outcome = .ok a → good left.closures.size a

namespace Conforms

variable {α β : Type} {good : Nat → α → Prop} {better : Nat → β → Prop} {world : World}

theorem pure {a : α} (fine : good world.closures.size a) :
    Conforms rules good world (Pure.pure a) Effects.none :=
  ⟨trivial, .of_yields (run_pure world a) fun _ same => Except.ok.inj same ▸ fine⟩

theorem throw (error : EvalError) {good : Nat → Value → Prop} :
    Conforms rules good world (MonadExcept.throw error) Effects.none :=
  ⟨trivial, .of_yields (run_throw world error) nofun⟩

theorem ofOutcome {outcome : Outcome} (within : outcome.Within (rules.known world.closures.size)) :
    Conforms rules rules.Permits world (EvalM.ofOutcome outcome) Effects.none :=
  ⟨trivial, .of_yields (run_ofOutcome world outcome) within⟩

theorem attempt {run : EvalM Value} {effects : Effects}
    (conforms : Conforms rules rules.Permits world run effects) :
    Conforms rules (fun made outcome => Outcome.Within outcome (rules.known made)) world
      (EvalM.attempt run) effects :=
  ⟨conforms.kept,
    .attempt (conforms.ends.mono fun _ _ within _ same => Except.ok.inj same ▸ within)⟩

/-- A question is put first. -/
theorem ask {first : EvalM α} {a : α} {f : α → EvalM β} {next : α → Effects}
    (asked : Yields first world (.ok a) world) (rest : Conforms rules better world (f a) (next a)) :
    Conforms rules better world (first >>= f) (Effects.bind first Effects.none next) := by
  refine ⟨?_, .bind (.of_yields asked rest.ends)⟩
  rw [Effects.bind_of_yields asked]
  exact rest.kept

/-- One thing is done first. -/
theorem step {first : EvalM α} {effect : Effect} {a : α} {f : α → EvalM β} {next : α → Effects}
    (effectObeys : effect.Obeys rules world)
    (ran : Yields first world (.ok a) (effect.apply world))
    (rest : Conforms rules better (effect.apply world) (f a) (next a)) :
    Conforms rules better world (first >>= f) (Effects.bind first (Effects.just effect) next) := by
  refine ⟨?_, .bind (.of_yields ran rest.ends)⟩
  rw [Effects.bind_of_yields ran]
  exact ⟨effectObeys, rest.kept⟩

theorem bind {first : EvalM α} {effects : Effects} {f : α → EvalM β} {next : α → Effects}
    (accounted : Accounted first effects) (obeys : world.Obeys rules)
    (conforms : Conforms rules good world first effects)
    (rest : ∀ a left, left.Obeys rules → world.closures.size ≤ left.closures.size →
      good left.closures.size a → Conforms rules better left (f a) (next a)) :
    Conforms rules better world (first >>= f) (Effects.bind first effects next) := by
  have goesOn : ∀ a left, Yields first world (.ok a) left → left = world.after (effects world) ∧
      Conforms rules better left (f a) (next a) := by
    intro a left ran
    have reached := accounted world _ left ran
    have leftObeys := obeys.after conforms.kept
    have more := Nat.le.intro (world.size_closures_after (effects world)).symm
    rw [← reached] at leftObeys more
    exact ⟨reached, rest a left leftObeys more (conforms.ends _ left ran a rfl)⟩
  constructor
  · cases ran : ExceptT.run first world with
    | none =>
      rw [Effects.bind_of_stuck ran]
      exact conforms.kept
    | some result =>
      obtain ⟨outcome, left⟩ := result
      cases outcome with
      | ok a =>
        obtain ⟨reached, further⟩ := goesOn a left ran
        rw [Effects.bind_of_yields ran, Rules.kept_append, ← reached]
        exact ⟨conforms.kept, further.kept⟩
      | error error =>
        rw [Effects.bind_of_error ran]
        exact conforms.kept
  · refine .bind fun outcome left ran => ?_
    cases outcome with
    | ok a => exact (goesOn a left ran).2.ends
    | error error => exact nofun

/-- Nothing is done next. -/
theorem then_quiet {first : EvalM α} {effects : Effects} {f : α → EvalM β}
    (accounted : Accounted first effects) (obeys : world.Obeys rules)
    (conforms : Conforms rules good world first effects)
    (rest : ∀ a left, world.closures.size ≤ left.closures.size → good left.closures.size a →
      Conforms rules better left (f a) Effects.none) :
    Conforms rules better world (first >>= f) effects := by
  rw [← Effects.bind_none first effects]
  exact conforms.bind accounted obeys fun a left _ more fine => rest a left more fine

/-- Several runs, one after the other. -/
theorem mapM {f : α → EvalM Value} {effects : α → Effects} (items : List α)
    (accounted : ∀ item, Accounted (f item) (effects item)) (obeys : world.Obeys rules)
    (conforms : ∀ item left, left.Obeys rules → world.closures.size ≤ left.closures.size →
      Conforms rules rules.Permits left (f item) (effects item)) :
    Conforms rules (fun made values => ∀ value ∈ values, rules.Permits made value) world
      (items.mapM f) (Effects.each f effects items) := by
  induction items generalizing world with
  | nil => exact pure nofun
  | cons item rest ih =>
    rw [List.mapM_cons]
    refine (conforms item world obeys le_rfl).bind (accounted item) obeys ?_
    intro value left leftObeys more fine
    have others := ih leftObeys fun item later laterObeys further =>
      conforms item later laterObeys (more.trans further)
    refine others.then_quiet (.mapM rest accounted) leftObeys ?_
    intro values last further allFine
    exact pure (List.forall_mem_cons.mpr ⟨fine.mono (rules.known_mono further), allFine⟩)

end Conforms

/-! ## The interpreter conforms -/

/-- What is evaluated and called inside conforms. -/
structure Interpreter.Conforms (inner : Interpreter) (account : Account) (rules : Rules) :
    Prop where
  evaluate : ∀ {engine scope node world}, world.Obeys rules → engine ∈ rules.engines →
    scope.Within (rules.known world.closures.size) →
    ArrowExpr.Conforms rules rules.Permits world (inner.evaluate engine scope node)
      (account.evaluate engine scope node)
  call : ∀ {id arguments world}, world.Obeys rules → rules.calls →
    id ∈ rules.known world.closures.size →
    (∀ argument ∈ arguments, rules.Permits world.closures.size argument) →
    ArrowExpr.Conforms rules rules.Permits world (inner.call id arguments)
      (account.call id arguments)

namespace Conforms

variable {inner : Interpreter} {account : Account} {world : World}

theorem perform (tells : account.Tells inner) (conforms : inner.Conforms account rules) {made : Nat}
    {action : Action} (actionObeys : action.Obeys rules made) (obeys : world.Obeys rules)
    (here : world.closures.size = made) :
    Conforms rules rules.Permits world (inner.perform action)
      (inner.performEffects account action) := by
  induction actionObeys generalizing world with
  | done within => exact ofOutcome (here ▸ within)
  | @call made id arguments next calls known within _ ih =>
    subst here
    refine (conforms.call obeys calls known within).attempt.bind (tells.call id arguments).attempt
      obeys ?_
    exact fun outcome left leftObeys more fine => ih _ outcome more fine leftObeys rfl
  | @evaluate made engine scope node next there within _ ih =>
    subst here
    refine (conforms.evaluate obeys there within).attempt.bind
      (tells.evaluate engine scope node).attempt obeys ?_
    exact fun outcome left leftObeys more fine => ih _ outcome more fine leftObeys rfl
  | @wrap made callback next callbackObeys _ _ ih =>
    subst here
    have effectObeys : (Effect.construct (.host callback)).Obeys rules world := callbackObeys
    exact .step effectObeys (run_make world _) (ih (obeys.apply effectObeys) (Array.size_push _))
  | @register made engine name compile evaluate next there functionObeys _ _ ih =>
    subst here
    have effectObeys : (Effect.register engine ⟨name, compile, evaluate⟩).Obeys rules world :=
      ⟨there, functionObeys⟩
    refine .ask (run_ask world _) (.step effectObeys (run_update world _) ?_)
    exact ih _ (obeys.apply effectObeys) rfl
  | @load made cell next _ ih =>
    subst here
    exact .ask (run_ask world _) (ih _ (obeys.cells cell) obeys rfl)
  | @store made cell value next within _ ih =>
    subst here
    have effectObeys : (Effect.store cell value).Obeys rules world := within
    exact .step effectObeys (run_update world _) (ih (obeys.apply effectObeys) rfl)

theorem run (tells : account.Tells inner) (conforms : inner.Conforms account rules)
    {function : HostFunction} {scope : Scope} {arguments : List Value} (obeys : world.Obeys rules)
    (functionObeys : function.Obeys rules world.closures.size)
    (scopeWithin : scope.Within (rules.known world.closures.size))
    (within : ∀ argument ∈ arguments, rules.Permits world.closures.size argument) :
    Conforms rules rules.Permits world (inner.run function scope arguments)
      (inner.runEffects account function scope arguments) := by
  have effectObeys : (Effect.start (.function function arguments)).Obeys rules world := within
  refine .step effectObeys (run_update world _) ?_
  exact perform tells conforms (functionObeys _ scope arguments le_rfl scopeWithin within)
    (obeys.apply effectObeys) rfl

theorem evaluateNode (tells : account.Tells inner) (conforms : inner.Conforms account rules)
    {engine : EngineId} {scope : Scope} {node : Node} (obeys : world.Obeys rules)
    (there : engine ∈ rules.engines) (within : scope.Within (rules.known world.closures.size)) :
    Conforms rules rules.Permits world (inner.evaluateNode engine scope node)
      (inner.nodeEffects account engine scope node) := by
  have accounted := tells.evaluate engine scope
  have later : ∀ child left, left.Obeys rules → world.closures.size ≤ left.closures.size →
      Conforms rules rules.Permits left (inner.evaluate engine scope child)
        (account.evaluate engine scope child) :=
    fun child left leftObeys more =>
      conforms.evaluate leftObeys there (within.mono (rules.known_mono more))
  cases node with
  | constant literal =>
    exact pure fun id holds => absurd holds (Value.ofLiteral_not_holds literal id)
  | name x =>
    cases found : scope.lookup? x with
    | some value =>
      simp only [Interpreter.evaluateNode, found]
      exact pure (within x value found)
    | none =>
      simp only [Interpreter.evaluateNode, found]
      exact throw _
  | unary op operand =>
    refine (later operand world obeys le_rfl).then_quiet (accounted operand) obeys ?_
    exact fun value left _ _ => ofOutcome (Outcome.within_of_plain (op.apply_plain value))
  | binary op left right =>
    refine (later left world obeys le_rfl).bind (accounted left) obeys ?_
    intro value middle middleObeys more _
    split
    · exact pure (Value.Within.bool _)
    · refine (later right middle middleObeys more).then_quiet (accounted right) middleObeys ?_
      exact fun other last _ _ => ofOutcome (Outcome.within_of_plain (op.apply_plain value other))
  | call name arguments =>
    rw [Interpreter.evaluateNode, Interpreter.nodeEffects]
    refine .ask (run_ask world _) ?_
    cases found : (world.registry engine).find? name with
    | none => exact throw _
    | some function =>
      have functionObeys := obeys.functions engine there name function found
      refine (mapM arguments accounted obeys later).bind (.mapM arguments accounted) obeys ?_
      intro values left leftObeys more fine
      exact run tells conforms leftObeys (functionObeys.mono more)
        (within.mono (rules.known_mono more)) fine
  | list items =>
    refine (mapM items accounted obeys later).then_quiet (.mapM items accounted) obeys ?_
    exact fun values left _ fine => pure (Value.Within.list fine)
  | arrow parameters body =>
    cases body with
    | none => exact pure (Value.Within.callable (rules.noop_known _))
    | some body =>
      have effectObeys : (Effect.construct (.arrow engine parameters body)).Obeys rules world :=
        fun _ => there
      have made : .made world.closures.size ∈
          rules.known (world.addClosure (.arrow engine parameters body)).2.closures.size := by
        rw [World.addClosure, Array.size_push]
        exact rules.made_known obeys.first
      refine ⟨⟨effectObeys, trivial⟩, .bind (.of_yields (run_make world _) ?_)⟩
      exact .of_yields (run_pure _ _) fun _ same =>
        Except.ok.inj same ▸ Value.Within.callable made

theorem callClosure (tells : account.Tells inner) (conforms : inner.Conforms account rules)
    {id : CallableId} {arguments : List Value} (obeys : world.Obeys rules) (calls : rules.calls)
    (known : id ∈ rules.known world.closures.size)
    (within : ∀ argument ∈ arguments, rules.Permits world.closures.size argument) :
    Conforms rules rules.Permits world (inner.callClosure id arguments)
      (inner.closureEffects account id arguments) := by
  have effectObeys : (Effect.start (.closure id arguments)).Obeys rules world :=
    ⟨calls, known, within⟩
  have noted := obeys.apply effectObeys
  rw [Interpreter.callClosure, Interpreter.closureEffects]
  refine .ask (run_ask world _) ?_
  cases found : world.closure? id with
  | none => exact pure Value.Within.null
  | some closure =>
    have closureObeys := obeys.closures calls id known closure found
    cases closure with
    | arrow engine parameters body =>
      by_cases few : arguments.length < parameters.length
      · simp only [if_pos few]
        exact throw _
      · simp only [if_neg few]
        refine .step effectObeys (run_update world _) ?_
        exact conforms.evaluate noted closureObeys (Scope.within_ofList (Nat.not_lt.mp few) within)
    | host callback =>
      refine .step effectObeys (run_update world _) ?_
      exact perform tells conforms (closureObeys _ arguments le_rfl within) noted rfl

end Conforms

theorem Interpreter.ofDepth_conforms (rules : Rules) (depth : Nat) :
    (Interpreter.ofDepth depth).Conforms (.ofDepth depth) rules := by
  have tells := Account.ofDepth_tells
  induction depth with
  | zero =>
    exact ⟨fun _ _ _ => ⟨trivial, .outOfDepth⟩, fun _ _ _ _ => ⟨trivial, .outOfDepth⟩⟩
  | succ depth ih =>
    exact ⟨Conforms.evaluateNode (tells depth) ih, Conforms.callClosure (tells depth) ih⟩

/-- If the host code that is there keeps to the rules, then so does all that an activity does, and
no value that it ends in holds any other callables. -/
theorem Activity.conforms (depth : Nat) {activity : Activity} {world : World}
    (obeys : world.Obeys rules) (activityObeys : activity.Obeys rules world.closures.size) :
    Conforms rules rules.Permits world (activity.start (.ofDepth depth))
      (activity.effects depth) := by
  have inner := Interpreter.ofDepth_conforms rules depth
  have tells := Account.ofDepth_tells depth
  cases activity with
  | evaluate engine scope node => exact inner.evaluate obeys activityObeys.1 activityObeys.2
  | call id arguments =>
    exact inner.call obeys activityObeys.1 activityObeys.2.1 activityObeys.2.2
  | run function scope arguments =>
    exact Conforms.run tells inner obeys activityObeys.1 activityObeys.2.1 activityObeys.2.2
  | perform action => exact Conforms.perform tells inner activityObeys obeys rfl

/-! ## Builtins -/

namespace Builtins

/-- What picks one of its arguments keeps to all rules. -/
theorem extreme_obeys (rules : Rules) (made : Nat) (name : String) (op : BinaryOp) :
    (HostFunction.plain name fun arguments => .done (extreme name op arguments)).Obeys rules made :=
  fun _ _ _ _ _ within => .done fun value found => within value (extreme_mem found)

theorem mapItems_obeys (calls : rules.calls) {id : CallableId} {done items : List Value}
    {made : Nat} (known : id ∈ rules.known made)
    (doneWithin : ∀ value ∈ done, value.Within (rules.known made))
    (within : ∀ item ∈ items, item.Within (rules.known made)) :
    (mapItems id done items).Obeys rules made := by
  induction items generalizing done made with
  | nil =>
    refine .done fun value same => Except.ok.inj same ▸ Value.Within.list fun item there => ?_
    exact doneWithin item (List.mem_reverse.mp there)
  | cons item rest ih =>
    rw [List.forall_mem_cons] at within
    have argumentWithin : ∀ argument ∈ [item], argument.Within (rules.known made) :=
      List.forall_mem_singleton.mpr within.1
    refine .call calls known argumentWithin fun later outcome le outcomeWithin => ?_
    have sub := rules.known_mono le
    cases outcome with
    | error error => exact .done nofun
    | ok value =>
      refine ih (sub known) ?_ fun other there => (within.2 other there).mono sub
      exact List.forall_mem_cons.mpr
        ⟨outcomeWithin value rfl, fun other there => (doneWithin other there).mono sub⟩

theorem mapAction_obeys (calls : rules.calls) {arguments : List Value} {made : Nat}
    (within : ∀ argument ∈ arguments, argument.Within (rules.known made)) :
    (mapAction arguments).Obeys rules made := by
  unfold mapAction
  split
  · next items id =>
    have listWithin := within (.list items) List.mem_cons_self
    have known := within (.callable id) (List.mem_cons_of_mem _ List.mem_cons_self) id .self
    exact mapItems_obeys calls known nofun listWithin.items
  · exact .done nofun
  · exact .done nofun

/-- Builtins keep to all rules under which callables may be called. -/
theorem obeys (calls : rules.calls) (made : Nat) {function : HostFunction}
    (builtin : function ∈ all) : function.Obeys rules made := by
  simp only [all, List.mem_cons, List.not_mem_nil, or_false] at builtin
  rcases builtin with rfl | rfl | rfl
  · exact extreme_obeys rules made "min" .lt
  · exact extreme_obeys rules made "max" .gt
  · exact fun _ _ _ _ _ within => mapAction_obeys calls within

end Builtins

end ArrowExpr
