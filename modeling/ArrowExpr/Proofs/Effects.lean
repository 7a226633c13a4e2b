import ArrowExpr.Proofs.Histories
/-!
# What runs do, in order

A run does one thing after the other to the world (`Effect`). `Moment.effects` lists them for an
evaluation, a call or host code that starts in a given world. It follows the interpreter form by
form and takes the results in between from the interpreter itself.

1. `Moment.EndsWith.world`: the world that is left is the one at the start after these effects.
2. `Starts.effects`: the effects of whatever starts in the course of a run stand in one piece among
   those of the run, and it starts in the world after the effects in front of them.

A run that does not end within its depth has effects too: those up to where it got. So a statement
about all first parts of the effects is one about all worlds that the run comes through.
-/

namespace ArrowExpr

open EvalM

/-! ## Effects -/

/-- One thing that is done to the world. -/
inductive Effect where
  /-- A new engine, which has no functions yet. -/
  | build
  | register (engine : EngineId) (function : HostFunction)
  /-- A new callable. -/
  | construct (closure : Closure)
  | newCell (value : Value)
  | store (cell : CellId) (value : Value)
  /-- The start of a body. -/
  | start (event : Event)

/-- The world with this done. -/
def Effect.apply (world : World) : Effect → World
  | build => (world.addRegistry .empty).2
  | register engine function => world.updateRegistry engine (·.insert function)
  | construct closure => (world.addClosure closure).2
  | newCell value => (world.addCell value).2
  | store cell value => world.store cell value
  | start event => world.record event

theorem Effect.change (world : World) (effect : Effect) : Change world (effect.apply world) := by
  cases effect with
  | build => exact .registry .empty
  | register engine function => exact .function engine function
  | construct closure => exact .closure closure
  | newCell value => exact .cell value
  | store cell value => exact .store cell value
  | start event => exact .event event

/-- An engine is built. -/
def Effect.builds : Effect → Bool
  | build => true
  | _ => false

/-- A callable is made. -/
def Effect.constructs : Effect → Bool
  | construct _ => true
  | _ => false

namespace World

/-- The world with all this done, one after the other. -/
def after (world : World) (effects : List Effect) : World := effects.foldl Effect.apply world

variable (world : World)

@[simp] theorem after_cons (effect : Effect) (effects : List Effect) :
    world.after (effect :: effects) = (effect.apply world).after effects := rfl

@[simp] theorem after_append (effects others : List Effect) :
    world.after (effects ++ others) = (world.after effects).after others :=
  List.foldl_append

theorem later_after (effects : List Effect) : Later world (world.after effects) := by
  induction effects generalizing world with
  | nil => exact .refl world
  | cons effect rest ih => exact (Later.single (effect.change world)).trans (ih _)

/-- Only building makes engines. -/
theorem size_registries_after (effects : List Effect) :
    (world.after effects).registries.size =
      world.registries.size + effects.countP Effect.builds := by
  induction effects generalizing world with
  | nil => rfl
  | cons effect rest ih =>
    rw [after_cons, ih, List.countP_cons]
    cases effect with
    | build =>
      rw [Effect.apply, addRegistry, Array.size_push, Effect.builds, if_pos rfl]
      omega
    | register engine function =>
      rw [Effect.apply, updateRegistry, Array.size_modify]
      rfl
    | _ => rfl

/-- Only constructing makes callables. -/
theorem size_closures_after (effects : List Effect) :
    (world.after effects).closures.size =
      world.closures.size + effects.countP Effect.constructs := by
  induction effects generalizing world with
  | nil => rfl
  | cons effect rest ih =>
    rw [after_cons, ih, List.countP_cons]
    cases effect with
    | construct closure =>
      rw [Effect.apply, addClosure, Array.size_push, Effect.constructs, if_pos rfl]
      omega
    | _ => rfl

/-- An engine that is not there has no functions. -/
theorem registry_of_absent {engine : EngineId} (absent : ¬engine.index < world.registries.size) :
    world.registry engine = .empty := by
  rw [registry, Array.getElem?_eq_none (Nat.not_lt.mp absent)]
  rfl

theorem registry_addRegistry (registry : Registry) (engine : EngineId) :
    (world.addRegistry registry).2.registry engine =
      if engine.index = world.registries.size then registry else world.registry engine := by
  rw [World.registry, addRegistry, Array.getElem?_push]
  split
  · rfl
  · rfl

/-- A new engine has no functions, as one that is not there. -/
theorem registry_addRegistry_empty (engine : EngineId) :
    (world.addRegistry .empty).2.registry engine = world.registry engine := by
  rw [registry_addRegistry]
  split
  · next last =>
    rw [world.registry_of_absent (Nat.not_lt.mpr (Nat.le_of_eq last.symm))]
  · rfl

/-- A registration is seen by engines that are there, under one name. -/
theorem find?_register (engine other : EngineId) (function : HostFunction) (name : String) :
    ((world.updateRegistry other (·.insert function)).registry engine).find? name =
      if other = engine ∧ engine.index < world.registries.size ∧ function.name = name then
        some function
      else (world.registry engine).find? name := by
  cases engine with | mk index =>
  cases other with | mk otherIndex =>
  simp only [registry, updateRegistry, Array.getElem?_modify, EngineId.mk.injEq]
  by_cases same : otherIndex = index
  · rw [if_pos same]
    cases there : world.registries[index]? with
    | none =>
      have outside := Array.getElem?_eq_none_iff.mp there
      rw [if_neg fun seen => Nat.not_lt.mpr outside seen.2.1]
      rfl
    | some functions =>
      have inside := (Array.getElem?_eq_some_iff.mp there).1
      simp only [Option.map_some, Option.getD_some, Registry.find?_insert, same, inside, true_and]
  · rw [if_neg same, if_neg fun seen => same seen.1]

/-- A function that an engine has after the effects was registered among them, or was there before.
-/
theorem registered_or_before {world : World} {effects : List Effect} {engine : EngineId}
    {name : String} {function : HostFunction}
    (found : ((world.after effects).registry engine).find? name = some function) :
    Effect.register engine function ∈ effects ∨
      (world.registry engine).find? name = some function := by
  induction effects generalizing world with
  | nil => exact .inr found
  | cons effect rest ih =>
    rcases ih found with later | here
    · exact .inl (List.mem_cons_of_mem _ later)
    · cases effect with
      | build =>
        rw [Effect.apply, registry_addRegistry_empty] at here
        exact .inr here
      | register other new =>
        rw [Effect.apply, find?_register] at here
        split at here
        · next seen =>
          obtain ⟨rfl, _, _⟩ := seen
          cases here
          exact .inl List.mem_cons_self
        · exact .inr here
      | _ => exact .inr here

end World

/-- The effects of a run, by the world that it starts in. -/
abbrev Effects := World → List Effect

namespace Effects

variable {α β : Type}

/-- Nothing is done. -/
def none : Effects := fun _ => []

/-- The same is done in every world. -/
def just (effect : Effect) : Effects := fun _ => [effect]

/-- The effects of a run and of what follows it; nothing follows if the run fails. -/
def bind (run : EvalM α) (effects : Effects) (next : α → Effects) : Effects := fun world =>
  effects world ++
    match ExceptT.run run world with
    | some (.ok a, left) => next a left
    | _ => []

/-- The effects of one run for each item, up to the first that fails. -/
def each (run : α → EvalM β) (effects : α → Effects) : List α → Effects
  | [] => none
  | item :: rest => bind (run item) (effects item) fun _ => each run effects rest

end Effects

/-! ## The effects of evaluations, calls and host code -/

/-- The effects of what an interpreter evaluates and calls. -/
structure Account where
  evaluate : EngineId → Scope → Node → Effects
  call : CallableId → List Value → Effects

namespace Interpreter

variable (inner : Interpreter) (account : Account)

/-- The effects of a run of host code. -/
def performEffects : Action → Effects
  | .done _ => Effects.none
  | .call id arguments next =>
    Effects.bind (attempt (inner.call id arguments)) (account.call id arguments) fun outcome =>
      performEffects (next outcome)
  | .evaluate engine scope node next =>
    Effects.bind (attempt (inner.evaluate engine scope node)) (account.evaluate engine scope node)
      fun outcome => performEffects (next outcome)
  | .wrap callback next =>
    Effects.bind (make (·.addClosure (.host callback))) (Effects.just (.construct (.host callback)))
      fun id => performEffects (next id)
  | .register engine name compile evaluate next =>
    Effects.bind (ask fun world => (world.registry engine).contains name) Effects.none
      fun replaces =>
        Effects.bind (update (·.updateRegistry engine (·.insert ⟨name, compile, evaluate⟩)))
          (Effects.just (.register engine ⟨name, compile, evaluate⟩)) fun _ =>
            performEffects (next replaces)
  | .load cell next =>
    Effects.bind (ask (·.load cell)) Effects.none fun value => performEffects (next value)
  | .store cell value next =>
    Effects.bind (update (·.store cell value)) (Effects.just (.store cell value)) fun _ =>
      performEffects next

/-- The effects of a registered function. -/
def runEffects (function : HostFunction) (scope : Scope) (arguments : List Value) : Effects :=
  Effects.bind (update (·.record (.function function arguments)))
    (Effects.just (.start (.function function arguments))) fun _ =>
      inner.performEffects account (function.evaluate scope arguments)

/-- The effects of an evaluation. -/
def nodeEffects (engine : EngineId) (scope : Scope) : Node → Effects
  | .constant _ => Effects.none
  | .name _ => Effects.none
  | .unary _ operand => account.evaluate engine scope operand
  | .binary op left right =>
    Effects.bind (inner.evaluate engine scope left) (account.evaluate engine scope left)
      fun value =>
        if op.isShortCircuit && value.isTruthy == (op == .or) then Effects.none
        else account.evaluate engine scope right
  | .call name arguments =>
    Effects.bind (ask (·.registry engine)) Effects.none fun registry =>
      match registry.find? name with
      | some function =>
        Effects.bind (arguments.mapM (inner.evaluate engine scope))
          (Effects.each (inner.evaluate engine scope) (account.evaluate engine scope) arguments)
          fun values => inner.runEffects account function scope values
      | none => Effects.none
  | .list items =>
    Effects.each (inner.evaluate engine scope) (account.evaluate engine scope) items
  | .arrow _ none => Effects.none
  | .arrow parameters (some body) => Effects.just (.construct (.arrow engine parameters body))

/-- The effects of a call. -/
def closureEffects (id : CallableId) (arguments : List Value) : Effects :=
  Effects.bind (ask (·.closure? id)) Effects.none fun closure =>
    match closure with
    | none => Effects.none
    | some (.arrow engine parameters body) =>
      if arguments.length < parameters.length then Effects.none
      else
        Effects.bind (update (·.record (.closure id arguments)))
          (Effects.just (.start (.closure id arguments))) fun _ =>
            account.evaluate engine (.ofList (parameters.zip arguments)) body
    | some (.host callback) =>
      Effects.bind (update (·.record (.closure id arguments)))
        (Effects.just (.start (.closure id arguments))) fun _ =>
          inner.performEffects account (callback arguments)

end Interpreter

mutual

/-- The effects of an evaluation, with at most `depth` evaluations and calls inside each other. -/
def evaluationEffects : Nat → EngineId → Scope → Node → Effects
  | 0, _, _, _ => Effects.none
  | depth + 1, engine, scope, node =>
    (Interpreter.ofDepth depth).nodeEffects ⟨evaluationEffects depth, callEffects depth⟩ engine
      scope node

/-- The effects of a call, with at most `depth` evaluations and calls inside each other. -/
def callEffects : Nat → CallableId → List Value → Effects
  | 0, _, _ => Effects.none
  | depth + 1, id, arguments =>
    (Interpreter.ofDepth depth).closureEffects ⟨evaluationEffects depth, callEffects depth⟩ id
      arguments

end

/-- The effects of what the interpreter of a given depth evaluates and calls. -/
def Account.ofDepth (depth : Nat) : Account := ⟨evaluationEffects depth, callEffects depth⟩

/-- The effects of an activity, by the world that it starts in. -/
def Activity.effects (depth : Nat) : Activity → Effects
  | evaluate engine scope node => evaluationEffects depth engine scope node
  | call id arguments => callEffects depth id arguments
  | run function scope arguments =>
    (Interpreter.ofDepth depth).runEffects (.ofDepth depth) function scope arguments
  | perform action => (Interpreter.ofDepth depth).performEffects (.ofDepth depth) action

/-- What the activity does from here on, up to its end or to where its depth does not suffice. -/
def Moment.effects (moment : Moment) : List Effect :=
  moment.activity.effects moment.depth moment.world

/-! ## The effects account for the world that is left -/

/-- Wherever the run ends, the world that is left is the one at the start after the effects. -/
def Accounted {α : Type} (run : EvalM α) (effects : Effects) : Prop :=
  ∀ world, Ends run world fun _ left => left = world.after (effects world)

/-- The account tells the effects of what the interpreter evaluates and calls. -/
structure Account.Tells (account : Account) (inner : Interpreter) : Prop where
  evaluate : ∀ engine scope node,
    Accounted (inner.evaluate engine scope node) (account.evaluate engine scope node)
  call : ∀ id arguments, Accounted (inner.call id arguments) (account.call id arguments)

namespace Effects

variable {α β : Type} {run : EvalM α} {effects : Effects} {next : α → Effects} {world left : World}

theorem bind_of_yields {a : α} (ran : Yields run world (.ok a) left) :
    bind run effects next world = effects world ++ next a left := by
  rw [Yields] at ran
  rw [bind, ran]

@[simp] theorem bind_ask (view : World → α) (world : World) :
    bind (ask view) none next world = next (view world) world := rfl

@[simp] theorem bind_update (change : World → World) (effect : Effect) (next : Unit → Effects)
    (world : World) :
    bind (update change) (just effect) next world = effect :: next () (change world) := rfl

@[simp] theorem bind_make (step : World → α × World) (effect : Effect) (world : World) :
    bind (make step) (just effect) next world =
      effect :: next (step world).1 (step world).2 := rfl

theorem bind_of_error {error : EvalError} (ran : Yields run world (.error error) left) :
    bind run effects next world = effects world := by
  rw [Yields] at ran
  rw [bind, ran, List.append_nil]

theorem bind_of_stuck (stuck : ExceptT.run run world = .none) :
    bind run effects next world = effects world := by
  rw [bind, stuck, List.append_nil]

/-- If nothing is done next, the effects are those of the run. -/
theorem bind_none (run : EvalM α) (effects : Effects) :
    bind run effects (fun _ => none) = effects := by
  funext world
  cases ran : ExceptT.run run world with
  | none => exact bind_of_stuck ran
  | some result =>
    obtain ⟨outcome, left⟩ := result
    cases outcome with
    | ok a => exact (bind_of_yields ran).trans (List.append_nil _)
    | error error => exact bind_of_error ran

end Effects

/-- With enough arguments the effects of a call are its start and those of the body. -/
theorem callEffects_enough {id : CallableId} {engine : EngineId} {parameters : List String}
    {body : Node} {world : World} {arguments : List Value}
    (found : world.closure? id = some (.arrow engine parameters body))
    (enough : parameters.length ≤ arguments.length) (depth : Nat) :
    callEffects (depth + 1) id arguments world = .start (.closure id arguments) ::
      evaluationEffects depth engine (.ofList (parameters.zip arguments)) body
        (world.record (.closure id arguments)) := by
  simp only [callEffects, Interpreter.closureEffects, Effects.bind_ask, found,
    if_neg (Nat.not_lt.mpr enough), Effects.bind_update]

namespace Accounted

variable {α β : Type}

theorem pure (a : α) : Accounted (Pure.pure a) Effects.none :=
  fun world => .of_yields (run_pure world a) rfl

theorem throw (error : EvalError) :
    Accounted (MonadExcept.throw error : EvalM Value) Effects.none :=
  fun world => .of_yields (run_throw world error) rfl

theorem ofOutcome (outcome : Outcome) : Accounted (EvalM.ofOutcome outcome) Effects.none :=
  fun world => .of_yields (run_ofOutcome world outcome) rfl

theorem ask (view : World → α) : Accounted (EvalM.ask view) Effects.none :=
  fun world => .of_yields (run_ask world view) rfl

theorem update (effect : Effect) : Accounted (EvalM.update effect.apply) (Effects.just effect) :=
  fun world => .of_yields (run_update world _) rfl

theorem construct (closure : Closure) :
    Accounted (EvalM.make (·.addClosure closure)) (Effects.just (.construct closure)) :=
  fun world => .of_yields (run_make world _) rfl

theorem attempt {run : EvalM Value} {effects : Effects} (accounted : Accounted run effects) :
    Accounted (EvalM.attempt run) effects :=
  fun world => .attempt (accounted world)

theorem bind {first : EvalM α} {effects : Effects} {f : α → EvalM β} {next : α → Effects}
    (accounted : Accounted first effects) (nextAccounted : ∀ a, Accounted (f a) (next a)) :
    Accounted (first >>= f) (Effects.bind first effects next) := by
  intro world
  refine .bind fun outcome middle ran => ?_
  have here := accounted world outcome middle ran
  cases outcome with
  | ok a =>
    refine (nextAccounted a middle).mono fun outcome left there => ?_
    rw [Effects.bind_of_yields ran, World.after_append, ← here]
    exact there
  | error error =>
    rw [Effects.bind_of_error ran]
    exact here

/-- Nothing is done next. -/
theorem then_quiet {first : EvalM α} {effects : Effects} {f : α → EvalM β}
    (accounted : Accounted first effects) (quiet : ∀ a, Accounted (f a) Effects.none) :
    Accounted (first >>= f) effects := by
  rw [← Effects.bind_none first effects]
  exact accounted.bind quiet

theorem mapM {f : α → EvalM β} {effects : α → Effects} (items : List α)
    (accounted : ∀ item, Accounted (f item) (effects item)) :
    Accounted (items.mapM f) (Effects.each f effects items) := by
  induction items with
  | nil => exact pure []
  | cons item rest ih =>
    rw [List.mapM_cons]
    exact (accounted item).bind fun b => ih.then_quiet fun bs => pure (b :: bs)

variable {inner : Interpreter} {account : Account}

theorem perform (tells : account.Tells inner) (action : Action) :
    Accounted (inner.perform action) (inner.performEffects account action) := by
  induction action with
  | done outcome => exact ofOutcome outcome
  | call id arguments next ih => exact (tells.call id arguments).attempt.bind ih
  | evaluate engine scope node next ih =>
    exact (tells.evaluate engine scope node).attempt.bind ih
  | wrap callback next _ ih => exact (construct _).bind ih
  | register engine name compile evaluate next _ ih =>
    exact (ask _).bind fun replaces =>
      (update (.register engine ⟨name, compile, evaluate⟩)).bind fun _ => ih replaces
  | load cell next ih => exact (ask _).bind ih
  | store cell value next ih => exact (update (.store cell value)).bind fun _ => ih

theorem run (tells : account.Tells inner) (function : HostFunction) (scope : Scope)
    (arguments : List Value) :
    Accounted (inner.run function scope arguments)
      (inner.runEffects account function scope arguments) :=
  (update (.start (.function function arguments))).bind fun _ => perform tells _

theorem evaluateNode (tells : account.Tells inner) (engine : EngineId) (scope : Scope)
    (node : Node) :
    Accounted (inner.evaluateNode engine scope node)
      (inner.nodeEffects account engine scope node) := by
  have evaluates := tells.evaluate engine scope
  cases node with
  | constant literal => exact pure _
  | name x =>
    rw [Interpreter.evaluateNode]
    split
    · exact pure _
    · exact throw _
  | unary op operand => exact (evaluates operand).then_quiet fun _ => ofOutcome _
  | binary op left right =>
    refine (evaluates left).bind fun value => ?_
    split
    · exact pure _
    · exact (evaluates right).then_quiet fun _ => ofOutcome _
  | call name arguments =>
    rw [Interpreter.evaluateNode, Interpreter.nodeEffects]
    refine (ask (·.registry engine)).bind fun registry => ?_
    cases registry.find? name with
    | some function => exact (mapM arguments evaluates).bind fun _ => run tells _ _ _
    | none => exact throw _
  | list items => exact (mapM items evaluates).then_quiet fun _ => pure _
  | arrow parameters body =>
    cases body with
    | none => exact pure _
    | some body => exact (construct _).then_quiet fun _ => pure _

theorem callClosure (tells : account.Tells inner) (id : CallableId) (arguments : List Value) :
    Accounted (inner.callClosure id arguments) (inner.closureEffects account id arguments) := by
  refine (ask (·.closure? id)).bind fun closure => ?_
  cases closure with
  | none => exact pure _
  | some closure =>
    cases closure with
    | arrow engine parameters body =>
      by_cases few : arguments.length < parameters.length
      · simp only [if_pos few]
        exact throw _
      · simp only [if_neg few]
        exact (update (.start (.closure id arguments))).bind fun _ => tells.evaluate _ _ _
    | host callback => exact (update (.start (.closure id arguments))).bind fun _ => perform tells _

end Accounted

theorem Account.ofDepth_tells (depth : Nat) :
    (Account.ofDepth depth).Tells (Interpreter.ofDepth depth) := by
  induction depth with
  | zero => exact ⟨fun _ _ _ _ => .outOfDepth, fun _ _ _ => .outOfDepth⟩
  | succ depth ih => exact ⟨Accounted.evaluateNode ih, Accounted.callClosure ih⟩

theorem Activity.accounted (depth : Nat) (activity : Activity) :
    Accounted (activity.start (.ofDepth depth)) (activity.effects depth) := by
  have tells := Account.ofDepth_tells depth
  cases activity with
  | evaluate engine scope node => exact tells.evaluate engine scope node
  | call id arguments => exact tells.call id arguments
  | run function scope arguments => exact Accounted.run tells function scope arguments
  | perform action => exact Accounted.perform tells action

/-- The world that an activity leaves is the one at its start after its effects. -/
theorem Moment.EndsWith.world {moment : Moment} {outcome : Outcome} {left : World}
    (ends : moment.EndsWith outcome left) : left = moment.world.after moment.effects :=
  moment.activity.accounted moment.depth moment.world outcome left ends

/-! ## What starts in the course of a run -/

/-- From the world on, there are first the effects that lead to where the activity starts, and then
all of its own. -/
def Moment.Among (inner : Moment) (world : World) (effects : List Effect) : Prop :=
  ∃ before, inner.world = world.after before ∧ before ++ inner.effects <+: effects

namespace Moment.Among

variable {α β : Type} {inner : Moment} {run : EvalM α} {effects : Effects} {rest : α → Effects}
  {world middle : World}

theorem self (inner : Moment) : inner.Among inner.world inner.effects :=
  ⟨[], rfl, List.prefix_rfl⟩

theorem trans {middle : Moment} {effects : List Effect}
    (among : inner.Among middle.world middle.effects)
    (outer : middle.Among world effects) : inner.Among world effects := by
  obtain ⟨before, there, within⟩ := among
  obtain ⟨first, middleThere, middleWithin⟩ := outer
  refine ⟨first ++ before, ?_, ?_⟩
  · rw [World.after_append, ← middleThere]
    exact there
  · rw [List.append_assoc]
    exact ((List.prefix_append_right_inj first).mpr within).trans middleWithin

theorem cons {effect : Effect} {effects : List Effect}
    (among : inner.Among (effect.apply world) effects) : inner.Among world (effect :: effects) := by
  obtain ⟨before, there, within⟩ := among
  exact ⟨effect :: before, there, (List.prefix_cons_inj effect).mpr within⟩

theorem first (among : inner.Among world (effects world)) :
    inner.Among world (Effects.bind run effects rest world) := by
  obtain ⟨before, there, within⟩ := among
  exact ⟨before, there, within.trans (List.prefix_append _ _)⟩

theorem next {a : α} (accounted : Accounted run effects) (ran : Yields run world (.ok a) middle)
    (among : inner.Among middle (rest a middle)) :
    inner.Among world (Effects.bind run effects rest world) := by
  obtain ⟨before, there, within⟩ := among
  refine ⟨effects world ++ before, ?_, ?_⟩
  · rw [World.after_append, ← accounted world _ middle ran]
    exact there
  · rw [Effects.bind_of_yields ran, List.append_assoc]
    exact (List.prefix_append_right_inj _).mpr within

theorem item {run : α → EvalM β} {effects : α → Effects} {before others : List α} {item : α}
    {values : List β} (accounted : ∀ item, Accounted (run item) (effects item))
    (ran : Yields (before.mapM run) world (.ok values) middle)
    (among : inner.Among middle (effects item middle)) :
    inner.Among world (Effects.each run effects (before ++ item :: others) world) := by
  induction before generalizing world values with
  | nil =>
    cases ran
    exact among.first
  | cons earlier between ih =>
    rw [List.mapM_cons] at ran
    obtain ⟨value, left, earlierRan, goesOn⟩ := ran.exists_of_bind
    obtain ⟨values, last, betweenRan, done⟩ := goesOn.exists_of_bind
    cases done
    exact .next (accounted earlier) earlierRan (ih betweenRan)

end Moment.Among

/-- Whatever starts in the course of an activity has its effects in one piece among those of the
activity. -/
theorem Starts.effects {moment inner : Moment} (starts : Starts moment inner) :
    inner.Among moment.world moment.effects := by
  cases starts with
  | operand => exact .self _
  | left => exact .first (.self _)
  | @right depth engine scope op left right world value middle ends decides =>
    have evaluates := (Account.ofDepth_tells depth).evaluate engine scope
    refine .next (evaluates left) ends ?_
    rw [if_neg decides]
    exact .self _
  | @argument depth engine scope name function before argument after values world middle found
      ran =>
    have evaluates := (Account.ofDepth_tells depth).evaluate engine scope
    simp only [Moment.effects, Activity.effects, evaluationEffects, Interpreter.nodeEffects,
      Effects.bind_ask, found]
    exact .first (.item evaluates ran (.self _))
  | @function depth engine scope name function arguments values world middle found ran =>
    have evaluates := (Account.ofDepth_tells depth).evaluate engine scope
    simp only [Moment.effects, Activity.effects, evaluationEffects, Interpreter.nodeEffects,
      Effects.bind_ask, found]
    exact .next (.mapM arguments evaluates) ran (.self _)
  | @item depth engine scope before item after values world middle ran =>
    have evaluates := (Account.ofDepth_tells depth).evaluate engine scope
    exact .item evaluates ran (.self _)
  | body found enough =>
    simp only [Moment.effects, Activity.effects, callEffects_enough found enough]
    refine .cons ?_
    exact .self _
  | callback found =>
    simp only [Moment.effects, Activity.effects, callEffects, Interpreter.closureEffects,
      Effects.bind_ask, Effects.bind_update, found]
    refine .cons ?_
    exact .self _
  | hostCode =>
    refine .cons ?_
    exact .self _
  | performCall => exact .first (.self _)
  | @afterCall depth id arguments _ _ _ _ ends =>
    have calls := (Account.ofDepth_tells depth).call id arguments
    refine .next calls.attempt ends.attempt ?_
    exact .self _
  | performEvaluate => exact .first (.self _)
  | @afterEvaluate depth engine scope node _ _ _ _ ends =>
    have evaluates := (Account.ofDepth_tells depth).evaluate engine scope node
    refine .next evaluates.attempt ends.attempt ?_
    exact .self _
  | afterLoad => exact .self _
  | afterWrap | afterRegister | afterStore =>
    refine .cons ?_
    exact .self _

end ArrowExpr
