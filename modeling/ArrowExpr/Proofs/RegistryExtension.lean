import ArrowExpr.Host.Stock
import ArrowExpr.Proofs.Binding
import ArrowExpr.Proofs.Callables
import ArrowExpr.Proofs.Runs
/-!
# A new function changes no evaluation that does not miss it

An engine whose functions are builtins and quiet host functions (`HostFunction.Quiet`) gets one more
function, under a name that is free. An evaluation that does not fail for want of that name then
ends in the same outcome as before, in the same world up to the new function, which has not been
started (`evaluate_extended`).

Two runs are compared, the second in the world with the new function (`Extension.SameRun`). Names are
looked up when a body runs, so the callables at hand must be of the engine too
(`Extension.own`): arrow functions that it has evaluated.
-/

namespace ArrowExpr

open EvalM

/-! ## Host functions that keep to themselves -/

/-- The callables that an engine has made of arrow functions, and the no-op. -/
def World.own (world : World) (engine : EngineId) : Set CallableId :=
  {id | id = .noop ∨ ∃ parameters body, world.closure? id = some (.arrow engine parameters body)}

/-- The run of host code neither looks at a registry nor changes one, makes no callables and calls no
others than callbacks of the host that are quiet as well.

* It ends in an error, or in a value with known callables only.
* It may keep values in cells. From the given cells it reads known callables only, if it has put no
  others there.
* A callback that it calls is one of those that are there at the start. -/
inductive Action.Quiet (start : World) (cells : Set CellId) (known : Set CallableId) :
    Action → Prop
  | done {outcome : Outcome} : outcome.Within known → Quiet start cells known (.done outcome)
  | load {cell : CellId} {next : Value → Action} :
      (∀ value, (cell ∈ cells → value.Within known) → Quiet start cells known (next value)) →
      Quiet start cells known (.load cell next)
  | store {cell : CellId} {value : Value} {next : Action} :
      (cell ∈ cells → value.Within known) → Quiet start cells known next →
      Quiet start cells known (.store cell value next)
  | call {id : CallableId} {arguments : List Value} {callback : List Value → Action}
      {next : Outcome → Action} :
      start.closure? id = some (.host callback) → Quiet start cells known (callback arguments) →
      (∀ outcome, outcome.Within known → Quiet start cells known (next outcome)) →
      Quiet start cells known (.call id arguments next)

/-- The function is quiet, and the callables in its results are among those that it is given, that it
has kept, or that the engine has made before. -/
def HostFunction.Quiet (function : HostFunction) (start : World) (engine : EngineId)
    (cells : Set CellId) : Prop :=
  ∀ known, start.own engine ⊆ known → ∀ scope arguments, scope.Within known →
    (∀ argument ∈ arguments, argument.Within known) →
    Action.Quiet start cells known (function.evaluate scope arguments)

/-! ## Registering a function -/

/-- A function that an engine gets, and the cells in which the functions that it has already keep
callables of that engine. -/
structure Extension where
  engine : EngineId
  function : HostFunction
  cells : Set CellId

namespace Extension

variable (extension : Extension)

/-- The world with the function registered. -/
def apply (world : World) : World := (extension.engine.register extension.function world).2

/-- The callables of the engine. -/
def own (world : World) : Set CallableId := world.own extension.engine

/-- The engine has builtins and quiet functions, the cells hold callables of the engine only, and the
name is free. -/
structure Admitted (world : World) : Prop where
  functions : ∃ functions, world.registry extension.engine = Registry.empty.insertAll functions ∧
    ∀ function ∈ functions,
      function ∈ Builtins.all ∨ function.Quiet world extension.engine extension.cells
  cells : ∀ cell ∈ extension.cells, (world.load cell).Within (extension.own world)
  free : (world.registry extension.engine).find? extension.function.name = none

/-- From one world to a later one: the engine keeps its functions, callables keep their closures, the
cells are kept as they should be, and no function of the new name has been started. -/
structure Steady (before after : World) : Prop where
  registry : after.registry extension.engine = before.registry extension.engine
  closure? : ∀ id closure, before.closure? id = some closure → after.closure? id = some closure
  cells : (∀ cell ∈ extension.cells, (before.load cell).Within (extension.own before)) →
    ∀ cell ∈ extension.cells, (after.load cell).Within (extension.own after)
  journal : ∃ events, after.journal = events ++ before.journal ∧
    ∀ function arguments, Event.function function arguments ∈ events →
      function.name ≠ extension.function.name

/-- From the world on, the run does the same with the function registered, unless it fails for want
of it. A value that it ends in is `good` in the world that it leaves. -/
def SameRun {α : Type} (good : α → World → Prop) (run : EvalM α) (world : World) : Prop :=
  Ends run world fun outcome left =>
    outcome = .error (.undefinedFunction extension.function.name) ∨
      (Yields run (extension.apply world) outcome (extension.apply left) ∧
        extension.Steady world left ∧ ∀ a, outcome = .ok a → good a left)

/-- A value with callables of the engine only. -/
def Good (value : Value) (left : World) : Prop := value.Within (extension.own left)

/-- The run does the same in any case, and makes no callables. -/
def QuietRun (run : EvalM Value) (world : World) : Prop :=
  Ends run world fun outcome left =>
    Yields run (extension.apply world) outcome (extension.apply left) ∧
      extension.Steady world left ∧ left.closures = world.closures ∧
      Outcome.Within outcome (extension.own left)

end Extension

/-! ## Functions that are quiet -/

namespace Builtins

theorem extreme_quiet (name : String) (op : BinaryOp) (start : World) (engine : EngineId)
    (cells : Set CellId) :
    (HostFunction.plain name fun arguments => .done (extreme name op arguments)).Quiet start engine
      cells := by
  intro known _ scope arguments _ within
  exact .done fun value found => within value (extreme_mem found)

end Builtins

/-- Counting calls is quiet, since only a number is kept. -/
theorem Stock.counter_quiet (name : String) (compile : List String → String) (cell : CellId)
    (start : World) (engine : EngineId) (cells : Set CellId) :
    (HostFunction.mk name compile (counter cell)).Quiet start engine cells := by
  intro known _ scope arguments _ _
  refine .load fun value _ => ?_
  have next : ∀ n : Int64, (Value.int n).Within known := fun n _ holds => nomatch holds
  split
  · exact .store (fun _ => next _) (.done fun _ same => Except.ok.inj same ▸ next _)
  · exact .store (fun _ => next _) (.done fun _ same => Except.ok.inj same ▸ next _)

/-! ## Runs in both worlds -/

namespace World

theorem own_mono {before after : World} {engine : EngineId}
    (closure? : ∀ id closure, before.closure? id = some closure → after.closure? id = some closure) :
    before.own engine ⊆ after.own engine := by
  intro id isOwn
  rcases isOwn with isNoop | ⟨parameters, body, found⟩
  · exact .inl isNoop
  · exact .inr ⟨parameters, body, closure? id _ found⟩

end World

namespace Extension

variable {extension : Extension} {α β : Type} {world a b c : World}

/-- Every other name stands for what it stood for. -/
theorem find?_apply {name : String} (other : name ≠ extension.function.name) (world : World) :
    ((extension.apply world).registry extension.engine).find? name =
      (world.registry extension.engine).find? name := by
  simp only [apply, EngineId.register, World.updateRegistry, World.registry, Array.getElem?_modify,
    if_pos]
  cases world.registries[extension.engine.index]? with
  | none => rfl
  | some registry =>
    simp only [Option.map_some, Option.getD_some]
    rw [Registry.find?_insert, if_neg (Ne.symm other)]

namespace Steady

theorem refl (world : World) : extension.Steady world world :=
  ⟨rfl, fun _ _ found => found, id, [], rfl, fun _ _ there => nomatch there⟩

theorem trans (first : extension.Steady a b) (second : extension.Steady b c) :
    extension.Steady a c := by
  obtain ⟨events, written, none⟩ := first.journal
  obtain ⟨others, further, noneOther⟩ := second.journal
  refine ⟨second.registry.trans first.registry,
    fun id closure found => second.closure? id closure (first.closure? id closure found),
    fun kept => second.cells (first.cells kept), others ++ events, ?_, ?_⟩
  · rw [further, written, List.append_assoc]
  · intro function arguments there
    rcases List.mem_append.mp there with later | earlier
    · exact noneOther function arguments later
    · exact none function arguments earlier

theorem own (steady : extension.Steady a b) : extension.own a ⊆ extension.own b :=
  World.own_mono steady.closure?

theorem scope (steady : extension.Steady a b) {scope : Scope}
    (within : scope.Within (extension.own a)) : scope.Within (extension.own b) :=
  fun name value found => (within name value found).mono steady.own

theorem values (steady : extension.Steady a b) {values : List Value}
    (within : ∀ value ∈ values, value.Within (extension.own a)) :
    ∀ value ∈ values, value.Within (extension.own b) :=
  fun value there => (within value there).mono steady.own

theorem function (world : World) {function : HostFunction} (arguments : List Value)
    (other : function.name ≠ extension.function.name) :
    extension.Steady world (world.record (.function function arguments)) := by
  refine ⟨rfl, fun _ _ found => found, id, [_], rfl, fun started arguments there => ?_⟩
  cases List.mem_singleton.mp there
  exact other

theorem closure (world : World) (id : CallableId) (arguments : List Value) :
    extension.Steady world (world.record (.closure id arguments)) := by
  refine ⟨rfl, fun _ _ found => found, fun kept => kept, [_], rfl, fun started arguments there => ?_⟩
  cases List.mem_singleton.mp there

theorem addClosure (world : World) (closure : Closure) :
    extension.Steady world (world.addClosure closure).2 := by
  have kept : ∀ id found, world.closure? id = some found →
      (world.addClosure closure).2.closure? id = some found :=
    fun _ _ found => (Later.single (.closure closure)).closure? found
  exact ⟨rfl, kept, fun cells cell there => (cells cell there).mono (World.own_mono kept), [], rfl,
    fun _ _ there => nomatch there⟩

theorem store (world : World) {cell : CellId} {value : Value}
    (within : cell ∈ extension.cells → value.Within (extension.own world)) :
    extension.Steady world (world.store cell value) := by
  refine ⟨rfl, fun _ _ found => found, fun kept other there => ?_, [], rfl,
    fun _ _ there => nomatch there⟩
  rw [World.load_store]
  split
  · next written =>
    obtain ⟨rfl, _⟩ := written
    exact within there
  · exact kept other there

end Steady

namespace SameRun

variable {good : α → World → Prop} {next : β → World → Prop}

theorem pure {a : α} (holds : good a world) : extension.SameRun good (Pure.pure a) world := by
  refine .of_yields (run_pure world a) (.inr ⟨run_pure _ a, .refl world, fun b same => ?_⟩)
  cases same
  exact holds

theorem throw (error : EvalError) :
    extension.SameRun good (MonadExcept.throw error) world :=
  .of_yields (run_throw world error) (.inr ⟨run_throw _ error, .refl world, nofun⟩)

theorem outOfDepth : extension.SameRun good EvalM.outOfDepth world := Ends.outOfDepth

theorem ofOutcome {outcome : Outcome} (plain : outcome.Plain) :
    extension.SameRun extension.Good (EvalM.ofOutcome outcome) world := by
  refine .of_yields (run_ofOutcome world outcome)
    (.inr ⟨run_ofOutcome _ outcome, .refl world, fun value same => ?_⟩)
  rw [same] at plain
  exact .of_plain plain

theorem bind {first : EvalM α} {f : α → EvalM β} (same : extension.SameRun good first world)
    (nextSame : ∀ a left, extension.Steady world left → good a left →
      extension.SameRun next (f a) left) :
    extension.SameRun next (first >>= f) world := by
  refine Ends.bind (same.mono fun outcome left ends => ?_)
  rcases ends with rfl | ⟨ran, steady, holds⟩
  · exact .inl rfl
  · cases outcome with
    | error error => exact .inr ⟨ran.bind_error, steady, nofun⟩
    | ok a =>
      refine (nextSame a left steady (holds a rfl)).mono fun outcome last ends => ?_
      refine ends.imp_right fun ⟨further, later, holds⟩ => ?_
      exact ⟨ran.bind further, steady.trans later, holds⟩

/-- A first step that is the same in both worlds. -/
theorem step {first : EvalM α} {f : α → EvalM β} {a : α} {left : World}
    (ran : Yields first world (.ok a) left)
    (ranToo : Yields first (extension.apply world) (.ok a) (extension.apply left))
    (steady : extension.Steady world left) (same : extension.SameRun next (f a) left) :
    extension.SameRun next (first >>= f) world := by
  refine Ends.bind (.of_yields ran (same.mono fun outcome last ends => ?_))
  refine ends.imp_right fun ⟨further, later, holds⟩ => ?_
  exact ⟨ranToo.bind further, steady.trans later, holds⟩

/-- Asks the world, where the answers make no difference. -/
theorem ask {view : World → α} {f : α → EvalM β}
    (equal : f (view (extension.apply world)) = f (view world))
    (same : extension.SameRun next (f (view world)) world) :
    extension.SameRun next (EvalM.ask view >>= f) world := by
  refine Ends.bind (.of_yields (run_ask world view) (same.mono fun outcome last ends => ?_))
  refine ends.imp_right fun ⟨further, later, holds⟩ => ⟨?_, later, holds⟩
  exact Yields.bind (run_ask _ view) (equal ▸ further)

theorem mapM {f : β → EvalM α} {items : List β}
    (stable : ∀ a before after, extension.Steady before after → good a before → good a after)
    (same : ∀ item ∈ items, ∀ left, extension.Steady world left →
      extension.SameRun good (f item) left) :
    extension.SameRun (fun results left => ∀ a ∈ results, good a left) (items.mapM f) world := by
  induction items generalizing world with
  | nil => exact pure fun _ there => nomatch there
  | cons item rest ih =>
    rw [List.mapM_cons]
    refine (same item List.mem_cons_self world (.refl world)).bind fun a middle steady holds => ?_
    have restSame : ∀ other ∈ rest, ∀ left, extension.Steady middle left →
        extension.SameRun good (f other) left :=
      fun other there left later =>
        same other (List.mem_cons_of_mem _ there) left (steady.trans later)
    refine (ih restSame).bind fun results left later allHold => pure ?_
    intro b there
    cases there with
    | head => exact stable _ _ _ later holds
    | tail _ there => exact allHold b there

theorem of_quietRun {run : EvalM Value} (quiet : extension.QuietRun run world) :
    extension.SameRun extension.Good run world :=
  quiet.mono fun _ _ ⟨ran, steady, _, within⟩ => .inr ⟨ran, steady, within⟩

end SameRun

/-! ## Evaluation and calls -/

/-- Of what the interpreter evaluates and calls, the registration changes nothing that does not miss
the function. The world is one that a run from the start has come to. -/
structure Keeps (extension : Extension) (start : World) (inner : Interpreter) : Prop where
  evaluate : ∀ {world scope node}, extension.Steady start world →
    scope.Within (extension.own world) →
    extension.SameRun extension.Good (inner.evaluate extension.engine scope node) world
  call : ∀ {world id arguments}, extension.Steady start world → id ∈ extension.own world →
    (∀ argument ∈ arguments, argument.Within (extension.own world)) →
    extension.SameRun extension.Good (inner.call id arguments) world
  callback : ∀ {world id callback arguments}, extension.Steady start world →
    start.closure? id = some (.host callback) →
    Action.Quiet start extension.cells (extension.own world) (callback arguments) →
    extension.QuietRun (inner.call id arguments) world

variable {start : World} {inner : Interpreter}

/-- A quiet first step, and then a quiet run. -/
theorem QuietRun.step {first : EvalM α} {f : α → EvalM Value} {a : α} {left : World}
    (ran : Yields first world (.ok a) left)
    (ranToo : Yields first (extension.apply world) (.ok a) (extension.apply left))
    (steady : extension.Steady world left) (closures : left.closures = world.closures)
    (quiet : extension.QuietRun (f a) left) : extension.QuietRun (first >>= f) world := by
  refine Ends.bind (.of_yields ran (quiet.mono fun outcome last ends => ?_))
  obtain ⟨further, later, same, within⟩ := ends
  exact ⟨ranToo.bind further, steady.trans later, same.trans closures, within⟩

theorem own_congr {before after : World} (same : after.closures = before.closures) :
    extension.own after = extension.own before := by
  have closure? : ∀ id, after.closure? id = before.closure? id := by
    intro id
    cases id with
    | noop => rfl
    | made index => rw [World.closure?, World.closure?, same]
  simp only [own, World.own, closure?]

theorem perform_quiet (keeps : extension.Keeps start inner) (admitted : extension.Admitted start)
    {known : Set CallableId} {action : Action}
    (quiet : Action.Quiet start extension.cells known action) {world : World}
    (steady : extension.Steady start world) (all : known = extension.own world) :
    extension.QuietRun (inner.perform action) world := by
  induction quiet generalizing world with
  | @done outcome within =>
    exact .of_yields (run_ofOutcome world outcome)
      ⟨run_ofOutcome _ outcome, .refl world, rfl, all ▸ within⟩
  | @load cell next _ ih =>
    refine .step (run_ask world _) (run_ask _ _) (.refl world) rfl (ih _ (fun there => ?_) steady all)
    exact all ▸ steady.cells admitted.cells cell there
  | @store cell value next within _ ih =>
    have stored : extension.Steady world (world.store cell value) := .store world (all ▸ within)
    exact .step (run_update world _) (run_update _ _) stored rfl (ih (steady.trans stored) all)
  | @call id arguments callback next found quiet _ _ ih =>
    refine Ends.bind (.attempt ((keeps.callback steady found (all ▸ quiet)).mono ?_))
    rintro outcome left ⟨ran, later, closures, within⟩
    have same : known = extension.own left := all.trans (own_congr closures).symm
    refine (ih outcome (same ▸ within) (steady.trans later) same).mono fun result last ends => ?_
    obtain ⟨further, last, others, within⟩ := ends
    exact ⟨ran.attempt.bind further, later.trans last, others.trans closures, within⟩

theorem perform_mapItems (keeps : extension.Keeps start inner) {id : CallableId}
    {done items : List Value} {world : World} (steady : extension.Steady start world)
    (isOwn : id ∈ extension.own world)
    (doneWithin : ∀ value ∈ done, value.Within (extension.own world))
    (itemsWithin : ∀ item ∈ items, item.Within (extension.own world)) :
    extension.SameRun extension.Good (inner.perform (Builtins.mapItems id done items)) world := by
  induction items generalizing world done with
  | nil =>
    refine .pure (Value.Within.list fun item there => ?_)
    exact doneWithin item (List.mem_reverse.mp there)
  | cons item rest ih =>
    rw [List.forall_mem_cons] at itemsWithin
    have argumentWithin : ∀ argument ∈ [item], argument.Within (extension.own world) := by
      intro argument there
      rw [List.mem_singleton.mp there]
      exact itemsWithin.1
    refine Ends.bind (.attempt ((keeps.call steady isOwn argumentWithin).mono ?_))
    rintro outcome left (rfl | ⟨ran, later, within⟩)
    · -- the call has failed for want of the function, and so does the whole
      exact .of_yields (run_ofOutcome left _) (.inl rfl)
    · cases outcome with
      | error error =>
        refine .of_yields (run_ofOutcome left _) (.inr ⟨?_, later, nofun⟩)
        exact ran.attempt.bind (run_ofOutcome _ _)
      | ok value =>
        have goneOn : extension.SameRun extension.Good
            (inner.perform (Builtins.mapItems id (value :: done) rest)) left := by
          refine ih (steady.trans later) (later.own isOwn) ?_ (later.values itemsWithin.2)
          exact List.forall_mem_cons.mpr ⟨within value rfl, later.values doneWithin⟩
        refine goneOn.mono fun _ _ ends => ends.imp_right fun ⟨further, last, within⟩ => ?_
        exact ⟨ran.attempt.bind further, later.trans last, within⟩

theorem perform_map (keeps : extension.Keeps start inner) {arguments : List Value} {world : World}
    (steady : extension.Steady start world)
    (within : ∀ argument ∈ arguments, argument.Within (extension.own world)) :
    extension.SameRun extension.Good (inner.perform (Builtins.mapAction arguments)) world := by
  unfold Builtins.mapAction
  split
  · next items id =>
    have listWithin := within (.list items) List.mem_cons_self
    have isOwn := within (.callable id) (List.mem_cons_of_mem _ List.mem_cons_self) id .self
    exact perform_mapItems keeps steady isOwn nofun listWithin.items
  · exact .throw _
  · exact .throw _

/-- A function that is registered at the start runs the same. -/
theorem run_registered (keeps : extension.Keeps start inner) (admitted : extension.Admitted start)
    {name : String} {function : HostFunction}
    (found : (start.registry extension.engine).find? name = some function) {scope : Scope}
    {arguments : List Value} {world : World} (steady : extension.Steady start world)
    (scopeWithin : scope.Within (extension.own world))
    (within : ∀ argument ∈ arguments, argument.Within (extension.own world)) :
    extension.SameRun extension.Good (inner.run function scope arguments) world := by
  obtain ⟨functions, registered, allowed⟩ := admitted.functions
  have isRegistered := found
  rw [registered] at found
  obtain ⟨there, rfl⟩ : function ∈ functions ∧ function.name = name := by
    rcases Registry.find?_insertAll found with inside | nowhere
    · exact inside
    · rw [Registry.find?_empty] at nowhere
      cases nowhere
  have other : function.name ≠ extension.function.name := by
    intro same
    rw [same, admitted.free] at isRegistered
    cases isRegistered
  have noted : extension.Steady world (world.record (.function function arguments)) :=
    .function world arguments other
  refine .step (run_update world _) (run_update _ _) noted ?_
  have ofQuiet (quiet : function.Quiet start extension.engine extension.cells) :
      extension.SameRun extension.Good (inner.perform (function.evaluate scope arguments))
        (world.record (.function function arguments)) :=
    .of_quietRun (perform_quiet keeps admitted
      (quiet (extension.own world) steady.own scope arguments scopeWithin within)
      (steady.trans noted) rfl)
  rcases allowed function there with builtin | quiet
  · simp only [Builtins.all, List.mem_cons, List.not_mem_nil, or_false] at builtin
    rcases builtin with rfl | rfl | rfl
    · exact ofQuiet (Builtins.extreme_quiet _ _ _ _ _)
    · exact ofQuiet (Builtins.extreme_quiet _ _ _ _ _)
    · exact perform_map keeps (steady.trans noted) within
  · exact ofQuiet quiet

theorem evaluateNode_same (keeps : extension.Keeps start inner)
    (admitted : extension.Admitted start) {scope : Scope} {node : Node} {world : World}
    (steady : extension.Steady start world) (within : scope.Within (extension.own world)) :
    extension.SameRun extension.Good (inner.evaluateNode extension.engine scope node) world := by
  have inLater : ∀ child left, extension.Steady world left →
      extension.SameRun extension.Good (inner.evaluate extension.engine scope child) left :=
    fun child left later => keeps.evaluate (steady.trans later) (later.scope within)
  have allInLater : ∀ children : List Node,
      extension.SameRun (fun values left => ∀ value ∈ values, value.Within (extension.own left))
        (children.mapM (inner.evaluate extension.engine scope)) world :=
    fun children =>
      .mapM (fun _ _ _ later within => within.mono later.own) fun child _ left later =>
        inLater child left later
  cases node with
  | constant literal =>
    exact .pure fun id holds => absurd holds (Value.ofLiteral_not_holds literal id)
  | name x =>
    cases found : scope.lookup? x with
    | some value =>
      simp only [Interpreter.evaluateNode, found]
      exact .pure (within x value found)
    | none =>
      simp only [Interpreter.evaluateNode, found]
      exact .throw _
  | unary op operand =>
    exact (inLater operand world (.refl world)).bind fun _ _ _ _ => .ofOutcome (op.apply_plain _)
  | binary op left right =>
    refine (inLater left world (.refl world)).bind fun value middle later _ => ?_
    split
    · exact .pure fun _ holds => by cases holds
    · exact (inLater right middle later).bind fun _ _ _ _ => .ofOutcome (op.apply_plain _ _)
  | call name arguments =>
    by_cases missing : name = extension.function.name
    · -- the name is free at the start, and the engine has kept its functions
      refine Ends.bind (.of_yields (run_ask world _) ?_)
      simp only [steady.registry, missing, admitted.free]
      exact .of_yields (run_throw world _) (.inl rfl)
    · refine .ask (by simp only [find?_apply missing]) ?_
      cases found : (world.registry extension.engine).find? name with
      | none => exact .throw _
      | some function =>
        refine (allInLater arguments).bind fun values left later valuesWithin => ?_
        rw [steady.registry] at found
        exact run_registered keeps admitted found (steady.trans later) (later.scope within)
          valuesWithin
  | list items =>
    exact (allInLater items).bind fun values left _ valuesWithin =>
      .pure (Value.Within.list valuesWithin)
  | arrow parameters body =>
    cases body with
    | none => exact .pure (Value.Within.callable (.inl rfl))
    | some body =>
      refine .step (run_make world _) (run_make _ _) (.addClosure world _) (.pure ?_)
      have made := World.closure?_addClosure world (.arrow extension.engine parameters body)
        world.closures.size
      exact Value.Within.callable (.inr ⟨parameters, body, made.trans (if_pos rfl)⟩)

theorem callClosure_same (keeps : extension.Keeps start inner) {id : CallableId}
    {arguments : List Value} {world : World} (steady : extension.Steady start world)
    (isOwn : id ∈ extension.own world)
    (within : ∀ argument ∈ arguments, argument.Within (extension.own world)) :
    extension.SameRun extension.Good (inner.callClosure id arguments) world := by
  refine .step (run_ask world _) (run_ask _ _) (.refl world) ?_
  rcases isOwn with rfl | ⟨parameters, body, found⟩
  · exact .pure nofun
  · simp only [found]
    split
    · exact .throw _
    · next few =>
      have binds := Scope.bindsLast_ofList (Nat.not_lt.mp few)
      have noted : extension.Steady world (world.record (.closure id arguments)) :=
        .closure world id arguments
      refine .step (run_update world _) (run_update _ _) noted (keeps.evaluate (steady.trans noted) ?_)
      exact fun name value bound => within value (binds.mem_of_lookup? bound)

theorem callClosure_callback (keeps : extension.Keeps start inner)
    (admitted : extension.Admitted start) {id : CallableId} {callback : List Value → Action}
    {arguments : List Value} {world : World} (steady : extension.Steady start world)
    (found : start.closure? id = some (.host callback))
    (quiet : Action.Quiet start extension.cells (extension.own world) (callback arguments)) :
    extension.QuietRun (inner.callClosure id arguments) world := by
  refine .step (run_ask world _) (run_ask _ _) (.refl world) rfl ?_
  simp only [steady.closure? id _ found]
  have noted : extension.Steady world (world.record (.closure id arguments)) :=
    .closure world id arguments
  exact .step (run_update world _) (run_update _ _) noted rfl
    (perform_quiet keeps admitted quiet (steady.trans noted) rfl)

theorem keeps_ofDepth (admitted : extension.Admitted start) (depth : Nat) :
    extension.Keeps start (.ofDepth depth) := by
  induction depth with
  | zero => exact ⟨fun _ _ => .outOfDepth, fun _ _ _ => .outOfDepth, fun _ _ _ => Ends.outOfDepth⟩
  | succ depth ih =>
    exact ⟨evaluateNode_same ih admitted, callClosure_same ih, callClosure_callback ih admitted⟩

end Extension

/-- Conservative extension. The engine has builtins and quiet host functions, and all callables in the
scope are its own. An evaluation that ends in a value, or in an error other than that the new name
is undefined, ends in the same outcome with the new function registered. It leaves the same world,
up to the new function, and no function of that name has been started. -/
theorem evaluate_extended {extension : Extension} {world left : World} {depth : Nat} {scope : Scope}
    {node : Node} {outcome : Outcome} (admitted : extension.Admitted world)
    (within : scope.Within (extension.own world))
    (run : Yields (extension.engine.evaluate depth scope node) world outcome left)
    (other : outcome ≠ .error (.undefinedFunction extension.function.name)) :
    Yields (extension.engine.evaluate depth scope node) (extension.apply world) outcome
      (extension.apply left) ∧
    ∃ events, (extension.apply left).journal = events ++ (extension.apply world).journal ∧
      ∀ function arguments, Event.function function arguments ∈ events →
        function.name ≠ extension.function.name := by
  have keeps := Extension.keeps_ofDepth admitted depth
  have ends := keeps.evaluate (.refl world) within outcome left run
  obtain ⟨same, steady, _⟩ := ends.resolve_left other
  exact ⟨same, steady.journal⟩

/-- `map([1, 2], (x) -> {min(x, tick())})` with a host function that counts its calls in a cell,
without and with a function `other` that only fails. -/
theorem evaluate_extended_map :
    let extension : Extension := ⟨⟨0⟩, .plain "other" fun _ => .fail .invocationForbidden, {⟨0⟩}⟩
    let world : World := ((Builder.empty.function
      ⟨"tick", HostFunction.plainCode "tick", Stock.counter ⟨0⟩⟩).build
        (World.empty.addCell .null).2).2
    let node : Node := .call "map" [.list [.constant (.int 1), .constant (.int 2)],
      .arrow ["x"] (some (.call "min" [.name "x", .call "tick" []]))]
    ∃ left, Yields (extension.engine.evaluate 6 .empty node) (extension.apply world)
      (.ok (.list [.int 1, .int 2])) (extension.apply left) := by
  intro extension world node
  have free : (world.registry ⟨0⟩).find? "other" = none := rfl
  have admitted : extension.Admitted world := by
    refine ⟨⟨Builtins.all ++ [⟨"tick", HostFunction.plainCode "tick", Stock.counter ⟨0⟩⟩], rfl,
      fun function there => ?_⟩, fun cell there => ?_, free⟩
    · rcases List.mem_append.mp there with builtin | isTick
      · exact .inl builtin
      · rw [List.mem_singleton.mp isTick]
        exact .inr (Stock.counter_quiet _ _ _ _ _ _)
    · have isNull : world.load cell = .null := by
        rw [show cell = ⟨0⟩ from there]
        rfl
      rw [isNull]
      exact nofun
  have within : Scope.empty.Within (extension.own world) := by
    intro name value found
    rw [Scope.lookup?_empty] at found
    cases found
  obtain ⟨left, run⟩ : ∃ left, Yields (extension.engine.evaluate 6 .empty node) world
      (.ok (.list [.int 1, .int 2])) left := ⟨_, rfl⟩
  exact ⟨left, (evaluate_extended admitted within run nofun).1⟩

end ArrowExpr
