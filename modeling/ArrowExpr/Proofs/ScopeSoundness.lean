import ArrowExpr.Proofs.Binding
import ArrowExpr.Proofs.Histories
import ArrowExpr.Proofs.Operators
import Mathlib.Data.Set.Basic
/-!
# Well-scoped expressions never miss a name

`WellScoped names node` is a condition on the text of an expression alone: outside arrow bodies only
the given names occur, each arrow body keeps to its own parameters, and only builtins are called.
Evaluated by an engine with exactly the builtins, such an expression never fails for want of a name,
and every callable in its value is again safe to call (`evaluate_wellScoped`).

The invariant is `Tame`: a callable is the no-op, or a well-scoped arrow function of an engine with
exactly the builtins. It is carried through an evaluation as a whole by `SoundRun`, which has one
rule for each way to put runs together.
-/

namespace ArrowExpr

open EvalM

/-! ## The condition on the text -/

/-- Outside arrow bodies the node refers to the names only, each arrow body refers to the parameters
of its arrow function only, and every function that is called is a builtin. -/
inductive WellScoped : Set String → Node → Prop
  | constant {names : Set String} (literal : Literal) : WellScoped names (.constant literal)
  | name {names : Set String} {x : String} : x ∈ names → WellScoped names (.name x)
  | unary {names : Set String} (op : UnaryOp) {operand : Node} :
      WellScoped names operand → WellScoped names (.unary op operand)
  | binary {names : Set String} (op : BinaryOp) {left right : Node} :
      WellScoped names left → WellScoped names right → WellScoped names (.binary op left right)
  | call {names : Set String} {builtin : HostFunction} {arguments : List Node} :
      builtin ∈ Builtins.all → (∀ argument ∈ arguments, WellScoped names argument) →
      WellScoped names (.call builtin.name arguments)
  | list {names : Set String} {items : List Node} :
      (∀ item ∈ items, WellScoped names item) → WellScoped names (.list items)
  | noop {names : Set String} (parameters : List String) :
      WellScoped names (.arrow parameters none)
  | arrow {names : Set String} {parameters : List String} {body : Node} :
      WellScoped {x | x ∈ parameters} body → WellScoped names (.arrow parameters (some body))

theorem WellScoped.mono {names more : Set String} {node : Node} (wellScoped : WellScoped names node)
    (sub : names ⊆ more) : WellScoped more node := by
  induction wellScoped with
  | constant literal => exact .constant literal
  | name inside => exact .name (sub inside)
  | unary op _ ih => exact .unary op (ih sub)
  | binary op _ _ leftIh rightIh => exact .binary op (leftIh sub) (rightIh sub)
  | call builtin _ ih => exact .call builtin fun argument there => ih argument there sub
  | list _ ih => exact .list fun item there => ih item there sub
  | noop parameters => exact .noop parameters
  | arrow inner _ => exact .arrow inner

/-! ## The condition on callables -/

/-- The engine has exactly the builtins. -/
def World.HasBuiltins (world : World) (engine : EngineId) : Prop :=
  world.registry engine = Builder.empty.registry

/-- The callable is the no-op, or it came from a well-scoped arrow function and an engine with
exactly the builtins. -/
inductive Tame (world : World) : CallableId → Prop
  | noop : Tame world .noop
  | arrow {id : CallableId} {engine : EngineId} {parameters : List String} {body : Node} :
      world.closure? id = some (.arrow engine parameters body) → world.HasBuiltins engine →
      WellScoped {x | x ∈ parameters} body → Tame world id

/-- Every callable in the value is tame. -/
def Value.Tame (value : Value) (world : World) : Prop :=
  ∀ id, value.Holds id → ArrowExpr.Tame world id

/-- Every callable in the scope is tame. -/
def Scope.Tame (scope : Scope) (world : World) : Prop :=
  ∀ name value, scope.lookup? name = some value → value.Tame world

/-- Closures stay, and engines with exactly the builtins stay so. -/
structure World.Stays (before after : World) : Prop where
  closure? : ∀ id closure, before.closure? id = some closure → after.closure? id = some closure
  builtins : ∀ engine, before.HasBuiltins engine → after.HasBuiltins engine

namespace World.Stays

variable {a b c : World}

theorem refl (world : World) : Stays world world := ⟨fun _ _ h => h, fun _ h => h⟩

theorem trans (first : Stays a b) (second : Stays b c) : Stays a c :=
  ⟨fun id closure found => second.closure? id closure (first.closure? id closure found),
    fun engine builtins => second.builtins engine (first.builtins engine builtins)⟩

theorem record (world : World) (event : Event) : Stays world (world.record event) :=
  ⟨fun _ _ h => h, fun _ h => h⟩

theorem addClosure (world : World) (closure : Closure) :
    Stays world (world.addClosure closure).2 :=
  ⟨fun _ _ found => (Later.single (.closure closure)).closure? found, fun _ h => h⟩

theorem tame (stays : Stays a b) {id : CallableId} (tame : Tame a id) : Tame b id := by
  cases tame with
  | noop => exact .noop
  | arrow found builtins wellScoped =>
    exact .arrow (stays.closure? _ _ found) (stays.builtins _ builtins) wellScoped

theorem value (stays : Stays a b) {value : Value} (tame : value.Tame a) : value.Tame b :=
  fun id holds => stays.tame (tame id holds)

theorem scope (stays : Stays a b) {scope : Scope} (tame : scope.Tame a) : scope.Tame b :=
  fun name value found => stays.value (tame name value found)

end World.Stays

theorem Value.tame_list {items : List Value} {world : World}
    (tame : ∀ item ∈ items, item.Tame world) : (Value.list items).Tame world := by
  intro id holds
  cases holds with
  | item there holds => exact tame _ there id holds

theorem Value.Tame.items {items : List Value} {world : World}
    (tame : (Value.list items).Tame world) : ∀ item ∈ items, item.Tame world :=
  fun _ there id holds => tame id (.item there holds)

theorem Value.tame_callable {id : CallableId} {world : World} (tame : ArrowExpr.Tame world id) :
    (Value.callable id).Tame world := by
  intro other holds
  cases holds
  exact tame

/-- The scope of a call is as tame as the arguments are. -/
theorem Scope.BindsLast.tame {scope : Scope} {parameters : List String} {arguments : List Value}
    {world : World} (binds : scope.BindsLast parameters arguments)
    (tame : ∀ argument ∈ arguments, argument.Tame world) : scope.Tame world :=
  fun _ value found => tame value (binds.mem_of_lookup? found)

/-! ## Runs that miss no name -/

/-- What a sound run ends in: a value that is `good` in the world that it leaves, or an error that
is not about a name. -/
inductive SoundEnd {α : Type} (good : α → World → Prop) :
    Except EvalError α → World → Prop
  | value {a : α} {left : World} : good a left → SoundEnd good (.ok a) left
  | error {error : EvalError} {left : World} :
      error.isUndefined = false → SoundEnd good (.error error) left

/-- From the world on, the run keeps closures and builtins and ends soundly. -/
def SoundRun {α : Type} (good : α → World → Prop) (run : EvalM α) (world : World) : Prop :=
  Ends run world fun outcome left => world.Stays left ∧ SoundEnd good outcome left

namespace SoundRun

variable {α β : Type} {good : α → World → Prop} {next : β → World → Prop} {world : World}

theorem pure {a : α} (holds : good a world) : SoundRun good (Pure.pure a) world :=
  .of_yields (run_pure world a) ⟨.refl world, .value holds⟩

theorem throw {error : EvalError} (other : error.isUndefined = false) :
    SoundRun good (MonadExcept.throw error) world :=
  .of_yields (run_throw world error) ⟨.refl world, .error other⟩

theorem outOfDepth : SoundRun good EvalM.outOfDepth world := Ends.outOfDepth

theorem bind {first : EvalM α} {f : α → EvalM β} (sound : SoundRun good first world)
    (nextSound : ∀ a left, world.Stays left → good a left → SoundRun next (f a) left) :
    SoundRun next (first >>= f) world := by
  refine Ends.bind (sound.mono fun outcome left ends => ?_)
  obtain ⟨stays, ends⟩ := ends
  cases ends with
  | value holds =>
    refine (nextSound _ left stays holds).mono fun _ _ last => ?_
    exact ⟨stays.trans last.1, last.2⟩
  | error other => exact ⟨stays, .error other⟩

/-- Asks the world and goes on. -/
theorem ask {view : World → α} {rest : α → EvalM β}
    (sound : SoundRun next (rest (view world)) world) :
    SoundRun next (EvalM.ask view >>= rest) world :=
  Ends.bind (.of_yields (run_ask world view) sound)

/-- Notes the start of a body and goes on. -/
theorem record {event : Event} {rest : EvalM β}
    (sound : SoundRun next rest (world.record event)) :
    SoundRun next (EvalM.update (·.record event) >>= fun _ => rest) world := by
  refine Ends.bind (.of_yields (run_update world _) ?_)
  refine sound.mono fun _ _ ends => ?_
  exact ⟨(World.Stays.record world event).trans ends.1, ends.2⟩

theorem mapM {f : β → EvalM α} {items : List β}
    (stable : ∀ a before after, World.Stays before after → good a before → good a after)
    (sound : ∀ item ∈ items, ∀ left, world.Stays left → SoundRun good (f item) left) :
    SoundRun (fun results left => ∀ a ∈ results, good a left) (items.mapM f) world := by
  induction items generalizing world with
  | nil => exact pure fun _ there => nomatch there
  | cons item rest ih =>
    rw [List.mapM_cons]
    -- what is good when it is computed must still be so after the later items
    refine (sound item List.mem_cons_self world (.refl world)).bind fun a middle stays holds => ?_
    have restSound : ∀ other ∈ rest, ∀ left, middle.Stays left → SoundRun good (f other) left :=
      fun other there left later =>
        sound other (List.mem_cons_of_mem _ there) left (stays.trans later)
    refine (ih restSound).bind fun results left later allHold => pure ?_
    intro b there
    cases there with
    | head => exact stable _ _ _ later holds
    | tail _ there => exact allHold b there

/-- A plain outcome holds no callable, so it is sound in every world. -/
theorem ofOutcome {outcome : Outcome} (plain : outcome.Plain) :
    SoundRun Value.Tame (EvalM.ofOutcome outcome) world := by
  refine .of_yields (run_ofOutcome world outcome) ⟨.refl world, ?_⟩
  cases plain with
  | value none => exact .value fun id holds => absurd holds (none id)
  | error other => exact .error other

end SoundRun

/-! ## The builtins -/

namespace Builtins

variable {world : World}

/-- The best value is one of those that were compared, and a comparison fails for no name. -/
theorem unbeaten_sound (op : BinaryOp) {best : Value} {rest : List Value}
    (bestTame : best.Tame world) (tame : ∀ value ∈ rest, value.Tame world) :
    SoundEnd Value.Tame (unbeaten op best rest) world := by
  induction rest generalizing best with
  | nil => exact .value bestTame
  | cons candidate rest ih =>
    have restTame : ∀ value ∈ rest, value.Tame world :=
      fun value there => tame value (List.mem_cons_of_mem _ there)
    have plain := op.apply_plain candidate best
    unfold unbeaten
    split
    · next error failed =>
      rw [failed] at plain
      cases plain with
      | error other => exact .error other
    · refine ih ?_ restTame
      split
      · exact tame candidate List.mem_cons_self
      · exact bestTame

theorem extreme_sound (name : String) (op : BinaryOp) {arguments : List Value}
    (tame : ∀ value ∈ arguments, value.Tame world) :
    SoundEnd Value.Tame (extreme name op arguments) world := by
  cases arguments with
  | nil => exact .error rfl
  | cons first rest =>
    exact unbeaten_sound op (tame first List.mem_cons_self) fun value there =>
      tame value (List.mem_cons_of_mem _ there)

end Builtins

/-! ## Evaluation and calls -/

namespace Interpreter

/-- What the interpreter evaluates and calls is sound. -/
structure IsSound (inner : Interpreter) : Prop where
  evaluate : ∀ {world engine scope node}, world.HasBuiltins engine → scope.Tame world →
    WellScoped {x | scope.contains x} node →
    SoundRun Value.Tame (inner.evaluate engine scope node) world
  call : ∀ {world id arguments}, Tame world id → (∀ argument ∈ arguments, argument.Tame world) →
    SoundRun Value.Tame (inner.call id arguments) world

variable {inner : Interpreter} {world : World}

/-- Host code that is over. -/
theorem perform_done_sound {outcome : Outcome} (sound : SoundEnd Value.Tame outcome world) :
    SoundRun Value.Tame (inner.perform (.done outcome)) world :=
  .of_yields (run_ofOutcome world outcome) ⟨.refl world, sound⟩

theorem perform_mapItems_sound (sound : inner.IsSound) {id : CallableId} {done items : List Value}
    (tame : Tame world id) (doneTame : ∀ value ∈ done, value.Tame world)
    (itemsTame : ∀ item ∈ items, item.Tame world) :
    SoundRun Value.Tame (inner.perform (Builtins.mapItems id done items)) world := by
  induction items generalizing world done with
  | nil =>
    refine perform_done_sound (.value (Value.tame_list fun item there => ?_))
    exact doneTame item (List.mem_reverse.mp there)
  | cons item rest ih =>
    have argumentTame : ∀ argument ∈ [item], argument.Tame world := by
      intro argument there
      rw [List.mem_singleton.mp there]
      exact itemsTame item List.mem_cons_self
    refine Ends.bind (.attempt ((sound.call tame argumentTame).mono fun outcome left ends => ?_))
    obtain ⟨stays, ends⟩ := ends
    cases ends with
    | error other => exact .of_yields (run_ofOutcome left _) ⟨stays, .error other⟩
    | @value value _ valueTame =>
      -- the calls that follow start in a world in which all that is at hand is still tame
      have goneOn : SoundRun Value.Tame
          (inner.perform (Builtins.mapItems id (value :: done) rest)) left := by
        refine ih (stays.tame tame) (fun other there => ?_) fun other there => ?_
        · cases there with
          | head => exact valueTame
          | tail _ there => exact stays.value (doneTame other there)
        · exact stays.value (itemsTame other (List.mem_cons_of_mem _ there))
      exact goneOn.mono fun _ _ last => ⟨stays.trans last.1, last.2⟩

theorem perform_map_sound (sound : inner.IsSound) {arguments : List Value}
    (tame : ∀ argument ∈ arguments, argument.Tame world) :
    SoundRun Value.Tame (inner.perform (Builtins.mapAction arguments)) world := by
  unfold Builtins.mapAction
  split
  · next items id =>
    have listTame := tame (.list items) List.mem_cons_self
    have idTame := tame (.callable id) (List.mem_cons_of_mem _ List.mem_cons_self) id .self
    exact perform_mapItems_sound sound idTame (fun _ there => nomatch there) listTame.items
  · exact perform_done_sound (.error rfl)
  · exact perform_done_sound (.error rfl)

theorem run_builtin_sound (sound : inner.IsSound) {builtin : HostFunction}
    (there : builtin ∈ Builtins.all) (scope : Scope) {arguments : List Value}
    (tame : ∀ argument ∈ arguments, argument.Tame world) :
    SoundRun Value.Tame (inner.run builtin scope arguments) world := by
  have noted : ∀ argument ∈ arguments, argument.Tame (world.record (.function builtin arguments)) :=
    fun argument there => (World.Stays.record world _).value (tame argument there)
  refine .record ?_
  simp only [Builtins.all, List.mem_cons, List.not_mem_nil, or_false] at there
  rcases there with rfl | rfl | rfl
  · exact perform_done_sound (Builtins.extreme_sound "min" .lt noted)
  · exact perform_done_sound (Builtins.extreme_sound "max" .gt noted)
  · exact perform_map_sound sound noted

theorem evaluateNode_sound (sound : inner.IsSound) {engine : EngineId} {scope : Scope}
    {node : Node} (builtins : world.HasBuiltins engine) (tame : scope.Tame world)
    (wellScoped : WellScoped {x | scope.contains x} node) :
    SoundRun Value.Tame (inner.evaluateNode engine scope node) world := by
  have inLater : ∀ child, WellScoped {x | scope.contains x} child → ∀ left, world.Stays left →
      SoundRun Value.Tame (inner.evaluate engine scope child) left :=
    fun child childScoped left stays =>
      sound.evaluate (stays.builtins engine builtins) (stays.scope tame) childScoped
  have allInLater : ∀ children : List Node,
      (∀ child ∈ children, WellScoped {x | scope.contains x} child) →
      SoundRun (fun values left => ∀ value ∈ values, value.Tame left)
        (children.mapM (inner.evaluate engine scope)) world :=
    fun children childrenScoped =>
      .mapM (fun _ _ _ stays => stays.value) fun child there left stays =>
        inLater child (childrenScoped child there) left stays
  cases wellScoped with
  | constant literal =>
    exact .pure fun id holds => absurd holds (Value.ofLiteral_not_holds literal id)
  | @name _ x inside =>
    have present : (scope.lookup? x).isSome := by
      rw [← Scope.contains_eq_isSome]
      exact inside
    obtain ⟨value, found⟩ := Option.isSome_iff_exists.mp present
    simp only [evaluateNode, found]
    exact .pure (tame x value found)
  | unary op operandScoped =>
    exact (inLater _ operandScoped world (.refl world)).bind fun _ _ _ _ =>
      .ofOutcome (op.apply_plain _)
  | binary op leftScoped rightScoped =>
    refine (inLater _ leftScoped world (.refl world)).bind fun value left stays _ => ?_
    split
    · exact .pure fun _ holds => by cases holds
    · exact (inLater _ rightScoped left stays).bind fun _ _ _ _ => .ofOutcome (op.apply_plain _ _)
  | call there argumentsScoped =>
    -- the function is looked up before the arguments, in a world that still has the builtins
    refine .ask ?_
    have found := Builtins.find?_registry there
    rw [← builtins] at found
    simp only [found]
    exact (allInLater _ argumentsScoped).bind fun values left _ valuesTame =>
      run_builtin_sound sound there scope valuesTame
  | list itemsScoped =>
    exact (allInLater _ itemsScoped).bind fun values left _ valuesTame =>
      .pure (Value.tame_list valuesTame)
  | noop parameters => exact .pure (Value.tame_callable .noop)
  | @arrow _ parameters body bodyScoped =>
    have stays := World.Stays.addClosure world (.arrow engine parameters body)
    have made : Tame (world.addClosure (.arrow engine parameters body)).2
        (.made world.closures.size) := by
      refine .arrow ?_ (stays.builtins engine builtins) bodyScoped
      rw [World.closure?_addClosure, if_pos rfl]
    exact Ends.bind (.of_yields (run_make world _) (.of_yields (run_pure _ _)
      ⟨stays, .value (Value.tame_callable made)⟩))

theorem callClosure_sound (sound : inner.IsSound) {id : CallableId} {arguments : List Value}
    (tame : Tame world id) (argumentsTame : ∀ argument ∈ arguments, argument.Tame world) :
    SoundRun Value.Tame (inner.callClosure id arguments) world := by
  refine .ask ?_
  cases tame with
  | noop => exact .pure fun _ holds => nomatch holds
  | @arrow _ engine parameters body found builtins wellScoped =>
    simp only [found]
    split
    · exact .throw rfl
    · next few =>
      have binds := Scope.bindsLast_ofList (Nat.not_lt.mp few)
      have noted := World.Stays.record world (.closure id arguments)
      refine .record (sound.evaluate (noted.builtins engine builtins) ?_ ?_)
      · exact binds.tame fun argument there => noted.value (argumentsTame argument there)
      · exact wellScoped.mono fun _ parameter => binds.contains parameter

theorem ofDepth_sound (depth : Nat) : (ofDepth depth).IsSound := by
  induction depth with
  | zero => exact ⟨fun _ _ _ => .outOfDepth, fun _ _ => .outOfDepth⟩
  | succ depth ih => exact ⟨evaluateNode_sound ih, callClosure_sound ih⟩

end Interpreter

/-- Scope soundness. A well-scoped expression, evaluated by an engine with exactly the builtins in a
scope of tame values, ends soundly: not for want of a name, and if it has a value, every callable in
that value is tame.

So every such callable is safe to call. Whatever the host does in between, also to other engines, as
long as the engine of the callable still has exactly the builtins, a call with tame arguments again
ends soundly. -/
theorem evaluate_wellScoped {world left : World} {engine : EngineId} {scope : Scope} {node : Node}
    {depth : Nat} {outcome : Outcome} (builtins : world.HasBuiltins engine)
    (tame : scope.Tame world) (wellScoped : WellScoped {x | scope.contains x} node)
    (run : Yields (evaluateAt depth engine scope node) world outcome left) :
    SoundEnd Value.Tame outcome left ∧
    ∀ value, outcome = .ok value → ∀ id, value.Holds id →
      ∀ now, Reaches left now →
      (∀ behind parameters body,
        now.closure? id = some (.arrow behind parameters body) → now.HasBuiltins behind) →
      ∀ arguments, (∀ argument ∈ arguments, argument.Tame now) →
      ∀ depth result last, Yields (callAt depth id arguments) now result last →
        SoundEnd Value.Tame result last := by
  have sound := (Interpreter.ofDepth_sound depth).evaluate builtins tame wellScoped outcome left run
  refine ⟨sound.2, ?_⟩
  intro value valued id holds now history behind arguments argumentsTame depth result last call
  have tameHere : Tame left id := by
    have valueEnd := sound.2
    rw [valued] at valueEnd
    cases valueEnd with
    | value valueTame => exact valueTame id holds
  -- the closure is still there, so what counts is the engine behind it as it is now
  have tameNow : Tame now id := by
    cases tameHere with
    | noop => exact .noop
    | arrow found _ bodyScoped =>
      have stillThere := history.later.closure? found
      exact .arrow stillThere (behind _ _ _ stillThere) bodyScoped
  have inner := Interpreter.ofDepth_sound depth
  exact (inner.call tameNow argumentsTame result last call).2

/-- `map(fs, (x) -> {(y) -> {y}})` with the no-op in `fs` is well scoped. Its value holds a new
callable, which is safe to call with the no-op, also after `min` has been replaced in another
engine. -/
theorem evaluate_wellScoped_map :
    let engine : EngineId := ⟨0⟩
    let other : EngineId := ⟨1⟩
    let world : World := (Builder.empty.build (Builder.empty.build .empty).2).2
    let scope : Scope := Scope.empty.define "fs" (.list [.callable .noop])
    let node : Node := .call "map" [.name "fs",
      .arrow ["x"] (some (.arrow ["y"] (some (.name "y"))))]
    ∃ left, Yields (evaluateAt 3 engine scope node) world
        (.ok (.list [.callable (.made 1)])) left ∧
      ∀ now, now ∈ [left, (other.register (.plain "min" fun _ => .fail .divisionByZero) left).2] →
      ∀ depth result last, Yields (callAt depth (.made 1) [.callable .noop]) now result last →
        SoundEnd Value.Tame result last := by
  intro engine other world scope node
  have noopTame : ∀ world, (Value.callable .noop).Tame world :=
    fun _ => Value.tame_callable .noop
  have tame : scope.Tame world := by
    intro name value found
    rw [Scope.lookup?_define, Scope.lookup?_empty] at found
    split at found
    · cases found
      exact Value.tame_list fun item there => List.mem_singleton.mp there ▸ noopTame world
    · cases found
  have inner : WellScoped {x | x ∈ ["x"]} (.arrow ["y"] (some (.name "y"))) :=
    .arrow (.name List.mem_cons_self)
  have wellScoped : WellScoped {x | scope.contains x} (.call Builtins.map.name
      [.name "fs", .arrow ["x"] (some (.arrow ["y"] (some (.name "y"))))]) := by
    refine .call (by simp [Builtins.all]) fun argument there => ?_
    rw [List.mem_cons, List.mem_singleton] at there
    rcases there with rfl | rfl
    · exact .name rfl
    · exact .arrow inner
  have builtins : world.HasBuiltins engine := rfl
  obtain ⟨left, run⟩ : ∃ left, Yields (evaluateAt 3 engine scope node) world
      (.ok (.list [.callable (.made 1)])) left := ⟨_, rfl⟩
  refine ⟨left, run, fun now there depth result last call => ?_⟩
  rw [List.mem_cons, List.mem_singleton] at there
  have history : Reaches left now := by
    rcases there with rfl | rfl
    · exact .here
    · exact .register other _ .here
  have stillBuiltins : ∀ behind parameters body,
      now.closure? (.made 1) = some (.arrow behind parameters body) → now.HasBuiltins behind := by
    intro behind parameters body found
    cases run
    rcases there with rfl | rfl
    · cases found
      rfl
    · cases found
      rfl
  have safe := (evaluate_wellScoped builtins tame wellScoped run).2 _ rfl (.made 1)
    (.item List.mem_cons_self .self) now history stillBuiltins
  refine safe [.callable .noop] (fun argument there => ?_) depth result last call
  exact List.mem_singleton.mp there ▸ noopTame now

end ArrowExpr
