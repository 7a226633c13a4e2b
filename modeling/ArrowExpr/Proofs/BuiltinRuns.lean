import ArrowExpr.Proofs.Callables
import ArrowExpr.Proofs.ScopeSoundness
/-!
# Runs of engines with exactly the builtins

An engine with exactly the builtins can do little: it evaluates, it makes arrow functions, and `map`
calls what it is given. If all callables at hand are the no-op or arrow functions of such engines
(`BuiltinArrow`), then so are those in what an evaluation or a call yields, and neither of them changes
an engine. Anything else that is asked of the arrow functions is a condition on their bodies, the
`kind`.

`Staying` says this of a run, and on demand also that the run ends. `Staying.evaluateNode` and
`Staying.callClosure` take a run apart into the runs inside it and ask the same of those:

* to show that they end takes a kind of bodies and a measure that goes down;
* to show that they leave alone what is not their own takes neither.
-/

namespace ArrowExpr

open EvalM

/-! ## Arrow functions of engines with exactly the builtins -/

/-- The callable is the no-op, or it came from an arrow function with such a body and an engine with
exactly the builtins. -/
inductive BuiltinArrow (kind : Node → Prop) (world : World) : CallableId → Prop
  | noop : BuiltinArrow kind world .noop
  | arrow {id : CallableId} {engine : EngineId} {parameters : List String} {body : Node} :
      world.closure? id = some (.arrow engine parameters body) → world.HasBuiltins engine →
      kind body → BuiltinArrow kind world id

/-- Every callable in the value is such an arrow function. -/
def Value.BuiltinArrows (kind : Node → Prop) (value : Value) (world : World) : Prop :=
  value.Within {id | BuiltinArrow kind world id}

/-- Every callable in the scope is such an arrow function. -/
def Scope.BuiltinArrows (kind : Node → Prop) (scope : Scope) (world : World) : Prop :=
  scope.Within {id | BuiltinArrow kind world id}

variable {kind : Node → Prop}

namespace World.Stays

variable {before after : World}

theorem arrow (stays : before.Stays after) {id : CallableId} (arrow : BuiltinArrow kind before id) :
    BuiltinArrow kind after id := by
  cases arrow with
  | noop => exact .noop
  | arrow found builtins isKind =>
    exact .arrow (stays.closure? _ _ found) (stays.builtins _ builtins) isKind

theorem arrows (stays : before.Stays after) {value : Value}
    (arrows : value.BuiltinArrows kind before) : value.BuiltinArrows kind after :=
  arrows.mono fun _ arrow => stays.arrow arrow

theorem arrowsInScope (stays : before.Stays after) {scope : Scope}
    (arrows : scope.BuiltinArrows kind before) : scope.BuiltinArrows kind after :=
  fun name value found => stays.arrows (arrows name value found)

end World.Stays

/-! ## Runs that leave engines and callables as they are -/

/-- From the world on, the run keeps closures and builtins, and its value is `good` in the world that
it leaves. If `total`, the run does end, in a value or an error. -/
structure Staying {α : Type} (total : Prop) (good : α → World → Prop) (run : EvalM α)
    (world : World) : Prop where
  stays : Ends run world fun outcome left => world.Stays left ∧ ∀ a, outcome = .ok a → good a left
  ends : total → ∃ outcome left, Yields run world outcome left

namespace Staying

variable {α β : Type} {total : Prop} {good : α → World → Prop} {next : β → World → Prop}
  {world : World}

theorem of_yields {run : EvalM α} {outcome : Except EvalError α} {left : World}
    (ran : Yields run world outcome left) (stays : world.Stays left)
    (value : ∀ a, outcome = .ok a → good a left) : Staying total good run world :=
  ⟨.of_yields ran ⟨stays, value⟩, fun _ => ⟨outcome, left, ran⟩⟩

theorem pure {a : α} (holds : good a world) : Staying total good (Pure.pure a) world :=
  of_yields (run_pure world a) (.refl world) fun _ same => Except.ok.inj same ▸ holds

theorem throw (error : EvalError) : Staying total good (MonadExcept.throw error) world :=
  of_yields (run_throw world error) (.refl world) nofun

theorem ofOutcome {outcome : Outcome} {good : Value → World → Prop}
    (holds : ∀ value, outcome = .ok value → good value world) :
    Staying total good (EvalM.ofOutcome outcome) world :=
  of_yields (run_ofOutcome world outcome) (.refl world) holds

theorem fail (error : EvalError) {good : Value → World → Prop} :
    Staying total good (EvalM.ofOutcome (.error error)) world :=
  ofOutcome nofun

/-- A run that is cut off is only partial. -/
theorem outOfDepth (partially : ¬total) : Staying total good EvalM.outOfDepth world :=
  ⟨.outOfDepth, fun isTotal => absurd isTotal partially⟩

theorem bind {first : EvalM α} {f : α → EvalM β} (staying : Staying total good first world)
    (nextStaying : ∀ a left, world.Stays left → good a left → Staying total next (f a) left) :
    Staying total next (first >>= f) world where
  stays := by
    refine .bind (staying.stays.mono fun outcome middle there => ?_)
    obtain ⟨stays, value⟩ := there
    cases outcome with
    | ok a =>
      refine (nextStaying a middle stays (value a rfl)).stays.mono fun _ _ last => ?_
      exact ⟨stays.trans last.1, last.2⟩
    | error error => exact ⟨stays, nofun⟩
  ends := by
    intro isTotal
    obtain ⟨outcome, middle, ran⟩ := staying.ends isTotal
    obtain ⟨stays, value⟩ := staying.stays outcome middle ran
    cases outcome with
    | ok a =>
      obtain ⟨last, left, nextRan⟩ := (nextStaying a middle stays (value a rfl)).ends isTotal
      exact ⟨last, left, ran.bind nextRan⟩
    | error error => exact ⟨.error error, middle, ran.bind_error⟩

/-- Goes on from a first step whose end is known. -/
theorem after {first : EvalM α} {f : α → EvalM β} {a : α} {middle : World}
    (ran : Yields first world (.ok a) middle) (stays : world.Stays middle)
    (rest : Staying total next (f a) middle) : Staying total next (first >>= f) world := by
  have step : Staying total (fun b left => b = a ∧ left = middle) first world :=
    of_yields ran stays fun b same => ⟨(Except.ok.inj same).symm, rfl⟩
  refine step.bind fun b left _ same => ?_
  obtain ⟨rfl, rfl⟩ := same
  exact rest

theorem mapM {f : β → EvalM α} {items : List β}
    (stable : ∀ a before after, World.Stays before after → good a before → good a after)
    (staying : ∀ item ∈ items, ∀ left, world.Stays left → Staying total good (f item) left) :
    Staying total (fun results left => ∀ a ∈ results, good a left) (items.mapM f) world := by
  induction items generalizing world with
  | nil => exact pure (List.forall_mem_nil _)
  | cons item rest ih =>
    rw [List.mapM_cons]
    refine (staying item List.mem_cons_self world (.refl world)).bind fun a middle stays holds => ?_
    have restStaying : ∀ other ∈ rest, ∀ left, middle.Stays left →
        Staying total good (f other) left :=
      fun other there left later =>
        staying other (List.mem_cons_of_mem _ there) left (stays.trans later)
    -- what is good when it is computed must still be so after the later items
    refine (ih restStaying).bind fun results left later allHold => pure ?_
    exact List.forall_mem_cons.mpr ⟨stable _ _ _ later holds, allHold⟩

/-- An error is caught, and then it is not a value any more. -/
theorem attempt {run : EvalM Value} {good : Value → World → Prop}
    (staying : Staying total good run world) :
    Staying total (fun outcome left => ∀ value, outcome = .ok value → good value left)
      (EvalM.attempt run) world where
  stays := by
    refine .attempt (staying.stays.mono fun outcome left there => ⟨there.1, ?_⟩)
    rintro _ same
    cases same
    exact there.2
  ends isTotal := by
    obtain ⟨outcome, left, ran⟩ := staying.ends isTotal
    exact ⟨.ok outcome, left, ran.attempt⟩

end Staying

/-! ## The builtins -/

namespace Staying

variable {total : Prop} {inner : Interpreter} {world : World}

/-- Calls one item after the other. -/
theorem perform_mapItems {id : CallableId} {done items : List Value}
    (calls : ∀ left, world.Stays left → ∀ item ∈ items,
      Staying total (Value.BuiltinArrows kind) (inner.call id [item]) left)
    (doneArrows : ∀ value ∈ done, value.BuiltinArrows kind world) :
    Staying total (Value.BuiltinArrows kind) (inner.perform (Builtins.mapItems id done items))
      world := by
  induction items generalizing world done with
  | nil =>
    refine ofOutcome fun value same => ?_
    cases same
    exact .list fun item there => doneArrows item (List.mem_reverse.mp there)
  | cons item rest ih =>
    have first := calls world (.refl world) item List.mem_cons_self
    refine first.attempt.bind fun outcome left stays value => ?_
    cases outcome with
    | error error => exact fail _
    | ok result =>
      refine ih (fun last later other there => ?_) (List.forall_mem_cons.mpr ⟨value _ rfl, ?_⟩)
      · exact calls last (stays.trans later) other (List.mem_cons_of_mem _ there)
      · exact fun other there => stays.arrows (doneArrows other there)

/-- A builtin stays, if the calls that `map` makes do. -/
theorem run_builtin {builtin : HostFunction} (there : builtin ∈ Builtins.all) {scope : Scope}
    {arguments : List Value} (arrows : ∀ argument ∈ arguments, argument.BuiltinArrows kind world)
    (calls : builtin.name = "map" → ∀ left, world.Stays left → ∀ id item,
      BuiltinArrow kind left id → item.BuiltinArrows kind left →
      Staying total (Value.BuiltinArrows kind) (inner.call id [item]) left) :
    Staying total (Value.BuiltinArrows kind) (inner.run builtin scope arguments) world := by
  have noted : world.Stays (world.record (.function builtin arguments)) := .record world _
  refine after (run_update world _) noted ?_
  have extremes : ∀ name op, Staying total (Value.BuiltinArrows kind)
      (inner.perform (.done (Builtins.extreme name op arguments)))
      (world.record (.function builtin arguments)) :=
    fun name op => ofOutcome fun value found =>
      noted.arrows (arrows value (Builtins.extreme_mem found))
  simp only [Builtins.all, List.mem_cons, List.not_mem_nil, or_false] at there
  rcases there with rfl | rfl | rfl
  · exact extremes "min" .lt
  · exact extremes "max" .gt
  · show Staying total _ (inner.perform (Builtins.mapAction arguments)) _
    unfold Builtins.mapAction
    split
    · next items id =>
      have list := arrows (.list items) List.mem_cons_self
      have isArrow := arrows (.callable id) (List.mem_cons_of_mem _ List.mem_cons_self) id .self
      refine perform_mapItems (fun left stays item itemThere => ?_) (List.forall_mem_nil _)
      have later := noted.trans stays
      exact calls rfl left later id item (later.arrow isArrow)
        (later.arrows (list.items item itemThere))
    · exact fail _
    · exact fail _

end Staying

/-! ## Evaluation and calls -/

/-- The nodes that an evaluation of the node itself evaluates. The body of an arrow function is not
among them. -/
def Node.children : Node → List Node
  | .constant _ | .name _ | .arrow _ _ => []
  | .unary _ operand => [operand]
  | .binary _ left right => [left, right]
  | .call _ arguments => arguments
  | .list items => items

namespace Staying

variable {total : Prop} {inner : Interpreter} {world : World} {engine : EngineId} {scope : Scope}

/-- The outcome of an operator holds no callable. -/
theorem ofPlain {outcome : Outcome} (plain : outcome.Plain) :
    Staying total (Value.BuiltinArrows kind) (EvalM.ofOutcome outcome) world :=
  ofOutcome fun _ same => .of_plain (same ▸ plain)

/-- An evaluation stays if those of the children do, and the calls that `map` makes. An arrow
function must be of the kind. -/
theorem evaluateNode {node : Node} (builtins : world.HasBuiltins engine)
    (arrows : scope.BuiltinArrows kind world)
    (children : ∀ child ∈ node.children, ∀ left, world.Stays left →
      Staying total (Value.BuiltinArrows kind) (inner.evaluate engine scope child) left)
    (calls : ∀ arguments, node = .call "map" arguments → ∀ left, world.Stays left → ∀ id item,
      BuiltinArrow kind left id → item.BuiltinArrows kind left →
      Staying total (Value.BuiltinArrows kind) (inner.call id [item]) left)
    (bodies : ∀ parameters body, node = .arrow parameters (some body) → kind body) :
    Staying total (Value.BuiltinArrows kind) (inner.evaluateNode engine scope node) world := by
  have stable : ∀ value before after, World.Stays before after →
      Value.BuiltinArrows kind value before → Value.BuiltinArrows kind value after :=
    fun _ _ _ stays => stays.arrows
  cases node with
  | constant literal =>
    exact pure fun id holds => absurd holds (Value.ofLiteral_not_holds literal id)
  | name x =>
    rw [Interpreter.evaluateNode]
    split
    · next value found => exact pure (arrows x value found)
    · exact throw _
  | unary op operand =>
    exact (children operand List.mem_cons_self world (.refl world)).bind fun value _ _ _ =>
      ofPlain (op.apply_plain value)
  | binary op left right =>
    refine (children left List.mem_cons_self world (.refl world)).bind fun value middle stays _ => ?_
    split
    · exact pure (.bool _)
    · exact (children right (List.mem_cons_of_mem _ List.mem_cons_self) middle stays).bind
        fun other _ _ _ => ofPlain (op.apply_plain value other)
  | call name arguments =>
    refine after (run_ask world _) (.refl world) ?_
    rw [builtins]
    split
    · next function found =>
      obtain ⟨there, same⟩ := Builtins.mem_of_find?_registry found
      refine (mapM stable children).bind fun values middle stays values => ?_
      refine run_builtin there values fun isMap left later => ?_
      exact calls arguments (congrArg (Node.call · arguments) (same.symm.trans isMap)) left
        (stays.trans later)
    · exact throw _
  | list items =>
    exact (mapM stable children).bind fun values _ _ values => pure (.list values)
  | arrow parameters body =>
    cases body with
    | none => exact pure (.callable .noop)
    | some body =>
      have stays := World.Stays.addClosure world (.arrow engine parameters body)
      exact after (run_make world _) stays (pure (.callable
        (.arrow (world.closure?_made _) (stays.builtins engine builtins) (bodies _ body rfl))))

/-- A call stays if the evaluation of the body does. -/
theorem callClosure {id : CallableId} {arguments : List Value} (arrow : BuiltinArrow kind world id)
    (argumentsArrows : ∀ argument ∈ arguments, argument.BuiltinArrows kind world)
    (bodies : ∀ engine scope body left, kind body → world.Stays left → left.HasBuiltins engine →
      scope.BuiltinArrows kind left →
      Staying total (Value.BuiltinArrows kind) (inner.evaluate engine scope body) left) :
    Staying total (Value.BuiltinArrows kind) (inner.callClosure id arguments) world := by
  refine after (run_ask world _) (.refl world) ?_
  cases arrow with
  | noop => exact pure .null
  | @arrow _ engine parameters body found builtins isKind =>
    rw [found]
    show Staying total _ (if _ then _ else _) world
    split
    · exact throw _
    · next few =>
      have noted : world.Stays (world.record (.closure id arguments)) := .record world _
      have binds := Scope.bindsLast_ofList (Nat.not_lt.mp few)
      refine after (run_update world _) noted (bodies _ _ _ _ isKind noted ?_ ?_)
      · exact noted.builtins engine builtins
      · exact fun name value bound =>
          noted.arrows (argumentsArrows value (binds.mem_of_lookup? bound))

end Staying

end ArrowExpr
