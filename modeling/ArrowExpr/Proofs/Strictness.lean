import ArrowExpr.Proofs.BuiltinRuns
import ArrowExpr.Proofs.Pairing
/-!
# Short-circuit evaluation agrees with strict evaluation

A strict evaluator evaluates both operands of `and` and `or` and then applies the operator, as it does
for any other operator (`strictlyAt`). With exactly the builtins there is nothing that the skipped
operand could have done to the rest, but one thing: it may have made callables, so what is made later
is numbered differently. Wherever strict evaluation ends in a value, the real one ends in the same
value up to a renaming of the callables made on the way (`evaluate_of_strict`). Equality of callables
can be observed, so the renaming has to be one to one.

The renaming grows with the two runs. `Sides` holds it together with the two worlds, and `Follows`
says of two runs that the real one ends in a value if the strict one does, on later sides. There is
one rule for each way to put runs together; the one with an idea in it is `Follows.skip`.
-/

namespace ArrowExpr

open EvalM

/-! ## Strict evaluation -/

/-- Evaluates an expression as `Interpreter.evaluateNode` does, but `and` and `or` do not leave out
the right operand. -/
def Interpreter.evaluateStrictly (inner : Interpreter) (engine : EngineId) (scope : Scope) :
    Node → EvalM Value
  | .binary op left right => do
    let leftValue ← inner.evaluate engine scope left
    let rightValue ← inner.evaluate engine scope right
    ofOutcome (op.apply leftValue rightValue)
  | node => inner.evaluateNode engine scope node

/-- Only `and` and `or` make a difference. -/
theorem Interpreter.evaluateStrictly_eq_or (inner : Interpreter) (engine : EngineId) (scope : Scope)
    (node : Node) : (∃ op left right, node = .binary op left right ∧ op.isShortCircuit) ∨
      inner.evaluateStrictly engine scope node = inner.evaluateNode engine scope node := by
  cases node with
  | binary op left right =>
    cases short : op.isShortCircuit with
    | true => exact .inl ⟨op, left, right, rfl, short⟩
    | false =>
      refine .inr ?_
      simp only [evaluateStrictly, evaluateNode, short, Bool.false_and, Bool.false_eq_true, if_false]
  | _ => exact .inr rfl

mutual

/-- Evaluates an expression strictly, with at most `depth` evaluations and calls inside each other. -/
def strictlyAt : Nat → EngineId → Scope → Node → EvalM Value
  | 0, _, _, _ => outOfDepth
  | depth + 1, engine, scope, node =>
    Interpreter.evaluateStrictly ⟨strictlyAt depth, strictCallAt depth⟩ engine scope node

/-- Calls a callable, whose body is evaluated strictly. -/
def strictCallAt : Nat → CallableId → List Value → EvalM Value
  | 0, _, _ => outOfDepth
  | depth + 1, id, arguments =>
    Interpreter.callClosure ⟨strictlyAt depth, strictCallAt depth⟩ id arguments

end

/-- The strict interpreter of a given depth. -/
def Interpreter.strict (depth : Nat) : Interpreter := ⟨strictlyAt depth, strictCallAt depth⟩

/-- Arrow functions of engines with exactly the builtins, whatever their bodies are. -/
def anyBody : Node → Prop := fun _ => True

/-- What the interpreter evaluates and calls leaves engines and callables as they are. -/
structure Interpreter.IsStaying (inner : Interpreter) : Prop where
  evaluate : ∀ {world engine scope node}, World.HasBuiltins world engine →
    Scope.BuiltinArrows anyBody scope world →
    Staying False (Value.BuiltinArrows anyBody) (inner.evaluate engine scope node) world
  call : ∀ {world id arguments}, BuiltinArrow anyBody world id →
    (∀ argument ∈ arguments, Value.BuiltinArrows anyBody argument world) →
    Staying False (Value.BuiltinArrows anyBody) (inner.call id arguments) world

namespace Interpreter

theorem IsStaying.evaluateNode {inner : Interpreter} (staying : inner.IsStaying) {world : World}
    {engine : EngineId} {scope : Scope} {node : Node} (builtins : world.HasBuiltins engine)
    (arrows : scope.BuiltinArrows anyBody world) :
    Staying False (Value.BuiltinArrows anyBody) (inner.evaluateNode engine scope node) world := by
  refine .evaluateNode builtins arrows (fun child _ left stays => ?_) ?_ fun _ _ _ => trivial
  · exact staying.evaluate (stays.builtins engine builtins) (stays.arrowsInScope arrows)
  · exact fun _ _ left _ id item arrow itemArrows =>
      staying.call arrow fun _ there => List.mem_singleton.mp there ▸ itemArrows

theorem IsStaying.evaluateStrictly {inner : Interpreter} (staying : inner.IsStaying)
    {world : World} {engine : EngineId} {scope : Scope} {node : Node}
    (builtins : world.HasBuiltins engine) (arrows : scope.BuiltinArrows anyBody world) :
    Staying False (Value.BuiltinArrows anyBody) (inner.evaluateStrictly engine scope node) world := by
  rcases inner.evaluateStrictly_eq_or engine scope node with ⟨op, left, right, rfl, _⟩ | same
  · refine (staying.evaluate builtins arrows).bind fun value middle stays _ => ?_
    refine (staying.evaluate (stays.builtins engine builtins) (stays.arrowsInScope arrows)).bind ?_
    exact fun other _ _ _ => .ofPlain (op.apply_plain value other)
  · rw [same]
    exact staying.evaluateNode builtins arrows

theorem IsStaying.callClosure {inner : Interpreter} (staying : inner.IsStaying) {world : World}
    {id : CallableId} {arguments : List Value} (arrow : BuiltinArrow anyBody world id)
    (arrows : ∀ argument ∈ arguments, argument.BuiltinArrows anyBody world) :
    Staying False (Value.BuiltinArrows anyBody) (inner.callClosure id arguments) world :=
  .callClosure arrow arrows fun _ _ _ _ _ _ builtins arrows => staying.evaluate builtins arrows

theorem strict_isStaying (depth : Nat) : (strict depth).IsStaying := by
  induction depth with
  | zero => exact ⟨fun _ _ => .outOfDepth not_false, fun _ _ => .outOfDepth not_false⟩
  | succ depth ih => exact ⟨ih.evaluateStrictly, ih.callClosure⟩

theorem ofDepth_isStaying (depth : Nat) : (ofDepth depth).IsStaying := by
  induction depth with
  | zero => exact ⟨fun _ _ => .outOfDepth not_false, fun _ _ => .outOfDepth not_false⟩
  | succ depth ih => exact ⟨ih.evaluateNode, ih.callClosure⟩

end Interpreter

/-- The left operand decides in the same way as the operator itself does, whatever the right one is. -/
theorem BinaryOp.apply_of_decides {op : BinaryOp} {left : Value}
    (decides : (op.isShortCircuit && left.isTruthy == (op == .or)) = true) (right : Value) :
    op.apply left right = .ok (.bool left.isTruthy) := by
  cases op with
  | and =>
    have isFalse : (left.isTruthy == false) = true := decides
    rw [apply, beq_iff_eq.mp isFalse, Bool.false_and]
  | or =>
    have isTrue : (left.isTruthy == true) = true := decides
    rw [apply, beq_iff_eq.mp isTrue, Bool.true_or]
  | _ => cases decides

/-! ## Two worlds side by side -/

mutual

/-- A callable in a value stands for one in the other value. -/
theorem Value.Paired.exists_rel {pairing : Pairing} : ∀ {value other : Value},
    value.Paired pairing other → ∀ {a}, value.Holds a → ∃ b, pairing.rel a b
  | _, _, .list items, _, .item there holds => Value.Paired.exists_relAll items there holds
  | _, _, .callable related, _, .self => ⟨_, related⟩

theorem Value.Paired.exists_relAll {pairing : Pairing} : ∀ {values others : List Value},
    List.Forall₂ (Value.Paired pairing) values others →
    ∀ {value a}, value ∈ values → value.Holds a → ∃ b, pairing.rel a b
  | _, _, .cons first _, _, _, .head _, holds => Value.Paired.exists_rel first holds
  | _, _, .cons _ rest, _, _, .tail _ there, holds => Value.Paired.exists_relAll rest there holds

end

/-- Both callables are the no-op, or they came from the same arrow function, and its engine has
exactly the builtins on both sides. -/
inductive SameArrow (strict real : World) : CallableId → CallableId → Prop
  | noop : SameArrow strict real .noop .noop
  | arrow {a b : CallableId} {engine : EngineId} {parameters : List String} {body : Node} :
      strict.closure? a = some (.arrow engine parameters body) →
      real.closure? b = some (.arrow engine parameters body) →
      strict.HasBuiltins engine → real.HasBuiltins engine → SameArrow strict real a b

/-- What there is stays. -/
theorem World.Stays.callables {before after : World} (stays : before.Stays after) :
    before.callables ⊆ after.callables := by
  rintro _ (rfl | ⟨index, rfl, inside⟩)
  · exact .inl rfl
  · exact World.mem_callables (stays.closure? (.made index) _ (Array.getElem?_eq_getElem inside))

theorem BuiltinArrow.sameArrow {world : World} {id : CallableId}
    (arrow : BuiltinArrow anyBody world id) : SameArrow world world id id := by
  cases arrow with
  | noop => exact .noop
  | arrow found builtins _ => exact .arrow found found builtins builtins

namespace SameArrow

variable {strict real : World} {a b : CallableId}

theorem stays {strictLater realLater : World} (same : SameArrow strict real a b)
    (strictStays : strict.Stays strictLater) (realStays : real.Stays realLater) :
    SameArrow strictLater realLater a b := by
  cases same with
  | noop => exact .noop
  | arrow found foundToo builtins builtinsToo =>
    exact .arrow (strictStays.closure? _ _ found) (realStays.closure? _ _ foundToo)
      (strictStays.builtins _ builtins) (realStays.builtins _ builtinsToo)

theorem builtinArrow (same : SameArrow strict real a b) : BuiltinArrow anyBody strict a := by
  cases same with
  | noop => exact .noop
  | arrow found _ builtins _ => exact .arrow found builtins trivial

theorem callables (same : SameArrow strict real a b) : a ∈ strict.callables ∧ b ∈ real.callables := by
  cases same with
  | noop => exact ⟨.inl rfl, .inl rfl⟩
  | arrow found foundToo _ _ => exact ⟨World.mem_callables found, World.mem_callables foundToo⟩

theorem closure?_eq (same : SameArrow strict real a b) : strict.closure? a = real.closure? b := by
  cases same with
  | noop => rfl
  | arrow found foundToo _ _ => rw [found, foundToo]

end SameArrow

/-- The worlds of a strict and a real evaluation, and the callables that stand for each other. -/
structure Sides where
  pairing : Pairing
  strict : World
  real : World
  arrows : ∀ a b, pairing.rel a b → SameArrow strict real a b

namespace Sides

/-- Both worlds have gone on. What stood for each other still does, and what does so only now is new
on both sides. -/
structure Later (before after : Sides) : Prop where
  strict : before.strict.Stays after.strict
  real : before.real.Stays after.real
  kept : ∀ a b, before.pairing.rel a b → after.pairing.rel a b
  new : ∀ a b, after.pairing.rel a b →
    before.pairing.rel a b ∨ a ∉ before.strict.callables ∧ b ∉ before.real.callables

theorem Later.refl (sides : Sides) : sides.Later sides :=
  ⟨.refl _, .refl _, fun _ _ related => related, fun _ _ related => .inl related⟩

theorem Later.trans {a b c : Sides} (first : a.Later b) (second : b.Later c) : a.Later c where
  strict := first.strict.trans second.strict
  real := first.real.trans second.real
  kept x y related := second.kept x y (first.kept x y related)
  new x y related := by
    rcases second.new x y related with before | ⟨newStrict, newReal⟩
    · exact first.new x y before
    · exact .inr ⟨fun there => newStrict (first.strict.callables there),
        fun there => newReal (first.real.callables there)⟩

/-- The worlds go on, and no more callables stand for each other. -/
def goOn (sides : Sides) {strict real : World} (strictStays : sides.strict.Stays strict)
    (realStays : sides.real.Stays real) : Sides where
  pairing := sides.pairing
  strict := strict
  real := real
  arrows a b related := (sides.arrows a b related).stays strictStays realStays

theorem later_goOn (sides : Sides) {strict real : World} (strictStays : sides.strict.Stays strict)
    (realStays : sides.real.Stays real) : sides.Later (sides.goOn strictStays realStays) :=
  ⟨strictStays, realStays, fun _ _ related => related, fun _ _ related => .inl related⟩

/-- The engine has exactly the builtins on both sides. -/
def HasBuiltins (sides : Sides) (engine : EngineId) : Prop :=
  sides.strict.HasBuiltins engine ∧ sides.real.HasBuiltins engine

theorem Later.builtins {before after : Sides} (later : before.Later after) {engine : EngineId}
    (builtins : before.HasBuiltins engine) : after.HasBuiltins engine :=
  ⟨later.strict.builtins engine builtins.1, later.real.builtins engine builtins.2⟩

/-- Both sides make a callable of the same arrow function. -/
def addArrow (sides : Sides) {engine : EngineId} (builtins : sides.HasBuiltins engine)
    (parameters : List String) (body : Node) : Sides where
  pairing := sides.pairing.extend (.made sides.strict.closures.size)
    (.made sides.real.closures.size) fun c d related => by
      obtain ⟨there, thereToo⟩ := (sides.arrows c d related).callables
      exact ⟨fun same => sides.strict.next_not_mem_callables (same ▸ there),
        fun same => sides.real.next_not_mem_callables (same ▸ thereToo)⟩
  strict := (sides.strict.addClosure (.arrow engine parameters body)).2
  real := (sides.real.addClosure (.arrow engine parameters body)).2
  arrows := by
    rintro a b (related | ⟨rfl, rfl⟩)
    · exact (sides.arrows a b related).stays (.addClosure _ _) (.addClosure _ _)
    · exact .arrow (World.closure?_made _ _) (World.closure?_made _ _) builtins.1 builtins.2

theorem later_addArrow (sides : Sides) {engine : EngineId} (builtins : sides.HasBuiltins engine)
    (parameters : List String) (body : Node) :
    sides.Later (sides.addArrow builtins parameters body) where
  strict := .addClosure _ _
  real := .addClosure _ _
  kept _ _ related := .inl related
  new := by
    rintro a b (related | ⟨rfl, rfl⟩)
    · exact .inl related
    · exact .inr ⟨sides.strict.next_not_mem_callables, sides.real.next_not_mem_callables⟩

/-- On the strict side, what is in a paired scope came from arrow functions. -/
theorem builtinArrows (sides : Sides) {scope other : Scope}
    (paired : scope.Paired sides.pairing other) : scope.BuiltinArrows anyBody sides.strict := by
  intro name value found id holds
  have bound := paired name
  rw [found] at bound
  generalize other.lookup? name = otherValue at bound
  cases bound with
  | some values =>
    obtain ⟨otherId, related⟩ := values.exists_rel holds
    exact (sides.arrows id otherId related).builtinArrow

end Sides

/-! ## The real run follows the strict one -/

/-- If the strict run ends in a value, then the real one ends in a value too, on later sides, and the
two values are `good` for what stands for each other there. -/
def Follows {α β : Type} (good : Pairing → α → β → Prop) (sides : Sides) (strict : EvalM α)
    (real : EvalM β) : Prop :=
  ∀ a left, Yields strict sides.strict (.ok a) left →
    ∃ after : Sides, ∃ b, after.strict = left ∧ Yields real sides.real (.ok b) after.real ∧
      sides.Later after ∧ good after.pairing a b

namespace Follows

variable {α β γ δ : Type} {good : Pairing → α → β → Prop} {next : Pairing → γ → δ → Prop}
  {sides : Sides}

theorem pure {a : α} {b : β} (holds : good sides.pairing a b) :
    Follows good sides (Pure.pure a) (Pure.pure b) := by
  intro value left ran
  cases ran
  exact ⟨sides, b, rfl, run_pure _ b, .refl sides, holds⟩

/-- Nothing is claimed of a strict run that fails. -/
theorem throw (error : EvalError) (real : EvalM β) :
    Follows good sides (MonadExcept.throw error) real :=
  fun _ _ ran => nomatch ran

theorem fail (error : EvalError) (real : EvalM Value) {good : Pairing → Value → Value → Prop} :
    Follows good sides (EvalM.ofOutcome (.error error)) real :=
  fun _ _ ran => nomatch ran

theorem outOfDepth (real : EvalM β) : Follows good sides EvalM.outOfDepth real :=
  fun _ _ ran => nomatch ran

theorem ofOutcome {outcome other : Outcome} (paired : outcome.Paired sides.pairing other) :
    Follows Value.Paired sides (EvalM.ofOutcome outcome) (EvalM.ofOutcome other) := by
  cases paired with
  | value values => exact pure values
  | error error => exact fail _ _

theorem bind {first : EvalM α} {second : EvalM β} {f : α → EvalM γ} {g : β → EvalM δ}
    (follows : Follows good sides first second)
    (nextFollows : ∀ after, sides.Later after → ∀ a b, good after.pairing a b →
      Follows next after (f a) (g b)) :
    Follows next sides (first >>= f) (second >>= g) := by
  intro c left ran
  obtain ⟨a, middle, firstRan, nextRan⟩ := ran.exists_of_bind
  obtain ⟨after, b, rfl, secondRan, later, holds⟩ := follows a middle firstRan
  obtain ⟨last, d, isLeft, lastRan, lastLater, lastHolds⟩ := nextFollows after later a b holds c left
    nextRan
  exact ⟨last, d, isLeft, secondRan.bind lastRan, later.trans lastLater, lastHolds⟩

/-- Both runs go on from a first step whose end is known. -/
theorem after {first : EvalM α} {second : EvalM β} {f : α → EvalM γ} {g : β → EvalM δ} {a : α} {b : β}
    (later : Sides) (ran : Yields first sides.strict (.ok a) later.strict)
    (ranToo : Yields second sides.real (.ok b) later.real) (isLater : sides.Later later)
    (rest : Follows next later (f a) (g b)) : Follows next sides (first >>= f) (second >>= g) := by
  intro c left whole
  obtain ⟨_, _, firstRan, nextRan⟩ := whole.exists_of_bind
  cases Option.some.inj (ran.symm.trans firstRan)
  obtain ⟨last, d, isLeft, lastRan, lastLater, holds⟩ := rest c left nextRan
  exact ⟨last, d, isLeft, ranToo.bind lastRan, isLater.trans lastLater, holds⟩

/-- Both runs ask their worlds and go on. -/
theorem ask {first second : World → α} {f : α → EvalM γ} {g : α → EvalM δ}
    (rest : Follows next sides (f (first sides.strict)) (g (second sides.real))) :
    Follows next sides (EvalM.ask first >>= f) (EvalM.ask second >>= g) :=
  after sides (run_ask _ _) (run_ask _ _) (.refl sides) rest

/-- Both runs note the start of a body and go on. -/
theorem record {event other : Event} {f : EvalM γ} {g : EvalM δ}
    (rest : ∀ after, sides.Later after → Follows next after f g) :
    Follows next sides (EvalM.update (·.record event) >>= fun _ => f)
      (EvalM.update (·.record other) >>= fun _ => g) :=
  after (sides.goOn (.record _ event) (.record _ other)) (run_update _ _) (run_update _ _)
    (sides.later_goOn _ _) (rest _ (sides.later_goOn _ _))

/-- Both runs make a callable of the same arrow function. -/
theorem makeArrow {engine : EngineId} (builtins : sides.HasBuiltins engine)
    (parameters : List String) (body : Node) :
    Follows Value.Paired sides
      (EvalM.make (·.addClosure (.arrow engine parameters body)) >>= fun id =>
        Pure.pure (.callable id))
      (EvalM.make (·.addClosure (.arrow engine parameters body)) >>= fun id =>
        Pure.pure (.callable id)) :=
  after (sides.addArrow builtins parameters body) (run_make _ _) (run_make _ _)
    (sides.later_addArrow builtins parameters body) (pure (.callable (.inr ⟨rfl, rfl⟩)))

theorem mapM {f g : γ → EvalM Value} {items : List γ}
    (follows : ∀ item ∈ items, ∀ after, sides.Later after →
      Follows Value.Paired after (f item) (g item)) :
    Follows (fun pairing => List.Forall₂ (Value.Paired pairing)) sides (items.mapM f)
      (items.mapM g) := by
  induction items generalizing sides with
  | nil => exact pure .nil
  | cons item rest ih =>
    rw [List.mapM_cons, List.mapM_cons]
    refine (follows item List.mem_cons_self sides (.refl sides)).bind fun after later a b first => ?_
    have restFollows : ∀ other ∈ rest, ∀ last, after.Later last →
        Follows Value.Paired last (f other) (g other) :=
      fun other there last lastLater =>
        follows other (List.mem_cons_of_mem _ there) last (later.trans lastLater)
    refine (ih restFollows).bind fun last lastLater as bs others => pure ?_
    exact .cons (first.mono lastLater.kept) others

/-- The skipped operand. The strict run evaluates it, which leaves engines and callables as they are,
and what the operator makes of both values is known from the left one alone. -/
theorem skip {op : BinaryOp} {left other : Value} {right : EvalM Value}
    (values : left.Paired sides.pairing other) {good : Value → World → Prop}
    (staying : Staying False good right sides.strict)
    (decides : (op.isShortCircuit && other.isTruthy == (op == .or)) = true) :
    Follows Value.Paired sides (right >>= fun value => EvalM.ofOutcome (op.apply left value))
      (Pure.pure (.bool other.isTruthy)) := by
  intro value last ran
  obtain ⟨rightValue, middle, rightRan, applied⟩ := ran.exists_of_bind
  have stays := (staying.stays _ _ rightRan).1
  rw [← values.isTruthy_eq] at decides ⊢
  rw [op.apply_of_decides decides rightValue] at applied
  cases applied
  exact ⟨sides.goOn stays (.refl _), _, rfl, run_pure _ _, sides.later_goOn _ _, .bool _⟩

end Follows

/-! ## The builtins -/

namespace Follows

variable {sides : Sides} {strict real : Interpreter}

/-- Both runs call a callable and go on with its value. If the strict call fails, so does the run. -/
theorem perform_call {a b : CallableId} {arguments others : List Value} {f g : Value → Action}
    (calls : Follows Value.Paired sides (strict.call a arguments) (real.call b others))
    (rest : ∀ after, sides.Later after → ∀ value other, value.Paired after.pairing other →
      Follows Value.Paired after (strict.perform (f value)) (real.perform (g other))) :
    Follows Value.Paired sides (strict.perform (.call a arguments (.andThen f)))
      (real.perform (.call b others (.andThen g))) := by
  intro value left ran
  have whole : Yields (EvalM.attempt (strict.call a arguments) >>= fun outcome =>
      strict.perform (Action.andThen f outcome)) sides.strict (.ok value) left := ran
  obtain ⟨outcome, _, attempted, nextRan⟩ := whole.exists_of_bind
  rw [Yields, run_attempt, Option.map_eq_some_iff] at attempted
  obtain ⟨⟨_, _⟩, called, same⟩ := attempted
  cases same
  cases outcome with
  | error error => cases nextRan
  | ok result =>
    obtain ⟨after, other, rfl, calledToo, later, results⟩ := calls result _ called
    obtain ⟨last, otherValue, isLeft, nextRanToo, lastLater, values⟩ :=
      rest after later result other results value left nextRan
    exact ⟨last, otherValue, isLeft, calledToo.attempt.bind nextRanToo, later.trans lastLater, values⟩

theorem perform_mapItems {a b : CallableId} {done otherDone items others : List Value}
    (calls : ∀ after, sides.Later after → ∀ item other, Value.Paired after.pairing item other →
      Follows Value.Paired after (strict.call a [item]) (real.call b [other]))
    (donePaired : List.Forall₂ (Value.Paired sides.pairing) done otherDone)
    (itemsPaired : List.Forall₂ (Value.Paired sides.pairing) items others) :
    Follows Value.Paired sides (strict.perform (Builtins.mapItems a done items))
      (real.perform (Builtins.mapItems b otherDone others)) := by
  induction items generalizing sides done otherDone others with
  | nil =>
    cases itemsPaired
    exact pure (.list (List.rel_reverse donePaired))
  | cons item rest ih =>
    cases itemsPaired with
    | cons first restPaired =>
      refine perform_call (calls sides (.refl sides) item _ first) fun after later value _ values => ?_
      have kept : ∀ a b, Value.Paired sides.pairing a b → Value.Paired after.pairing a b :=
        fun _ _ paired => paired.mono later.kept
      exact ih (fun last lastLater => calls last (later.trans lastLater))
        (.cons values (donePaired.imp kept)) (restPaired.imp kept)

end Follows

/-! ## Evaluation and calls -/

/-- Where the first interpreter comes to a value, so does the second one. -/
structure Interpreter.FollowedBy (strict real : Interpreter) : Prop where
  evaluate : ∀ {sides engine scope other node}, Sides.HasBuiltins sides engine →
    Scope.Paired sides.pairing scope other →
    Follows Value.Paired sides (strict.evaluate engine scope node) (real.evaluate engine other node)
  call : ∀ {sides a b arguments others}, sides.pairing.rel a b →
    List.Forall₂ (Value.Paired sides.pairing) arguments others →
    Follows Value.Paired sides (strict.call a arguments) (real.call b others)

namespace Follows

variable {sides : Sides} {strict real : Interpreter}

theorem run_builtin (follows : strict.FollowedBy real) {builtin : HostFunction}
    (there : builtin ∈ Builtins.all) {scope other : Scope} {arguments others : List Value}
    (paired : List.Forall₂ (Value.Paired sides.pairing) arguments others) :
    Follows Value.Paired sides (strict.run builtin scope arguments)
      (real.run builtin other others) := by
  refine record fun after later => ?_
  have pairedAfter : List.Forall₂ (Value.Paired after.pairing) arguments others :=
    paired.imp fun _ _ values => values.mono later.kept
  simp only [Builtins.all, List.mem_cons, List.not_mem_nil, or_false] at there
  rcases there with rfl | rfl | rfl
  · exact ofOutcome (Builtins.extreme_paired "min" .lt pairedAfter)
  · exact ofOutcome (Builtins.extreme_paired "max" .gt pairedAfter)
  · show Follows _ _ (strict.perform (Builtins.mapAction arguments))
      (real.perform (Builtins.mapAction others))
    unfold Builtins.mapAction
    split
    · next items id =>
      cases pairedAfter with
      | cons first rest =>
        cases first with
        | list itemsPaired =>
          cases rest with
          | cons second nothing =>
            cases second with
            | callable related =>
              cases nothing
              exact perform_mapItems (fun last lastLater item other values =>
                follows.call (lastLater.kept _ _ related) (.cons values .nil)) .nil itemsPaired
    · exact fail _ _
    · exact fail _ _

section Node

variable {engine : EngineId} {scope other : Scope} {node : Node}

/-- An evaluation of a node follows one of the same node, if this is so of what they evaluate and
call. -/
theorem evaluateNode (follows : strict.FollowedBy real) (builtins : sides.HasBuiltins engine)
    (paired : scope.Paired sides.pairing other) :
    Follows Value.Paired sides (strict.evaluateNode engine scope node)
      (real.evaluateNode engine other node) := by
  have inLater : ∀ child after, sides.Later after →
      Follows Value.Paired after (strict.evaluate engine scope child)
        (real.evaluate engine other child) :=
    fun child after later => follows.evaluate (later.builtins builtins) (paired.mono later.kept)
  have allInLater : ∀ children : List Node,
      Follows (fun pairing => List.Forall₂ (Value.Paired pairing)) sides
        (children.mapM (strict.evaluate engine scope))
        (children.mapM (real.evaluate engine other)) :=
    fun children => mapM fun child _ => inLater child
  cases node with
  | constant literal =>
    exact pure (.self fun id holds => absurd holds (Value.ofLiteral_not_holds literal id))
  | name x =>
    simp only [Interpreter.evaluateNode]
    have bound := paired x
    generalize scope.lookup? x = value at bound ⊢
    generalize other.lookup? x = otherValue at bound ⊢
    cases bound with
    | none => exact throw _ _
    | some values => exact pure values
  | unary op operand =>
    refine (inLater operand sides (.refl sides)).bind fun after later value otherValue values => ?_
    rw [op.apply_eq_of_paired values]
    exact ofOutcome (.of_plain (op.apply_plain otherValue))
  | binary op left right =>
    refine (inLater left sides (.refl sides)).bind fun after later value otherValue values => ?_
    rw [values.isTruthy_eq]
    split
    · exact pure (.bool _)
    · refine (inLater right after later).bind fun last lastLater rightValue otherRight rights => ?_
      rw [op.apply_eq_of_paired (values.mono lastLater.kept) rights]
      exact ofOutcome (.of_plain (op.apply_plain otherValue otherRight))
  | call name arguments =>
    refine ask ?_
    rw [builtins.1, builtins.2]
    split
    · next function found =>
      exact (allInLater arguments).bind fun after later values others paired =>
        run_builtin follows (Builtins.mem_of_find?_registry found).1 paired
    · exact throw _ _
  | list items =>
    exact (allInLater items).bind fun after later values others paired => pure (.list paired)
  | arrow parameters body =>
    cases body with
    | none => exact pure (.callable sides.pairing.noop)
    | some body => exact makeArrow builtins parameters body

/-- An evaluation of a node follows a strict one. They differ where an operand is left out. -/
theorem evaluateStrictly (follows : strict.FollowedBy real) (staying : strict.IsStaying)
    (builtins : sides.HasBuiltins engine) (paired : scope.Paired sides.pairing other) :
    Follows Value.Paired sides (strict.evaluateStrictly engine scope node)
      (real.evaluateNode engine other node) := by
  rcases strict.evaluateStrictly_eq_or engine scope node with ⟨op, left, right, rfl, _⟩ | same
  · refine (follows.evaluate builtins paired).bind fun after later value otherValue values => ?_
    have builtinsAfter := later.builtins builtins
    have pairedAfter := paired.mono later.kept
    split
    · next decides =>
      exact skip values (staying.evaluate builtinsAfter.1 (after.builtinArrows pairedAfter)) decides
    · have rightFollows : Follows Value.Paired after (strict.evaluate engine scope right)
          (real.evaluate engine other right) := follows.evaluate builtinsAfter pairedAfter
      refine rightFollows.bind fun last lastLater rightValue otherRight rights => ?_
      rw [op.apply_eq_of_paired (values.mono lastLater.kept) rights]
      exact ofOutcome (.of_plain (op.apply_plain otherValue otherRight))
  · rw [same]
    exact evaluateNode follows builtins paired

end Node

/-- A call follows another one, if this is so of the evaluations of the body. -/
theorem callClosure (follows : strict.FollowedBy real) {a b : CallableId}
    {arguments others : List Value} (related : sides.pairing.rel a b)
    (paired : List.Forall₂ (Value.Paired sides.pairing) arguments others) :
    Follows Value.Paired sides (strict.callClosure a arguments) (real.callClosure b others) := by
  refine ask ?_
  cases sides.arrows a b related with
  | noop => exact pure .null
  | @arrow _ _ engine parameters body found foundToo builtins builtinsToo =>
    rw [found, foundToo]
    show Follows _ _ (if arguments.length < parameters.length then _ else _)
      (if others.length < parameters.length then _ else _)
    rw [paired.length_eq]
    split
    · exact throw _ _
    · refine record fun after later => ?_
      have pairedAfter : List.Forall₂ (Value.Paired after.pairing) arguments others :=
        paired.imp fun _ _ values => values.mono later.kept
      exact follows.evaluate (later.builtins ⟨builtins, builtinsToo⟩)
        (Scope.Paired.defineAll pairedAfter parameters .empty)

end Follows

/-- At every depth the real interpreter follows the strict one. -/
theorem Interpreter.strict_followedBy (depth : Nat) :
    (Interpreter.strict depth).FollowedBy (.ofDepth depth) := by
  induction depth with
  | zero => exact ⟨fun _ _ => .outOfDepth _, fun _ _ => .outOfDepth _⟩
  | succ depth ih =>
    have staying := Interpreter.strict_isStaying depth
    exact ⟨fun builtins paired => .evaluateStrictly ih staying builtins paired,
      fun related paired => .callClosure ih related paired⟩

/-- At the start, every callable of such an arrow function stands for itself. -/
def Sides.start (world : World) : Sides where
  pairing :=
    { rel := fun a b => a = b ∧ SameArrow world world a a
      noop := ⟨rfl, .noop⟩
      unique := by
        rintro a b other otherB ⟨rfl, _⟩ ⟨rfl, _⟩
        exact Iff.rfl }
  strict := world
  real := world
  arrows := by
    rintro a b ⟨rfl, same⟩
    exact same

/-- Short-circuit evaluation agrees with strict evaluation. The engine has exactly the builtins, and
every callable in the scope is the no-op or came from an arrow function of such an engine. If strict
evaluation ends in a value, then the real evaluation ends, within the same depth, in the same value up
to a renaming of callables. The renaming

* is one to one, and it keeps the callables that there were at the start,
* takes those made by the one evaluation to those made by the other, and
* takes each to a callable of the same arrow function. -/
theorem evaluate_of_strict {engine : EngineId} {depth : Nat} {scope : Scope} {node : Node}
    {world left : World} {value : Value} (builtins : world.HasBuiltins engine)
    (arrows : scope.BuiltinArrows anyBody world)
    (strict : Yields (strictlyAt depth engine scope node) world (.ok value) left) :
    ∃ renamed : Pairing, ∃ other right,
      Yields (engine.evaluate depth scope node) world (.ok other) right ∧
      value.Paired renamed other ∧
      (∀ a b, renamed.rel a b →
        (a = b ∧ a ∈ world.callables) ∨ (a ∉ world.callables ∧ b ∉ world.callables)) ∧
      ∀ a b, renamed.rel a b → left.closure? a = right.closure? b := by
  have scopes : scope.Paired (Sides.start world).pairing scope :=
    .self fun name value found => (arrows name value found).mono fun _ arrow =>
      ⟨rfl, arrow.sameArrow⟩
  obtain ⟨after, other, rfl, ran, later, values⟩ :=
    @(Interpreter.strict_followedBy depth).evaluate (Sides.start world) engine scope scope node
      ⟨builtins, builtins⟩ scopes value left strict
  refine ⟨after.pairing, other, after.real, ran, values, fun a b related => ?_, fun a b related => ?_⟩
  · rcases later.new a b related with ⟨rfl, same⟩ | new
    · exact .inl ⟨rfl, same.callables.1⟩
    · exact .inr new
  · exact (after.arrows a b related).closure?_eq

/-- `[false and (x) -> {x}, (y) -> {y}, f]`, where `f` is a callable that there was before. Strict
evaluation makes one callable more, so the one that is left has another number. -/
theorem evaluate_of_strict_and :
    let world : World :=
      (((Builder.empty.build .empty).2).addClosure (.arrow ⟨0⟩ ["x"] (.name "x"))).2
    let scope : Scope := Scope.empty.define "f" (.callable (.made 0))
    let node : Node := .list [
      .binary .and (.constant (.bool false)) (.arrow ["x"] (some (.name "x"))),
      .arrow ["y"] (some (.name "y")), .name "f"]
    ∃ renamed : Pairing, ∃ right,
      Yields (EngineId.evaluate ⟨0⟩ 3 scope node) world
        (.ok (.list [.bool false, .callable (.made 1), .callable (.made 0)])) right ∧
      (Value.list [.bool false, .callable (.made 2), .callable (.made 0)]).Paired renamed
        (.list [.bool false, .callable (.made 1), .callable (.made 0)]) ∧
      right.closure? (.made 1) = some (.arrow ⟨0⟩ ["y"] (.name "y")) := by
  intro world scope node
  have arrows : scope.BuiltinArrows anyBody world := by
    intro name value found
    rw [Scope.lookup?_define, Scope.lookup?_empty] at found
    split at found
    · cases found
      exact .callable (.arrow rfl rfl trivial)
    · cases found
  obtain ⟨left, strict⟩ : ∃ left, Yields (strictlyAt 3 ⟨0⟩ scope node) world
      (.ok (.list [.bool false, .callable (.made 2), .callable (.made 0)])) left := ⟨_, rfl⟩
  have builtins : world.HasBuiltins ⟨0⟩ := rfl
  obtain ⟨renamed, other, right, ran, values, _, _⟩ := evaluate_of_strict builtins arrows strict
  have known : Yields (EngineId.evaluate ⟨0⟩ 3 scope node) world
      (.ok (.list [.bool false, .callable (.made 1), .callable (.made 0)])) _ := rfl
  cases Option.some.inj (ran.symm.trans known)
  exact ⟨renamed, _, ran, values, rfl⟩

end ArrowExpr
