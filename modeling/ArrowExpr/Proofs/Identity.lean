import ArrowExpr.Proofs.Chronicle
import ArrowExpr.Session.Run
import Mathlib.Data.List.Forall2
/-!
# Each callable comes from one construction

In the record of a history each callable except the no-op has exactly one place where it was made
(`MadeAt`), and each place where something was made has a callable of its own. So two callables that
there are in a world are equal exactly if both are the no-op or both come from the same place
(`callables_of_chronicle`).

That there are no others to be had is due to the hosts: they use the callables that they have got
and cannot make up any (`Rules.honest`).
-/

namespace ArrowExpr

open EvalM

/-- The callable is the one that is made at this place of the record. -/
def MadeAt (effects : List Effect) (position : Nat) (id : CallableId) : Prop :=
  ∃ closure, effects[position]? = some (.construct closure) ∧
    id = ((World.empty.after (effects.take position)).addClosure closure).1

/-- Host code may do what it likes, with callables that there are. -/
def Rules.honest : Rules := ⟨Set.univ, Set.univ, True, ∅, 0⟩

/-- From the world on, host code may do what it likes, with the callables that it holds and those
that are made from now on. -/
def Rules.holding (held : Set CallableId) (world : World) : Rules :=
  ⟨Set.univ, Set.univ, True, held, world.closures.size⟩

/-! ## Places where callables are made -/

theorem size_closures_empty_after (effects : List Effect) :
    (World.empty.after effects).closures.size = effects.countP Effect.constructs :=
  (World.empty.size_closures_after effects).trans (Nat.zero_add _)

theorem Rules.known_honest (world : World) :
    Rules.honest.known world.closures.size = world.callables := by
  ext id
  constructor
  · rintro (isNoop | none | ⟨index, same, _, below⟩)
    · exact .inl isNoop
    · exact none.elim
    · exact .inr ⟨index, same, below⟩
  · rintro (isNoop | ⟨index, same, below⟩)
    · exact .inl isNoop
    · exact .inr (.inr ⟨index, same, Nat.zero_le _, below⟩)

namespace MadeAt

variable {effects : List Effect} {position other : Nat} {id otherId : CallableId}

theorem id_eq (made : MadeAt effects position id) :
    id = .made ((effects.take position).countP Effect.constructs) := by
  obtain ⟨closure, _, rfl⟩ := made
  rw [World.addClosure, size_closures_empty_after]

theorem id_unique (made : MadeAt effects position id)
    (otherMade : MadeAt effects position otherId) : id = otherId :=
  made.id_eq.trans otherMade.id_eq.symm

theorem position_unique (made : MadeAt effects position id) (again : MadeAt effects other id) :
    position = other := by
  have same := CallableId.made.inj (made.id_eq.symm.trans again.id_eq)
  obtain ⟨_, there, _⟩ := made
  obtain ⟨_, otherThere, _⟩ := again
  exact place_unique there rfl otherThere rfl same

/-- When it is made it is none of those that there are, nor the no-op. -/
theorem fresh (made : MadeAt effects position id) :
    id ∉ (World.empty.after (effects.take position)).callables := by
  rw [made.id_eq]
  rintro (isNoop | ⟨index, same, below⟩)
  · cases isNoop
  · cases same
    rw [size_closures_empty_after] at below
    exact below.ne rfl

/-- The callable is there from then on, and does what was made there. -/
theorem closure?_eq {closure : Closure} (made : MadeAt effects position id)
    (there : effects[position]? = some (.construct closure)) :
    (World.empty.after effects).closure? id = some closure := by
  let before := World.empty.after (effects.take position)
  have split : World.empty.after effects =
      (before.addClosure closure).2.after (effects.drop (position + 1)) := by
    conv_lhs => rw [← take_append_drop_of_place there]
    rw [World.after_append, World.after_cons, Effect.apply]
  have now : (before.addClosure closure).2.closure? id = some closure := by
    obtain ⟨_, _, rfl⟩ := made
    exact (World.closure?_addClosure before closure _).trans (if_pos rfl)
  rw [split]
  exact (World.later_after _ _).closure? now

end MadeAt

/-- Apart from the no-op, there are exactly the callables that were made at some place. -/
theorem mem_callables_iff {effects : List Effect} {id : CallableId} :
    id ∈ (World.empty.after effects).callables ↔
      id = .noop ∨ ∃ position, MadeAt effects position id := by
  refine or_congr_right ⟨?_, ?_⟩
  · rintro ⟨index, rfl, below⟩
    rw [size_closures_empty_after] at below
    obtain ⟨position, effect, there, constructs, before⟩ := exists_place below
    cases effect with
    | construct closure =>
      refine ⟨position, closure, there, ?_⟩
      rw [World.addClosure, size_closures_empty_after, before]
    | _ => cases constructs
  · rintro ⟨position, made⟩
    have isMade := made.id_eq
    obtain ⟨closure, there, _⟩ := made
    have inside := (List.getElem?_eq_some_iff.mp there).1
    have less : (effects.take position).countP Effect.constructs <
        (effects.take effects.length).countP Effect.constructs := countP_take_lt there rfl inside
    rw [List.take_length] at less
    refine ⟨_, isMade, ?_⟩
    rw [size_closures_empty_after]
    exact less

/-- A place of the first effects is one of all, and the other way round. -/
theorem madeAt_append_iff {effects more : List Effect} {position : Nat} {id : CallableId}
    (early : position < effects.length) :
    MadeAt (effects ++ more) position id ↔ MadeAt effects position id := by
  rw [MadeAt, MadeAt, List.getElem?_append_left early, List.take_append_of_le_length early.le]

/-! ## Arrow functions, wherever they are evaluated -/

/-- Whatever starts in the course of an activity, however deep, has its place among the effects. -/
theorem among_of_starts {moment inner : Moment}
    (starts : Relation.ReflTransGen Starts moment inner) :
    inner.Among moment.world moment.effects := by
  induction starts with
  | refl => exact .self moment
  | tail _ last ih => exact last.effects.trans ih

/-- An arrow function with a body that is evaluated in the course of an activity is made there. -/
theorem madeAt_of_arrow {effects : List Effect} {depth inside : Nat} {activity : Activity}
    {engine : EngineId} {scope : Scope} {parameters : List String} {body : Node} {world : World}
    (starts : Relation.ReflTransGen Starts ⟨depth, activity, World.empty.after effects⟩
      ⟨inside + 1, .evaluate engine scope (.arrow parameters (some body)), world⟩) :
    ∃ position id left, effects.length ≤ position ∧
      Moment.EndsWith ⟨inside + 1, .evaluate engine scope (.arrow parameters (some body)), world⟩
        (.ok (.callable id)) left ∧
      MadeAt (effects ++ activity.effects depth (World.empty.after effects)) position id ∧
      id ∉ world.callables := by
  let closure : Closure := .arrow engine parameters body
  obtain ⟨before, there, after, all⟩ := among_of_starts starts
  have isWorld : world = World.empty.after (effects ++ before) := by
    rw [World.after_append]
    exact there
  have isAll : effects ++ activity.effects depth (World.empty.after effects) =
      (effects ++ before) ++ (.construct closure :: after) := by
    rw [List.append_assoc, ← List.singleton_append, ← List.append_assoc before]
    exact congrArg (effects ++ ·) all.symm
  have made : MadeAt (effects ++ activity.effects depth (World.empty.after effects))
      (effects ++ before).length (world.addClosure closure).1 := by
    refine ⟨closure, ?_, ?_⟩
    · rw [isAll, List.getElem?_append_right le_rfl, Nat.sub_self]
      rfl
    · rw [isAll, List.take_left, ← isWorld]
  refine ⟨_, _, (world.addClosure closure).2, ?_, rfl, made, ?_⟩
  · rw [List.length_append]
    exact Nat.le_add_right _ _
  · have fresh := made.fresh
    rw [isAll, List.take_left, ← isWorld] at fresh
    exact fresh

/-! ## Callables that are passed on -/

/-- Names are evaluated one after the other to what they are bound to. -/
theorem yields_mapM_name {engine : EngineId} {scope : Scope} {world : World} (depth : Nat)
    {names : List String} {values : List Value}
    (bound : List.Forall₂ (fun name value => scope.lookup? name = some value) names values) :
    Yields ((names.map Node.name).mapM (evaluateAt (depth + 1) engine scope)) world (.ok values)
      world := by
  induction bound with
  | nil => exact run_pure world []
  | @cons name value names values found _ ih =>
    rw [List.map_cons, List.mapM_cons]
    have first : Yields (evaluateAt (depth + 1) engine scope (.name name)) world (.ok value)
        world := by
      rw [evaluateAt, Interpreter.evaluateNode, found]
      exact run_pure world value
    exact first.bind (ih.bind (run_pure world _))

/-- Distinct parameters are bound to the arguments. -/
theorem forall₂_lookup?_ofList {parameters : List String} {arguments : List Value}
    (distinct : parameters.Nodup) (enough : parameters.length = arguments.length) :
    List.Forall₂
      (fun name value => (Scope.ofList (parameters.zip arguments)).lookup? name = some value)
      parameters arguments := by
  have binds := Scope.bindsLast_ofList enough.le
  refine List.forall₂_iff_get.mpr ⟨enough, fun index there argumentThere => ?_⟩
  have last : LastAt parameters (parameters.get ⟨index, there⟩) index := by
    refine ⟨List.getElem?_eq_getElem there, fun after less again => ?_⟩
    obtain ⟨_, equal⟩ := List.getElem?_eq_some_iff.mp again
    exact less.ne ((List.getElem_inj distinct).mp equal).symm
  obtain ⟨value, isArgument, found⟩ := binds.bound _ index last
  rw [List.getElem?_eq_getElem argumentThere] at isArgument
  exact found.trans isArgument.symm

/-- An arrow function of the list of its parameters gives back what it is called with. -/
theorem yields_arguments {engine : EngineId} {parameters : List String} {arguments : List Value}
    {id : CallableId} {world : World} (depth : Nat)
    (found : world.closure? id =
      some (.arrow engine parameters (.list (parameters.map .name))))
    (distinct : parameters.Nodup) (enough : parameters.length = arguments.length) :
    Moment.EndsWith ⟨depth + 3, .call id arguments, world⟩ (.ok (.list arguments))
      (world.record (.closure id arguments)) := by
  let noted := world.record (.closure id arguments)
  have names := @yields_mapM_name engine _ noted depth _ _
    (forall₂_lookup?_ofList distinct enough)
  have body : Yields (evaluateAt (depth + 2) engine (.ofList (parameters.zip arguments))
      (.list (parameters.map .name))) noted (.ok (.list arguments)) noted :=
    names.bind (run_pure noted _)
  refine Yields.bind (run_ask world _) ?_
  rw [found]
  simp only [if_neg (Nat.not_lt.mpr enough.le)]
  exact Yields.bind (run_update world _) body

/-! ## Stored callables -/

namespace Session

variable {session : Session}

theorem callableOf_eq (name : String) (session : Session) :
    callableOf name session = need (session.stored[name]?.bind (·.callable?)) session := rfl

/-- The callback of a callable wrapped once more is the callable. -/
theorem step_rewrap {name : String} {id : CallableId}
    (found : session.stored[name]? = some (.callable id)) (depth : Nat) (keep : String) :
    session.step depth (.rewrap name (some keep)) =
      (.result (.ok (.callable id)),
        { session with stored := session.stored.insert keep (.callable id) }) := by
  have asked : perform depth (.rewrap name (some keep)) session =
      (callableOf name session).bind fun made =>
        keepResult (some keep) (.ok (.callable made.1)) made.2 := rfl
  rw [step, StateT.run, asked, callableOf_eq, found]
  rfl

theorem step_sameCallable {a b : String} {first second : CallableId}
    (found : session.stored[a]? = some (.callable first))
    (otherFound : session.stored[b]? = some (.callable second)) (depth : Nat) :
    session.step depth (.sameCallable a b) =
      (.sameCallable (first == second) (first == second), session) := by
  have done : perform depth (.sameCallable a b) session =
      .ok (.sameCallable (first == second) (first == second), session) := by
    show (callableOf a session).bind _ = _
    rw [callableOf_eq, found]
    show (callableOf b session).bind _ = _
    rw [callableOf_eq, otherFound]
    rfl
  rw [step, StateT.run, done]

end Session

/-! ## The laws of identity -/

/-- What holds of the callables after a history with this record. -/
structure IdentityLaws (effects : List Effect) (now : World) : Prop where
  /-- There are the no-op and what was made at one place each. -/
  made : ∀ id, id ∈ now.callables ↔ id = .noop ∨ ∃! position, MadeAt effects position id
  /-- Each place where something is made, be it an arrow function or a callback, has a callable that
  was not there before, and that keeps to what was made there. -/
  fresh : ∀ position closure, effects[position]? = some (.construct closure) →
    ∃ id, MadeAt effects position id ∧ id ≠ .noop ∧
      id ∉ (World.empty.after (effects.take position)).callables ∧ now.closure? id = some closure
  /-- Two callables are the same exactly if both are the no-op or come from one place, and that is
  what `==` says of them. -/
  same : ∀ a ∈ now.callables, ∀ b ∈ now.callables,
    (a = b ↔ (a = .noop ∧ b = .noop) ∨ ∃ position, MadeAt effects position a ∧
      MadeAt effects position b) ∧
    BinaryOp.eq.apply (.callable a) (.callable b) = .ok (.bool (decide (a = b)))
  /-- Each evaluation of an arrow function with a body is a place of its own, however deep in the
  course of an activity. -/
  arrow : ∀ depth activity inside engine scope parameters body world,
    Relation.ReflTransGen Starts ⟨depth, activity, now⟩
      ⟨inside + 1, .evaluate engine scope (.arrow parameters (some body)), world⟩ →
    ∃ position id left, effects.length ≤ position ∧
      Moment.EndsWith ⟨inside + 1, .evaluate engine scope (.arrow parameters (some body)), world⟩
        (.ok (.callable id)) left ∧
      MadeAt (effects ++ activity.effects depth now) position id ∧ id ∉ world.callables
  /-- All arrow functions without a body are the no-op, and nothing is made. -/
  bodyless : ∀ depth engine scope parameters world,
    Moment.EndsWith ⟨depth + 1, .evaluate engine scope (.arrow parameters none), world⟩
      (.ok (.callable .noop)) world
  /-- Cells hold callables that there are. -/
  cells : ∀ cell, (now.load cell).Within now.callables
  /-- Results hold callables that there are then. -/
  results : ∀ depth activity outcome left, activity.Obeys .honest now.closures.size →
    Moment.EndsWith ⟨depth, activity, now⟩ outcome left → outcome.Within left.callables
  /-- A callable in a result is the no-op, one that was handed in or held by host code, or one that
  was made in the course of it. -/
  passed : ∀ held depth activity value left, now.Obeys (.holding held now) →
    activity.Obeys (.holding held now) now.closures.size →
    Moment.EndsWith ⟨depth, activity, now⟩ (.ok value) left → ∀ id, value.Holds id →
    id = .noop ∨ id ∈ held ∨ ∃ position, effects.length ≤ position ∧
      MadeAt (effects ++ activity.effects depth now) position id
  /-- What goes in as arguments comes out the same, by way of a scope, a list and a result. -/
  arguments : ∀ depth engine parameters arguments id,
    now.closure? id = some (.arrow engine parameters (.list (parameters.map .name))) →
    parameters.Nodup → parameters.length = arguments.length →
    ∃ left, Moment.EndsWith ⟨depth + 3, .call id arguments, now⟩ (.ok (.list arguments)) left

theorem identityLaws {effects : List Effect} (obeys : (World.empty.after effects).Obeys .honest) :
    IdentityLaws effects (World.empty.after effects) where
  made id := by
    rw [mem_callables_iff]
    refine or_congr_right ⟨?_, fun ⟨position, made, _⟩ => ⟨position, made⟩⟩
    rintro ⟨position, made⟩
    exact ⟨position, made, fun other again => again.position_unique made⟩
  fresh position closure there := by
    have made : MadeAt effects position _ := ⟨closure, there, rfl⟩
    exact ⟨_, made, nofun, made.fresh, made.closure?_eq there⟩
  same a there b otherThere := by
    refine ⟨⟨?_, ?_⟩, rfl⟩
    · rintro rfl
      exact (mem_callables_iff.mp there).imp (fun isNoop => ⟨isNoop, isNoop⟩)
        fun ⟨position, made⟩ => ⟨position, made, made⟩
    · rintro (⟨rfl, rfl⟩ | ⟨position, made, otherMade⟩)
      · rfl
      · exact made.id_unique otherMade
  arrow depth activity inside engine scope parameters body world starts := madeAt_of_arrow starts
  bodyless _ _ _ _ world := run_pure world _
  cells cell := Rules.known_honest _ ▸ obeys.cells cell
  results depth activity outcome left activityObeys ends value isValue := by
    rw [← Rules.known_honest]
    exact (Activity.conforms depth obeys activityObeys).ends outcome left ends value isValue
  passed held depth activity value left holding activityObeys ends id holds := by
    have conforms := Activity.conforms depth holding activityObeys
    rcases conforms.ends _ left ends value rfl id holds with isNoop | isHeld |
      ⟨index, rfl, notBefore, below⟩
    · exact .inl isNoop
    · exact .inr (.inl isHeld)
    · rw [ends.world, ← World.after_append] at below
      rcases mem_callables_iff.mp (.inr ⟨index, rfl, below⟩) with isNoop | ⟨position, made⟩
      · cases isNoop
      · refine .inr (.inr ⟨position, Nat.not_lt.mp fun early => ?_, made⟩)
        -- a callable of an earlier place would have been there before
        have before := mem_callables_iff.mpr (.inr ⟨position, (madeAt_append_iff early).mp made⟩)
        rcases before with isNoop | ⟨_, same, earlier⟩
        · cases isNoop
        · cases same
          exact Nat.not_lt.mpr notBefore earlier
  arguments depth _ _ _ _ found distinct enough :=
    ⟨_, yields_arguments depth found distinct enough⟩

/-- The identity of callables. Whatever an honest host has done, with evaluations, calls and engines
in any order, two callables are the same exactly if they come from one construction, or from arrow
functions without bodies. A callback that is wrapped once more is the same callable again, and a
host sees of two stored callables whether they are the same. -/
theorem callables_of_chronicle {effects : List Effect} {now : World}
    (chronicle : Chronicle (Operation.Obeys .honest) .empty effects now) :
    IdentityLaws effects now ∧
    (∀ depth session name keep id, session.stored[name]? = some (.callable id) →
      Session.step depth (.rewrap name (some keep)) session =
        (.result (.ok (.callable id)),
          { session with stored := session.stored.insert keep (.callable id) })) ∧
    ∀ depth session a b first second, session.stored[a]? = some (.callable first) →
      session.stored[b]? = some (.callable second) →
      Session.step depth (.sameCallable a b) session =
        (.sameCallable (first == second) (first == second), session) := by
  have obeys := chronicle.obeys (World.empty_obeys rfl)
  obtain rfl : now = World.empty.after effects := chronicle.world
  exact ⟨identityLaws obeys, fun depth _ _ keep _ found => Session.step_rewrap found depth keep,
    fun depth _ _ _ _ _ found otherFound => Session.step_sameCallable found otherFound depth⟩

/-- In `map([1, 2], (x) -> {() -> {x}})` the inner arrow function is evaluated twice, which gives
two callables. -/
theorem callables_of_chronicle_map :
    let node : Node := .call "map" [.list [.constant (.int 1), .constant (.int 2)],
      .arrow ["x"] (some (.arrow [] (some (.name "x"))))]
    let first : CallableId := .made 1
    let second : CallableId := .made 2
    (∃ left, Yields (EngineId.evaluate ⟨0⟩ 5 .empty node) (Builder.empty.build .empty).2
      (.ok (.list [.callable first, .callable second])) left) ∧
    BinaryOp.eq.apply (.callable first) (.callable second) = .ok (.bool false) := by
  intro node first second
  obtain ⟨left, ran, size⟩ : ∃ left, Yields (EngineId.evaluate ⟨0⟩ 5 .empty node)
      (Builder.empty.build .empty).2 (.ok (.list [.callable first, .callable second])) left ∧
      left.closures.size = 3 := by
    subst node
    exact ⟨_, rfl, rfl⟩
  have ends : Moment.EndsWith ⟨5, .evaluate ⟨0⟩ .empty node, (Builder.empty.build .empty).2⟩
      (.ok (.list [.callable first, .callable second])) left := ran
  have buildObeys : (Operation.build Builder.empty).Obeys .honest .empty := by
    refine ⟨trivial, fun function there => Builtins.obeys trivial _ ?_⟩
    rwa [Builder.all, Builder.empty, List.append_nil] at there
  have startObeys : (Operation.start 5 (.evaluate ⟨0⟩ .empty node)).Obeys .honest
      (Builder.empty.build .empty).2 := ⟨trivial, Scope.within_empty _⟩
  have built : Chronicle (Operation.Obeys .honest) .empty _ (Builder.empty.build .empty).2 :=
    .step .nil buildObeys .build
  obtain ⟨laws, _, _⟩ := callables_of_chronicle (built.step startObeys (.ended ends))
  have firstThere : first ∈ left.callables := .inr ⟨1, rfl, by rw [size]; decide⟩
  have secondThere : second ∈ left.callables := .inr ⟨2, rfl, by rw [size]; decide⟩
  exact ⟨⟨left, ran⟩, (laws.same first firstThere second secondThere).2⟩

end ArrowExpr
