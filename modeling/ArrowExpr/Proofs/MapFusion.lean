import ArrowExpr.Proofs.Depth
import ArrowExpr.Proofs.MapCalls
import ArrowExpr.Proofs.Strictness
/-!
# Two maps as one

`map(map(xs, f), g)` calls `f` with all the items before it calls `g` for the first time. With exactly
the builtins it makes no difference to call `f` and `g` in turn, item by item, but that callables are
made in another order, and so are numbered differently (`map_map`).

The proof goes along the single pass and compares it with both passes at once, which are on the strict
side of `Sides`. When the single pass comes to an item, the first pass has long been past it: it is
compared with the world that this was in then, and the second pass with the world that it is in now
(`Postponed`). What the first pass has made from there on stands for nothing yet, so what stands for
each other at the one place can be put together with what does so at the other (`Postponed.catchUp`).

`map_in_order` is what all this comes to for whoever uses `map`.
-/

namespace ArrowExpr

open EvalM

/-! ## A side that has gone ahead -/

theorem BuiltinArrow.mem_callables {kind : Node → Prop} {world : World} {id : CallableId}
    (arrow : BuiltinArrow kind world id) : id ∈ world.callables := by
  cases arrow with
  | noop => exact .inl rfl
  | arrow found _ _ => exact World.mem_callables found

/-- Callables of the same arrow function were so before, if the first one was there. -/
theorem SameArrow.back {earlier strict real : World} {a b : CallableId}
    (same : SameArrow strict real a b) (stays : earlier.Stays strict)
    (arrow : BuiltinArrow anyBody earlier a) : SameArrow earlier real a b := by
  cases arrow with
  | noop =>
    cases same with
    | noop => exact .noop
    | arrow found _ _ _ => cases found
  | arrow there builtins _ =>
    cases same with
    | noop => cases there
    | arrow found foundToo _ builtinsToo =>
      cases Option.some.inj ((stays.closure? _ _ there).symm.trans found)
      exact .arrow there foundToo builtins builtinsToo

namespace Sides

variable {world : World}

theorem start_rel {id : CallableId} (arrow : BuiltinArrow anyBody world id) :
    (start world).pairing.rel id id := ⟨rfl, arrow.sameArrow⟩

/-- The one side goes back to an earlier world, where some callables were not there yet. -/
def back (sides : Sides) {earlier : World} (stays : earlier.Stays sides.strict) : Sides where
  pairing :=
    { rel := fun a b => sides.pairing.rel a b ∧ BuiltinArrow anyBody earlier a
      noop := ⟨sides.pairing.noop, .noop⟩
      unique := fun first second => sides.pairing.unique first.1 second.1 }
  strict := earlier
  real := sides.real
  arrows a b related := (sides.arrows a b related.1).back stays related.2

/-- What stands for each other at an earlier place is put together with what does so now. -/
def merge (sides there : Sides) (stays : there.strict.Stays sides.strict)
    (realStays : sides.real.Stays there.real)
    (apart : ∀ a b c d, sides.pairing.rel a b → there.pairing.rel c d → (a = c ↔ b = d)) :
    Sides where
  pairing :=
    { rel := fun a b => sides.pairing.rel a b ∨ there.pairing.rel a b
      noop := .inl sides.pairing.noop
      unique := by
        rintro a b c d (first | first) (second | second)
        · exact sides.pairing.unique first second
        · exact apart a b c d first second
        · rw [eq_comm, apart c d a b second first, eq_comm]
        · exact there.pairing.unique first second }
  strict := sides.strict
  real := there.real
  arrows := by
    rintro a b (related | related)
    · exact (sides.arrows a b related).stays (.refl _) realStays
    · exact (there.arrows a b related).stays stays (.refl _)

end Sides

/-- Both sides have started from the same world. The strict side has been through the worlds from
`first` to `last` before it came to where it is now. On the real side, that part has been put off:
what was made in it stands for nothing, but for what was there in `first` already. -/
structure Postponed (world : World) (sides : Sides) (first last : World) : Prop where
  later : (Sides.start world).Later sides
  started : world.Stays first
  between : first.Stays last
  ahead : last.Stays sides.strict
  known : ∀ a b, sides.pairing.rel a b → a ∈ last.callables → BuiltinArrow anyBody first a

namespace Postponed

variable {world first last : World} {sides after there : Sides}

theorem stays (postponed : Postponed world sides first last) : first.Stays sides.strict :=
  postponed.between.trans postponed.ahead

/-- Both sides go on from where they are. -/
theorem onward (postponed : Postponed world sides first last) (later : sides.Later after) :
    Postponed world after first last where
  later := postponed.later.trans later
  started := postponed.started
  between := postponed.between
  ahead := postponed.ahead.trans later.strict
  known a b related before := by
    rcases later.new a b related with old | ⟨new, _⟩
    · exact postponed.known a b old before
    · exact absurd (postponed.ahead.callables before) new

/-- What came from arrow functions at the start still stands for itself in the world gone back to. -/
theorem back_rel (postponed : Postponed world sides first last) {id : CallableId}
    (arrow : BuiltinArrow anyBody world id) : (sides.back postponed.stays).pairing.rel id id :=
  ⟨postponed.later.kept id id (Sides.start_rel arrow), postponed.started.arrow arrow⟩

/-- The real side catches up on some of what it has put off. -/
theorem catchUp (postponed : Postponed world sides first last)
    (later : (sides.back postponed.stays).Later there) (rest : there.strict.Stays last) :
    ∃ after : Sides, after.strict = sides.strict ∧ after.real = there.real ∧
      (∀ a b, sides.pairing.rel a b → after.pairing.rel a b) ∧
      (∀ a b, there.pairing.rel a b → after.pairing.rel a b) ∧
      Postponed world after there.strict last := by
  have apart : ∀ a b c d, sides.pairing.rel a b → there.pairing.rel c d → (a = c ↔ b = d) := by
    intro a b c d related others
    rcases later.new c d others with ⟨old, _⟩ | ⟨new, newReal⟩
    · exact sides.pairing.unique related old
    · -- a callable that is new there was made in the part that was put off, so it stands for nothing
      refine iff_of_false ?_ ?_
      · rintro rfl
        have before := rest.callables (there.arrows a d others).callables.1
        exact new (postponed.known a b related before).mem_callables
      · rintro rfl
        exact newReal (sides.arrows a b related).callables.2
  refine ⟨sides.merge there (rest.trans postponed.ahead) later.real apart, rfl, rfl,
    fun _ _ => .inl, fun _ _ => .inr, ?_⟩
  refine ⟨⟨postponed.later.strict, postponed.later.real.trans later.real, ?_, ?_⟩,
    postponed.started.trans later.strict, rest, postponed.ahead, ?_⟩
  · exact fun a b related => .inl (postponed.later.kept a b related)
  · rintro a b (related | others)
    · exact postponed.later.new a b related
    · rcases later.new a b others with ⟨old, _⟩ | ⟨new, newReal⟩
      · exact postponed.later.new a b old
      · exact .inr ⟨fun before => new (postponed.started.callables before),
          fun before => newReal (postponed.later.real.callables before)⟩
  · rintro a b (related | others) before
    · exact later.strict.arrow (postponed.known a b related before)
    · exact (there.arrows a b others).builtinArrow

end Postponed

/-! ## One pass -/

section Pass

variable {inner outer real : Interpreter} {world : World} {sides : Sides}

/-- Calls with one item after the other leave engines and callables as they are. -/
theorem Interpreter.IsStaying.calls (staying : inner.IsStaying) {id : CallableId}
    (arrow : BuiltinArrow anyBody world id) {items : List Value}
    (arrows : ∀ item ∈ items, item.BuiltinArrows anyBody world) :
    Staying False (fun values left => ∀ value ∈ values, value.BuiltinArrows anyBody left)
      (items.mapM fun item => inner.call id [item]) world := by
  refine .mapM (fun _ _ _ stays => stays.arrows) fun item there left stays => ?_
  refine staying.call (stays.arrow arrow) fun argument isItem => ?_
  rw [List.mem_singleton.mp isItem]
  exact stays.arrows (arrows item there)

/-- The strict side has called `a` with each item in a first pass and `b` with what came of that in a
second one. The real side calls the two in turn. Their callables for the second calls, `b` and `c`,
stand for each other. -/
theorem mapM_one_pass (staying : inner.IsStaying) (innerFollowed : inner.FollowedBy real)
    (outerFollowed : outer.FollowedBy real) {a b c : CallableId} {items middles values : List Value}
    {first last left : World} (arrow : BuiltinArrow anyBody world a)
    (arrows : ∀ item ∈ items, item.BuiltinArrows anyBody world)
    (postponed : Postponed world sides first last) (related : sides.pairing.rel b c)
    (firstPass : Yields (items.mapM fun item => inner.call a [item]) first (.ok middles) last)
    (secondPass : Yields (middles.mapM fun middle => outer.call b [middle]) sides.strict
      (.ok values) left) :
    ∃ after : Sides, ∃ others, after.strict = left ∧
      Yields (items.mapM fun item => real.call a [item] >>= fun middle => real.call c [middle])
        sides.real (.ok others) after.real ∧
      (Sides.start world).Later after ∧
      (∀ d e, sides.pairing.rel d e → after.pairing.rel d e) ∧
      List.Forall₂ (Value.Paired after.pairing) values others := by
  induction items generalizing sides first middles values with
  | nil =>
    cases firstPass
    cases secondPass
    exact ⟨sides, [], rfl, rfl, postponed.later, fun _ _ => id, .nil⟩
  | cons item rest ih =>
    obtain ⟨itemArrows, restArrows⟩ := List.forall_mem_cons.mp arrows
    rw [List.mapM_cons] at firstPass
    obtain ⟨middle, between, called, firstRest⟩ := firstPass.exists_of_bind
    obtain ⟨others, _, restCalled, done⟩ := firstRest.exists_of_bind
    cases done
    rw [List.mapM_cons] at secondPass
    obtain ⟨value, next, calledToo, secondRest⟩ := secondPass.exists_of_bind
    obtain ⟨restValues, _, restCalledToo, done⟩ := secondRest.exists_of_bind
    cases done
    -- the first call with this item, compared with the one that was made in the first pass
    have itemPaired : item.Paired (sides.back postponed.stays).pairing item :=
      .self (itemArrows.mono fun _ arrow => postponed.back_rel arrow)
    have follows : Follows Value.Paired (sides.back postponed.stays) (inner.call a [item])
        (real.call a [item]) :=
      innerFollowed.call (postponed.back_rel arrow) (.cons itemPaired .nil)
    obtain ⟨there, other, rfl, ranHere, later, middlePaired⟩ := follows middle between called
    -- the first pass goes on to its end, and the real side puts this off
    have onward : world.Stays there.strict := postponed.started.trans later.strict
    have restStays : there.strict.Stays last :=
      ((staying.calls (onward.arrow arrow) fun other isRest =>
        onward.arrows (restArrows other isRest)).stays _ _ restCalled).1
    obtain ⟨joined, isAhead, isHere, kept, keptThere, stillPostponed⟩ :=
      postponed.catchUp later restStays
    -- the second call with what came of it, compared with the one in the second pass
    have followsToo : Follows Value.Paired joined (outer.call b [middle]) (real.call c [other]) :=
      outerFollowed.call (kept b c related) (.cons (middlePaired.mono keptThere) .nil)
    rw [← isAhead] at calledToo
    obtain ⟨after, result, rfl, ranToo, laterToo, resultPaired⟩ := followsToo value next calledToo
    obtain ⟨ending, results, rfl, ranRest, laterRest, keptRest, resultsPaired⟩ :=
      ih restArrows (stillPostponed.onward laterToo) (laterToo.kept b c (kept b c related))
        restCalled restCalledToo
    refine ⟨ending, result :: results, rfl, ?_, laterRest, fun d e same => ?_, ?_⟩
    · rw [List.mapM_cons]
      rw [isHere] at ranToo
      exact (Yields.bind ranHere ranToo).bind (ranRest.bind (run_pure _ _))
    · exact keptRest d e (laterToo.kept d e (kept d e same))
    · exact .cons (resultPaired.mono keptRest) resultsPaired

end Pass

/-! ## The two expressions -/

/-- An evaluation or a call of a greater depth follows that of a smaller one. -/
theorem Interpreter.ofDepth_followedBy {depth more : Nat} (le : depth ≤ more) :
    (ofDepth depth).FollowedBy (ofDepth more) := by
  induction depth generalizing more with
  | zero => exact ⟨fun _ _ => .outOfDepth _, fun _ _ => .outOfDepth _⟩
  | succ depth ih =>
    cases more with
    | zero => cases le
    | succ more =>
      have inside := ih (Nat.le_of_succ_le_succ le)
      exact ⟨.evaluateNode inside, .callClosure inside⟩

theorem World.HasBuiltins.find?_map {world : World} {engine : EngineId}
    (builtins : world.HasBuiltins engine) :
    (world.registry engine).find? "map" = some Builtins.map := by
  rw [builtins]
  exact Builtins.find?_registry (.tail _ (.tail _ (.head _)))

/-- What a `map` that ends in a value has done: its operands were a list and a callable, and all calls
have ended in values. -/
theorem yields_map {engine : EngineId} {depth : Nat} {scope : Scope} {list callable : Node}
    {world left : World} {value : Value}
    (found : (world.registry engine).find? "map" = some Builtins.map)
    (ran : Yields (evaluateAt (depth + 1) engine scope (.call "map" [list, callable])) world
      (.ok value) left) :
    ∃ items id between middle values,
      Yields (evaluateAt depth engine scope list) world (.ok (.list items)) between ∧
      Yields (evaluateAt depth engine scope callable) between (.ok (.callable id)) middle ∧
      Yields (items.mapM fun item => callAt depth id [item])
        (middle.record (Traced.mapStart items id)) (.ok values) left ∧
      value = .list values := by
  have whole : Yields ([list, callable].mapM (evaluateAt depth engine scope) >>= fun values =>
      (Interpreter.ofDepth depth).run Builtins.map scope values) world (.ok value) left :=
    (congrArg Prod.fst (Traced.course_call found depth scope [list, callable])).symm.trans ran
  obtain ⟨operands, middle, evaluated, performed⟩ := whole.exists_of_bind
  simp only [List.mapM_cons, List.mapM_nil] at evaluated
  obtain ⟨first, between, firstRan, rest⟩ := evaluated.exists_of_bind
  obtain ⟨seconds, last, restRan, done⟩ := rest.exists_of_bind
  obtain ⟨second, _, secondRan, nothing⟩ := restRan.exists_of_bind
  cases nothing
  cases done
  obtain ⟨_, _, noted, performs⟩ := performed.exists_of_bind
  cases noted
  cases first with
  | list items =>
    cases second with
    | callable id =>
      have calls := congrArg Traced.run (Traced.perform_mapItems depth id [] items)
      have ended : Yields ((items.mapM fun item => callAt depth id [item]) >>= fun values =>
          pure (.list values)) (middle.record (Traced.mapStart items id)) (.ok value) left :=
        (congrFun calls _).symm.trans performs
      obtain ⟨values, _, called, last⟩ := ended.exists_of_bind
      cases last
      exact ⟨items, id, between, middle, values, firstRan, secondRan, called, rfl⟩
    | _ => cases performs
  | _ => cases performs

/-- The callables that stand for each other after two runs from one world: those that were there are
kept, those made by the one stand for those made by the other. -/
theorem Sides.Later.renames {world start : World} {after : Sides}
    (later : (Sides.start start).Later after) (stays : world.Stays start) {a b : CallableId}
    (related : after.pairing.rel a b) :
    (a = b ∧ a ∈ world.callables) ∨ (a ∉ world.callables ∧ b ∉ world.callables) := by
  rcases later.new a b related with ⟨rfl, _⟩ | ⟨new, newReal⟩
  · by_cases there : a ∈ world.callables
    · exact .inl ⟨rfl, there⟩
    · exact .inr ⟨there, there⟩
  · exact .inr ⟨fun there => new (stays.callables there), fun there => newReal (stays.callables there)⟩

/-- The strict side has evaluated an operand after a first pass, the real side puts the pass off and
evaluates the operand at once. -/
theorem Postponed.of_operand {world first last left : World} {engine : EngineId} {scope : Scope}
    {node : Node} {value : Value} {depth more : Nat} (le : depth ≤ more)
    (builtins : world.HasBuiltins engine) (arrows : scope.BuiltinArrows anyBody world)
    (started : world.Stays first) (between : first.Stays last)
    (ran : Yields (evaluateAt depth engine scope node) last (.ok value) left) :
    ∃ sides : Sides, ∃ other, sides.strict = left ∧ Postponed world sides first last ∧
      Yields (evaluateAt more engine scope node) world (.ok other) sides.real ∧
      value.Paired sides.pairing other := by
  have scopes : scope.Paired (Sides.start world).pairing scope :=
    .self fun name value found => (arrows name value found).mono fun _ arrow =>
      Sides.start_rel arrow
  have whole := started.trans between
  have follows : Follows Value.Paired ((Sides.start world).goOn whole (.refl world))
      (evaluateAt depth engine scope node) (evaluateAt more engine scope node) :=
    (Interpreter.ofDepth_followedBy le).evaluate ⟨whole.builtins engine builtins, builtins⟩ scopes
  obtain ⟨sides, other, rfl, ranToo, later, values⟩ := follows value left ran
  refine ⟨sides, other, rfl, ⟨?_, started, between, later.strict, ?_⟩, ranToo, values⟩
  · exact (Sides.later_goOn _ _ _).trans later
  · intro a b related before
    rcases later.new a b related with ⟨_, same⟩ | ⟨new, _⟩
    · exact started.arrow same.builtinArrow
    · exact absurd before new

/-- Two runs from one world have left these worlds, with values that are equal up to a renaming of
callables. The renaming

* is one to one, and it keeps the callables that there were at the start,
* takes those made by the one run to those made by the other, and
* takes each to a callable of the same arrow function. -/
def Value.EqualButNew (world left right : World) (value other : Value) : Prop :=
  ∃ renamed : Pairing, value.Paired renamed other ∧
    (∀ a b, renamed.rel a b →
      (a = b ∧ a ∈ world.callables) ∨ (a ∉ world.callables ∧ b ∉ world.callables)) ∧
    ∀ a b, renamed.rel a b → left.closure? a = right.closure? b

/-- Two maps are one, which calls `f` and `g` in turn. -/
theorem map_map {engine : EngineId} {depth : Nat} {scope : Scope} {list f g : Node}
    {world left : World} {value : Value} (builtins : world.HasBuiltins engine)
    (arrows : scope.BuiltinArrows anyBody world)
    (ran : Yields (evaluateAt depth engine scope (.call "map" [.call "map" [list, f], g])) world
      (.ok value) left) :
    ∃ items a b middle others right,
      Yields ([list, f, g].mapM (evaluateAt depth engine scope)) world
        (.ok [.list items, .callable a, .callable b]) middle ∧
      Yields (items.mapM fun item => callAt depth a [item] >>= fun result => callAt depth b [result])
        middle (.ok others) right ∧
      value.EqualButNew world left right (.list others) := by
  rcases depth with _ | _ | depth
  · cases ran
  · obtain ⟨_, _, _, _, _, mapped, _⟩ := yields_map builtins.find?_map ran
    cases mapped
  obtain ⟨middles, b, mapped, made, values, innerRan, gRan, secondPass, rfl⟩ :=
    yields_map builtins.find?_map ran
  obtain ⟨items, a, listed, called, _, listRan, fRan, firstPass, same⟩ :=
    yields_map builtins.find?_map innerRan
  cases same
  -- what is known after the operands of the inner map
  have staying := Interpreter.ofDepth_isStaying depth
  obtain ⟨listStays, listArrows⟩ := (staying.evaluate builtins arrows).stays _ _ listRan
  obtain ⟨fStays, fArrows⟩ := (staying.evaluate (listStays.builtins engine builtins)
    (listStays.arrowsInScope arrows)).stays _ _ fRan
  have stays := listStays.trans fStays
  have arrow : BuiltinArrow anyBody called a := fArrows _ rfl a .self
  have itemArrows : ∀ item ∈ items, item.BuiltinArrows anyBody called :=
    (fStays.arrows (listArrows _ rfl)).items
  have noted : called.Stays (called.record (Traced.mapStart items a)) := .record _ _
  have between := ((staying.calls (noted.arrow arrow) fun item there =>
    noted.arrows (itemArrows item there)).stays _ _ firstPass).1
  -- the single pass puts the first pass off
  obtain ⟨sides, other, rfl, postponed, gRanToo, callables⟩ :=
    Postponed.of_operand (Nat.le_succ (depth + 1)) (stays.builtins engine builtins)
      (stays.arrowsInScope arrows) noted between gRan
  cases callables with
  | @callable _ c related =>
    have notedToo := sides.later_goOn (.record _ (Traced.mapStart middles b)) (.refl sides.real)
    obtain ⟨after, others, rfl, onePass, later, _, paired⟩ :=
      mapM_one_pass staying (Interpreter.ofDepth_followedBy (Nat.le_add_right depth 2))
        (Interpreter.ofDepth_followedBy (Nat.le_succ (depth + 1))) arrow itemArrows
        (postponed.onward notedToo) related firstPass secondPass
    refine ⟨items, a, c, sides.real, others, after.real, ?_, onePass, after.pairing, .list paired,
      fun _ _ => later.renames stays, fun _ _ same => (after.arrows _ _ same).closure?_eq⟩
    have le : depth ≤ depth + 2 := Nat.le_add_right depth 2
    simp only [List.mapM_cons, List.mapM_nil]
    exact (evaluateAt_of_le le listRan).bind <| Yields.bind ((evaluateAt_of_le le fRan).bind <|
      Yields.bind (gRanToo.bind <| Yields.bind (run_pure _ _) (run_pure _ _)) (run_pure _ _))
        (run_pure _ _)

open Traced in
/-- What `map` does. The builtin is found under its name, and the operands evaluate to a list and a
callable, which is called with one item after the other.

* Each call has one item as its only argument. The first that fails ends the `map` with its error,
  and no call follows. Else the result is the list of what the calls have come to, item by item.
* If the callable came from an arrow function with one parameter, then each call is the evaluation of
  its body in the scope that binds the parameter to the item and nothing else.
* If that has two parameters or more, then the first call fails for lack of arguments, and so does
  the `map`. If there are no items, its result is the empty list.

Two maps are one. The engine has exactly the builtins, and every callable in the scope is the no-op or
came from an arrow function of such an engine. If `map(map(list, f), g)` ends in a value, then this is
the list of what `g` makes of what `f` makes of each item, but for the callables made on the way. -/
theorem map_in_order (depth : Nat) (engine : EngineId) (scope : Scope) (world : World) :
    (∀ list callable items id effects middle,
      (world.registry engine).find? "map" = some Builtins.map →
      InTurn (fun operand => traced (depth + 1) (.evaluate engine scope operand)) world
        [list, callable] [.list items, .callable id] effects middle →
      (∃ result others,
        InOrder (fun item => traced (depth + 1) (.call id [item])) (fun values => pure (.list values))
          items (middle.record (mapStart items id)) (result, others) ∧
        (traced (depth + 2) (.evaluate engine scope (.call "map" [list, callable]))).course world =
          (result, effects ++ .start (mapStart items id) :: others) ∧
        ∀ values left, result = some (.ok (.list values), left) → values.length = items.length) ∧
      (∀ owner p body, middle.closure? id = some (.arrow owner [p] body) →
        ∃ result others,
          InOrder (fun item => started (.closure id [item])
              (traced depth (.evaluate owner (Scope.empty.define p item) body)))
            (fun values => pure (.list values)) items (middle.record (mapStart items id))
            (result, others) ∧
          (traced (depth + 2) (.evaluate engine scope (.call "map" [list, callable]))).course world =
            (result, effects ++ .start (mapStart items id) :: others)) ∧
      ∀ owner parameters body, middle.closure? id = some (.arrow owner parameters body) →
        2 ≤ parameters.length →
        (traced (depth + 2) (.evaluate engine scope (.call "map" [list, callable]))).course world =
          (some (if items.isEmpty then .ok (.list [])
              else .error (.arityMismatch parameters.length 1),
            middle.record (mapStart items id)), effects ++ [.start (mapStart items id)])) ∧
    ∀ list f g value left, world.HasBuiltins engine → scope.BuiltinArrows anyBody world →
      Yields (evaluateAt depth engine scope (.call "map" [.call "map" [list, f], g])) world
        (.ok value) left →
      ∃ items a b middle others right,
        Yields ([list, f, g].mapM (evaluateAt depth engine scope)) world
          (.ok [.list items, .callable a, .callable b]) middle ∧
        Yields (items.mapM fun item =>
            callAt depth a [item] >>= fun result => callAt depth b [result]) middle
          (.ok others) right ∧
        value.EqualButNew world left right (.list others) := by
  refine ⟨fun list callable items id effects middle found inTurn => ?_, ?_⟩
  · have course := course_map found inTurn
    refine ⟨⟨_, _, inOrder_course _ _ _ _, course, fun values left => length_of_mapping⟩,
      fun owner p body behind => ?_, fun owner parameters body behind more => ?_⟩
    · have noted : (middle.record (mapStart items id)).closure? id = _ := behind
      rw [course_map_of_one noted depth items] at course
      exact ⟨_, _, inOrder_course _ _ _ _, course⟩
    · have noted : (middle.record (mapStart items id)).closure? id = _ := behind
      rw [course_map_of_more noted more depth items] at course
      exact course
  · exact fun list f g value left builtins arrows ran => map_map builtins arrows ran

open Traced in
/-- An arrow function of two parameters fails at the first item. In `map(map([1, 2], f), g)` the arrow
functions are `(x) -> {(y) -> {y}}` and `(z) -> {[z, (w) -> {w}]}`. Two maps make the callables of `f`
first, calls in turn make those of `f` and `g` in turn. -/
theorem map_in_order_renumbered :
    let world : World := (Builder.empty.build .empty).2
    let list : Node := .list [.constant (.int 1), .constant (.int 2)]
    let first : Node := .arrow ["x", "y"] (some (.name "x"))
    let f : Node := .arrow ["x"] (some (.arrow ["y"] (some (.name "y"))))
    let g : Node := .arrow ["z"] (some (.list [.name "z", .arrow ["w"] (some (.name "w"))]))
    let pair (i j : Nat) : Value := .list [.callable (.made i), .callable (.made j)]
    (∃ left, ((traced 3 (.evaluate ⟨0⟩ .empty (.call "map" [list, first]))).course world).1 =
      some (.error (.arityMismatch 2 1), left)) ∧
    ∃ left right,
      Yields (evaluateAt 5 ⟨0⟩ .empty (.call "map" [.call "map" [list, f], g])) world
        (.ok (.list [pair 1 4, pair 2 5])) left ∧
      (Value.list [pair 1 4, pair 2 5]).EqualButNew world left right
        (.list [pair 2 3, pair 4 5]) := by
  intro world list first f g pair
  constructor
  · have listed : (traced 2 (.evaluate ⟨0⟩ .empty list)).course world =
        (some (.ok (.list [.int 1, .int 2]), world), []) := rfl
    have made : (traced 2 (.evaluate ⟨0⟩ .empty first)).course world =
        (some (.ok (.callable (.made 0)),
            (world.addClosure (.arrow ⟨0⟩ ["x", "y"] (.name "x"))).2),
          [.construct (.arrow ⟨0⟩ ["x", "y"] (.name "x"))]) := rfl
    have inTurn := InTurn.cons (f := fun operand => traced 2 (.evaluate ⟨0⟩ .empty operand))
      listed (.cons made .nil)
    have builtins : world.HasBuiltins ⟨0⟩ := rfl
    obtain ⟨_, _, fails⟩ :=
      (map_in_order 1 ⟨0⟩ .empty world).1 _ _ _ _ _ _ builtins.find?_map inTurn
    exact ⟨_, congrArg Prod.fst (fails _ _ _ rfl (Nat.le_refl 2))⟩
  · have builtins : world.HasBuiltins ⟨0⟩ := rfl
    have arrows : Scope.empty.BuiltinArrows anyBody world :=
      fun name _ bound => nomatch (Scope.lookup?_empty name).symm.trans bound
    obtain ⟨left, ran⟩ : ∃ left, Yields (evaluateAt 5 ⟨0⟩ .empty
        (.call "map" [.call "map" [list, f], g])) world
        (.ok (.list [pair 1 4, pair 2 5])) left := ⟨_, rfl⟩
    let withF : World := (world.addClosure (.arrow ⟨0⟩ ["x"] (.arrow ["y"] (some (.name "y"))))).2
    let withBoth : World := (withF.addClosure
      (.arrow ⟨0⟩ ["z"] (.list [.name "z", .arrow ["w"] (some (.name "w"))]))).2
    obtain ⟨_, _, _, _, _, right, operands, inTurn, equal⟩ :=
      (map_in_order 5 ⟨0⟩ .empty world).2 _ _ _ _ _ builtins arrows ran
    have operandsKnown : Yields ([list, f, g].mapM (evaluateAt 5 ⟨0⟩ .empty)) world
        (.ok [.list [.int 1, .int 2], .callable (.made 0), .callable (.made 1)]) withBoth := rfl
    cases Option.some.inj (operands.symm.trans operandsKnown)
    have inTurnKnown : Yields ([Value.int 1, .int 2].mapM fun item =>
        callAt 5 (.made 0) [item] >>= fun result => callAt 5 (.made 1) [result]) withBoth
        (.ok [pair 2 3, pair 4 5]) _ := rfl
    cases Option.some.inj (inTurn.symm.trans inTurnKnown)
    exact ⟨left, _, ran, equal⟩

end ArrowExpr
