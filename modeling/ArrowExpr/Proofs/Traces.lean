import ArrowExpr.Proofs.Effects
/-!
# Runs with their effects

A `Traced` run is a run together with what it does to the world. Such runs are put together as runs
are, and the laws of that hold of both at once (`Traced.bind_assoc`, `Traced.pure_bind`).

The main statement is about runs that are made one after the other, and one that follows them all.
`InOrder` says how this goes: each run starts in the world that the one in front of it has left, and
the first that does not end in a value is the last. It is exactly what comes of it
(`course_mapM_bind_iff`).
-/

namespace ArrowExpr

open EvalM

/-- A run and its effects. -/
structure Traced (α : Type) where
  run : EvalM α
  effects : Effects

/-- An activity, with at most `depth` evaluations and calls inside each other. -/
def traced (depth : Nat) (activity : Activity) : Traced Value where
  run := activity.start (.ofDepth depth)
  effects := activity.effects depth

namespace Traced

variable {α β γ : Type}

/-- What comes of the run from a world on: how it ends, unless its depth does not suffice, and what
it does up to there. -/
def course (run : Traced α) (world : World) : Option (Except EvalError α × World) × List Effect :=
  (ExceptT.run run.run world, run.effects world)

/-- Nothing is done. -/
def pure (a : α) : Traced α := ⟨Pure.pure a, Effects.none⟩

/-- Nothing is done, and the outcome is known. -/
def ofOutcome (outcome : Outcome) : Traced Value := ⟨EvalM.ofOutcome outcome, Effects.none⟩

/-- A run, and what follows if it ends in a value. -/
def bind (first : Traced α) (next : α → Traced β) : Traced β where
  run := first.run >>= fun a => (next a).run
  effects := Effects.bind first.run first.effects fun a => (next a).effects

/-- The outcome of a run, as a value. -/
def attempt (run : Traced Value) : Traced Outcome := ⟨EvalM.attempt run.run, run.effects⟩

/-- The start of a body is noted, and then it is run. -/
def started (event : Event) (body : Traced α) : Traced α where
  run := EvalM.update (·.record event) >>= fun _ => body.run
  effects := Effects.bind (EvalM.update (·.record event)) (Effects.just (.start event))
    fun _ => body.effects

/-- One run for each item, up to the first that does not end in a value. -/
def mapM (f : α → Traced β) (items : List α) : Traced (List β) where
  run := items.mapM fun item => (f item).run
  effects := Effects.each (fun item => (f item).run) (fun item => (f item).effects) items

/-! ## Laws -/

section Laws

variable {world middle left : World} {first : Traced α} {next : α → Traced β}
  {effects : List Effect}

theorem ext_course {run other : Traced α} (same : ∀ world, run.course world = other.course world) :
    run = other := by
  cases run with | mk run effects =>
  cases other with | mk other others =>
  have runs : run = other := funext fun world => congrArg Prod.fst (same world)
  have alike : effects = others := funext fun world => congrArg Prod.snd (same world)
  rw [runs, alike]

@[simp] theorem course_pure (a : α) (world : World) :
    (pure a).course world = (some (.ok a, world), []) := rfl

@[simp] theorem course_started (event : Event) (body : Traced α) (world : World) :
    (started event body).course world = ((body.course (world.record event)).1,
      .start event :: (body.course (world.record event)).2) := rfl

theorem course_attempt (run : Traced Value) (world : World) :
    (attempt run).course world =
      ((run.course world).1.map fun (outcome, left) => (.ok outcome, left),
        (run.course world).2) := rfl

theorem course_bind (first : Traced α) (next : α → Traced β) (world : World) :
    (first.bind next).course world = (ExceptT.run (first.run >>= fun a => (next a).run) world,
      Effects.bind first.run first.effects (fun a => (next a).effects) world) := rfl

theorem course_bind_of_value {a : α}
    (ends : first.course world = (some (.ok a, middle), effects)) :
    (first.bind next).course world =
      (((next a).course middle).1, effects ++ ((next a).course middle).2) := by
  obtain ⟨ran, same⟩ := Prod.mk.inj ends
  have yields : Yields first.run world (.ok a) middle := ran
  rw [course_bind, run_bind, ran, Effects.bind_of_yields yields, same]
  rfl

theorem course_bind_of_error {error : EvalError}
    (ends : first.course world = (some (.error error, left), effects)) :
    (first.bind next).course world = (some (.error error, left), effects) := by
  obtain ⟨ran, same⟩ := Prod.mk.inj ends
  have yields : Yields first.run world (.error error) left := ran
  rw [course_bind, run_bind, ran, Effects.bind_of_error yields, same]

theorem course_bind_of_cut (ends : first.course world = (none, effects)) :
    (first.bind next).course world = (none, effects) := by
  obtain ⟨ran, same⟩ := Prod.mk.inj ends
  rw [course_bind, run_bind, ran, Effects.bind_of_stuck ran, same]

theorem pure_bind (a : α) (next : α → Traced β) : (pure a).bind next = next a :=
  ext_course fun world => by
    rw [course_bind_of_value (course_pure a world)]
    rfl

theorem bind_pure (run : Traced α) : run.bind pure = run :=
  ext_course fun world => by
    rcases ends : run.course world with ⟨_ | ⟨error | a, left⟩, effects⟩
    · exact course_bind_of_cut ends
    · exact course_bind_of_error ends
    · rw [course_bind_of_value ends]
      exact congrArg (Prod.mk _) (List.append_nil effects)

theorem bind_assoc (first : Traced α) (next : α → Traced β) (last : β → Traced γ) :
    (first.bind next).bind last = first.bind fun a => (next a).bind last := by
  refine ext_course fun world => ?_
  -- by how the first part ends, and then by how the second one does
  rcases ends : first.course world with ⟨_ | ⟨error | a, middle⟩, effects⟩
  · rw [course_bind_of_cut (course_bind_of_cut ends), course_bind_of_cut ends]
  · rw [course_bind_of_error (course_bind_of_error ends), course_bind_of_error ends]
  · have both : (first.bind next).course world = _ := course_bind_of_value ends
    have whole : (first.bind fun a => (next a).bind last).course world = _ :=
      course_bind_of_value ends
    rw [whole]
    rcases nextEnds : (next a).course middle with ⟨_ | ⟨error | b, left⟩, others⟩
    · rw [nextEnds] at both
      rw [course_bind_of_cut both, course_bind_of_cut nextEnds]
    · rw [nextEnds] at both
      rw [course_bind_of_error both, course_bind_of_error nextEnds]
    · rw [nextEnds] at both
      rw [course_bind_of_value both, course_bind_of_value nextEnds, List.append_assoc]

@[simp] theorem mapM_nil (f : α → Traced β) : mapM f [] = pure [] := rfl

theorem mapM_cons (f : α → Traced β) (item : α) (rest : List α) :
    mapM f (item :: rest) = (f item).bind fun b => (mapM f rest).bind fun bs => pure (b :: bs) := by
  have effects : ∀ b, Effects.bind (mapM f rest).run (mapM f rest).effects
      (fun bs => (pure (b :: bs)).effects) = (mapM f rest).effects :=
    fun _ => Effects.bind_none _ _
  simp only [bind, effects]
  rw [mapM, List.mapM_cons]
  rfl

/-- Runs for items may be replaced by ones that go alike in all worlds that are come through. -/
theorem course_mapM_congr {f g : α → Traced β} {passed : World → Prop}
    (alike : ∀ item world, passed world → (f item).course world = (g item).course world)
    (onward : ∀ item world value left, passed world → Yields (f item).run world (.ok value) left →
      passed left) (next : List β → Traced γ) (items : List α) {world : World} (here : passed world) :
    ((mapM f items).bind next).course world = ((mapM g items).bind next).course world := by
  induction items generalizing world next with
  | nil => rfl
  | cons item rest ih =>
    rw [mapM_cons, mapM_cons, bind_assoc, bind_assoc]
    have same := alike item world here
    rcases ends : (f item).course world with ⟨_ | ⟨error | value, left⟩, effects⟩
    · rw [course_bind_of_cut ends, course_bind_of_cut (same.symm.trans ends)]
    · rw [course_bind_of_error ends, course_bind_of_error (same.symm.trans ends)]
    · have ran : Yields (f item).run world (.ok value) left := congrArg Prod.fst ends
      rw [course_bind_of_value ends, course_bind_of_value (same.symm.trans ends), bind_assoc,
        bind_assoc]
      simp only [pure_bind]
      rw [ih _ (onward item world value left here ran)]

end Laws

/-! ## One after the other -/

/-- From the world on, the runs for the items end in these values. Each starts in the world that the
one in front of it has left. -/
inductive InTurn (f : α → Traced β) : World → List α → List β → List Effect → World → Prop
  | nil {world : World} : InTurn f world [] [] [] world
  | cons {item : α} {rest : List α} {value : β} {values : List β} {effects others : List Effect}
      {world middle left : World} :
      (f item).course world = (some (.ok value, middle), effects) →
      InTurn f middle rest values others left →
      InTurn f world (item :: rest) (value :: values) (effects ++ others) left

/-- How the runs for the items go from the world on, and what follows them.

* `done`: they all end in values, and what follows gets these.
* `failed`, `cut`: one of them fails or is cut off, after those in front of it have ended in values.
  Then there is no run for any item after it, and nothing follows. -/
inductive InOrder (f : α → Traced β) (next : List β → Traced γ) (items : List α) (world : World) :
    Option (Except EvalError γ × World) × List Effect → Prop
  | done {values : List β} {effects others : List Effect} {middle : World}
      {result : Option (Except EvalError γ × World)} :
      InTurn f world items values effects middle →
      (next values).course middle = (result, others) →
      InOrder f next items world (result, effects ++ others)
  | failed {before after : List α} {item : α} {values : List β} {effects others : List Effect}
      {middle left : World} {error : EvalError} :
      items = before ++ item :: after → InTurn f world before values effects middle →
      (f item).course middle = (some (.error error, left), others) →
      InOrder f next items world (some (.error error, left), effects ++ others)
  | cut {before after : List α} {item : α} {values : List β} {effects others : List Effect}
      {middle : World} :
      items = before ++ item :: after → InTurn f world before values effects middle →
      (f item).course middle = (none, others) →
      InOrder f next items world (none, effects ++ others)

section InOrder

variable {f : α → Traced β} {next : List β → Traced γ} {items before rest : List α}
  {world middle left : World} {values : List β} {effects : List Effect}

/-- Once some items have had their turn, the rest goes on from there. -/
theorem InTurn.course_append (inTurn : InTurn f world before values effects middle)
    (rest : List α) (next : List β → Traced γ) :
    ((mapM f (before ++ rest)).bind next).course world =
      ((((mapM f rest).bind fun others => next (values ++ others)).course middle).1,
        effects ++ (((mapM f rest).bind fun others => next (values ++ others)).course middle).2) := by
  induction inTurn generalizing next with
  | nil => rfl
  | cons ends _ ih =>
    rw [List.cons_append, mapM_cons, bind_assoc, course_bind_of_value ends, bind_assoc]
    simp only [pure_bind]
    rw [ih, List.append_assoc]
    rfl

/-- What holds of the items behind the first one holds of all of them. -/
theorem InOrder.cons {item : α} {value : β} {others : List Effect}
    {result : Option (Except EvalError γ × World)}
    (ends : (f item).course world = (some (.ok value, middle), effects))
    (inOrder : InOrder f (fun values => next (value :: values)) rest middle (result, others)) :
    InOrder f next (item :: rest) world (result, effects ++ others) := by
  generalize same : (result, others) = course at inOrder
  cases inOrder with
  | done inTurn last =>
    cases same
    rw [← List.append_assoc]
    exact .done (inTurn.cons ends) last
  | failed split inTurn last =>
    cases same
    rw [← List.append_assoc]
    exact .failed (congrArg (item :: ·) split) (inTurn.cons ends) last
  | cut split inTurn last =>
    cases same
    rw [← List.append_assoc]
    exact .cut (congrArg (item :: ·) split) (inTurn.cons ends) last

theorem inOrder_course (f : α → Traced β) (next : List β → Traced γ) (items : List α)
    (world : World) : InOrder f next items world (((mapM f items).bind next).course world) := by
  induction items generalizing next world with
  | nil =>
    rw [mapM_nil, pure_bind]
    exact .done .nil rfl
  | cons item rest ih =>
    rw [mapM_cons, bind_assoc]
    rcases ends : (f item).course world with ⟨_ | ⟨error | value, middle⟩, effects⟩
    · rw [course_bind_of_cut ends]
      exact .cut rfl .nil ends
    · rw [course_bind_of_error ends]
      exact .failed rfl .nil ends
    · rw [course_bind_of_value ends, bind_assoc]
      simp only [pure_bind]
      exact .cons ends (ih _ middle)

/-- The relation tells all that comes of runs that are made one after the other. -/
theorem course_mapM_bind_iff {course : Option (Except EvalError γ × World) × List Effect} :
    ((mapM f items).bind next).course world = course ↔ InOrder f next items world course := by
  constructor
  · rintro rfl
    exact inOrder_course f next items world
  · intro inOrder
    cases inOrder with
    | done inTurn last =>
      have whole := inTurn.course_append [] next
      rw [List.append_nil, mapM_nil, pure_bind, List.append_nil, last] at whole
      exact whole
    | failed split inTurn last =>
      rw [split, inTurn.course_append, mapM_cons, bind_assoc, course_bind_of_error last]
    | cut split inTurn last =>
      rw [split, inTurn.course_append, mapM_cons, bind_assoc, course_bind_of_cut last]

/-- There is one value for each item. -/
theorem InTurn.length_eq (inTurn : InTurn f world before values effects left) :
    values.length = before.length := by
  induction inTurn with
  | nil => rfl
  | cons _ _ ih => rw [List.length_cons, List.length_cons, ih]

/-- Each turn starts in the world after what was done in the turns in front of it. -/
theorem InTurn.world_eq (accounted : ∀ item, Accounted (f item).run (f item).effects)
    (inTurn : InTurn f world before values effects left) : left = world.after effects := by
  induction inTurn with
  | nil => rfl
  | @cons item _ _ _ done _ start _ _ ends _ ih =>
    obtain ⟨ran, same⟩ := Prod.mk.inj ends
    have reached := accounted item start _ _ ran
    rw [World.after_append, ih, reached, ← same]

end InOrder

end Traced

theorem accounted_traced (depth : Nat) (activity : Activity) :
    Accounted (traced depth activity).run (traced depth activity).effects :=
  activity.accounted depth

end ArrowExpr
