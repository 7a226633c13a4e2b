import ArrowExpr.Proofs.ArrowCalls
import ArrowExpr.Proofs.FunctionCalls
/-!
# What `map` calls

`map` calls its callable with one item after the other, and what comes of it is the list of what the
calls come to (`perform_mapItems`). So all that is to say of a `map` is how runs go that are
made in order: each call starts in the world that the one in front of it has left, and the first that
does not end in a value is the last (`course_map`).

If the callable came from an arrow function with one parameter, then the calls are the evaluations of
its body, with the parameter bound to the item alone (`course_map_of_one`). If it takes more, already
the first call fails (`course_map_of_more`).
-/

namespace ArrowExpr

open EvalM

namespace Traced

/-- Host code that calls a callable and goes on with its value. -/
theorem perform_call (depth : Nat) (id : CallableId) (arguments : List Value)
    (next : Value → Action) :
    traced depth (.perform (.call id arguments (.andThen next))) =
      (traced depth (.call id arguments)).bind fun value => traced depth (.perform (next value)) := by
  refine ext_course fun world => ?_
  show ((attempt (traced depth (.call id arguments))).bind
    fun outcome => traced depth (.perform (Action.andThen next outcome))).course world = _
  have attempted := course_attempt (traced depth (.call id arguments)) world
  -- by how the call ends; an error is caught, and then the host code ends with it
  rcases ends : (traced depth (.call id arguments)).course world with
    ⟨_ | ⟨error | value, left⟩, effects⟩
  all_goals rw [ends] at attempted
  · rw [course_bind_of_cut ends, course_bind_of_cut attempted]
  · rw [course_bind_of_error ends, course_bind_of_value attempted]
    exact congrArg (Prod.mk _) (List.append_nil _)
  · rw [course_bind_of_value ends, course_bind_of_value attempted]
    rfl

/-- The calls of `map`, after some have been made already. -/
theorem perform_mapItems (depth : Nat) (id : CallableId) (done items : List Value) :
    traced depth (.perform (Builtins.mapItems id done items)) =
      (mapM (fun item => traced depth (.call id [item])) items).bind fun values =>
        pure (.list (done.reverse ++ values)) := by
  induction items generalizing done with
  | nil =>
    rw [mapM_nil, pure_bind, List.append_nil]
    rfl
  | cons item rest ih =>
    rw [Builtins.mapItems, perform_call, mapM_cons, bind_assoc]
    refine congrArg (Traced.bind _) (funext fun value => ?_)
    rw [ih, bind_assoc, List.reverse_cons]
    simp only [pure_bind, List.append_assoc, List.singleton_append]

/-! ## The calls of one `map` -/

section Map

variable {world middle : World} {engine owner : EngineId} {scope : Scope} {list callable : Node}
  {items : List Value} {id : CallableId} {effects : List Effect}

/-- One call for each item, and then the list of what they have come to. -/
def mapping (depth : Nat) (id : CallableId) (items : List Value) : Traced Value :=
  (mapM (fun item => traced depth (.call id [item])) items).bind fun values => pure (.list values)

/-- The list has one value for each item. -/
theorem length_of_mapping {depth : Nat} {values : List Value} {left : World}
    (ends : ((mapping depth id items).course world).1 = some (.ok (.list values), left)) :
    values.length = items.length := by
  have inOrder : InOrder (fun item => traced depth (.call id [item]))
      (fun values => pure (.list values)) items world ((mapping depth id items).course world) :=
    inOrder_course _ _ items world
  generalize (mapping depth id items).course world = course at ends inOrder
  cases inOrder with
  | done inTurn last =>
    cases last
    cases ends
    exact inTurn.length_eq
  | failed => cases ends
  | cut => cases ends

/-- The start of the builtin `map`. -/
abbrev mapStart (items : List Value) (id : CallableId) : Event :=
  .function Builtins.map [.list items, .callable id]

/-- A `map` of a list and a callable is its start and then the calls. -/
theorem course_map (found : (world.registry engine).find? "map" = some Builtins.map) {depth : Nat}
    (inTurn : InTurn (fun argument => traced depth (.evaluate engine scope argument)) world
      [list, callable] [.list items, .callable id] effects middle) :
    (traced (depth + 1) (.evaluate engine scope (.call "map" [list, callable]))).course world =
      (((mapping depth id items).course (middle.record (mapStart items id))).1,
        effects ++ .start (mapStart items id) ::
          ((mapping depth id items).course (middle.record (mapStart items id))).2) := by
  have runs : traced depth (.run Builtins.map scope [.list items, .callable id]) =
      started (mapStart items id) (mapping depth id items) :=
    congrArg (started _) (perform_mapItems depth id [] items)
  rw [course_call found]
  refine course_mapM_bind_iff.mpr (.done inTurn ?_)
  rw [runs, course_started]

section Arrow

variable {parameters : List String} {body : Node}

/-- The call of an arrow function with one parameter is the body, with the item bound to it. -/
theorem course_call_of_one {p : String} (found : world.closure? id = some (.arrow owner [p] body))
    (depth : Nat) (item : Value) :
    (traced (depth + 1) (.call id [item])).course world =
      (started (.closure id [item])
        (traced depth (.evaluate owner (Scope.empty.define p item) body))).course world := by
  have enough : [p].length ≤ [item].length := Nat.le_refl 1
  exact Prod.ext (callAt_enough found enough depth) (callEffects_enough found enough depth)

/-- With an arrow function of one parameter, the calls are evaluations of its body. -/
theorem course_map_of_one {p : String} (found : world.closure? id = some (.arrow owner [p] body))
    (depth : Nat) (items : List Value) :
    (mapping (depth + 1) id items).course world =
      ((mapM (fun item => started (.closure id [item])
        (traced depth (.evaluate owner (Scope.empty.define p item) body))) items).bind
          fun values => pure (.list values)).course world := by
  have alike : ∀ item left, World.closure? left id = some (.arrow owner [p] body) →
      (traced (depth + 1) (.call id [item])).course left =
        (started (.closure id [item])
          (traced depth (.evaluate owner (Scope.empty.define p item) body))).course left :=
    fun item left there => course_call_of_one there depth item
  -- what is behind the callable stays, so the calls are alike in all worlds that they come through
  refine course_mapM_congr alike (fun item start value left there ran => ?_) _ items found
  have later : Later start left :=
    Onward.compositional.start (depth + 1) (.call id [item]) start _ left ran
  exact later.closure? there

/-- An arrow function of more parameters fails at the first item, if there is one. -/
theorem course_map_of_more (found : world.closure? id = some (.arrow owner parameters body))
    (more : 2 ≤ parameters.length) (depth : Nat) (items : List Value) :
    (mapping (depth + 1) id items).course world =
      (some (if items.isEmpty then .ok (.list []) else .error (.arityMismatch parameters.length 1),
        world), []) := by
  cases items with
  | nil => rfl
  | cons item rest =>
    have few : [item].length < parameters.length := more
    have quiet : callEffects (depth + 1) id [item] world = [] := by
      simp only [callEffects, Interpreter.closureEffects, Effects.bind_ask, found, if_pos few]
      rfl
    have ends : (traced (depth + 1) (.call id [item])).course world =
        (some (.error (.arityMismatch parameters.length 1), world), []) :=
      Prod.ext (callAt_few found few depth) quiet
    rw [mapping, mapM_cons, bind_assoc, course_bind_of_error ends]
    rfl

end Arrow

end Map

end Traced

end ArrowExpr
