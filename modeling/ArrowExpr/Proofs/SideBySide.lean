import ArrowExpr.Proofs.Runs
import Mathlib.Data.List.Forall2
/-!
# Two runs side by side

`Agree related same first second`: from related worlds the two runs come to the same end, both out
of depth, or both in the same error, or in values that are the `same`, and in related worlds again.
The rules follow the ways in which runs are put together.

The first use is the journal, which is only ever written: nothing that the interpreter does looks at
it (`Blind.compositional`), so worlds that are alike apart from it give alike evaluations
(`evaluateAt_alike`).
-/

namespace ArrowExpr

open EvalM

section Agreement

variable {α β γ δ : Type}

/-- Two ends of runs that agree. -/
inductive Matching (related : World → World → Prop) (same : α → β → Prop) :
    Option (Except EvalError α × World) → Option (Except EvalError β × World) → Prop
  | outOfDepth : Matching related same none none
  | value {a : α} {b : β} {left right : World} :
      same a b → related left right →
      Matching related same (some (.ok a, left)) (some (.ok b, right))
  | error {error : EvalError} {left right : World} :
      related left right →
      Matching related same (some (.error error, left)) (some (.error error, right))

/-- From related worlds the two runs come to matching ends. -/
def Agree (related : World → World → Prop) (same : α → β → Prop) (first : EvalM α)
    (second : EvalM β) : Prop :=
  ∀ left right, related left right →
    Matching related same (ExceptT.run first left) (ExceptT.run second right)

namespace Agree

variable {related : World → World → Prop} {same : α → β → Prop} {next : γ → δ → Prop}

theorem pure {a : α} {b : β} (equal : same a b) :
    Agree related same (Pure.pure a) (Pure.pure b) :=
  fun _ _ worlds => .value equal worlds

theorem throw (error : EvalError) :
    Agree related same (MonadExcept.throw error) (MonadExcept.throw error) :=
  fun _ _ worlds => .error worlds

theorem outOfDepth : Agree related same EvalM.outOfDepth EvalM.outOfDepth :=
  fun _ _ _ => .outOfDepth

theorem ask {first : World → α} {second : World → β}
    (equal : ∀ left right, related left right → same (first left) (second right)) :
    Agree related same (EvalM.ask first) (EvalM.ask second) :=
  fun left right worlds => .value (equal left right worlds) worlds

theorem update {first second : World → World}
    (kept : ∀ left right, related left right → related (first left) (second right)) :
    Agree related Eq (EvalM.update first) (EvalM.update second) :=
  fun left right worlds => .value rfl (kept left right worlds)

theorem make {first : World → α × World} {second : World → β × World}
    (equal : ∀ left right, related left right → same (first left).1 (second right).1)
    (kept : ∀ left right, related left right → related (first left).2 (second right).2) :
    Agree related same (EvalM.make first) (EvalM.make second) :=
  fun left right worlds => .value (equal left right worlds) (kept left right worlds)

theorem bind {first : EvalM α} {second : EvalM β} {f : α → EvalM γ} {g : β → EvalM δ}
    (agree : Agree related same first second)
    (nextAgree : ∀ a b, same a b → Agree related next (f a) (g b)) :
    Agree related next (first >>= f) (second >>= g) := by
  intro left right worlds
  have ends := agree left right worlds
  rw [run_bind, run_bind]
  generalize ExceptT.run first left = firstEnd at ends ⊢
  generalize ExceptT.run second right = secondEnd at ends ⊢
  cases ends with
  | outOfDepth => exact .outOfDepth
  | value equal worlds => exact nextAgree _ _ equal _ _ worlds
  | error worlds => exact .error worlds

theorem mapM {f : γ → EvalM α} {g : γ → EvalM β} (items : List γ)
    (agree : ∀ item ∈ items, Agree related same (f item) (g item)) :
    Agree related (List.Forall₂ same) (items.mapM f) (items.mapM g) := by
  induction items with
  | nil => exact pure .nil
  | cons item rest ih =>
    rw [List.mapM_cons, List.mapM_cons]
    refine (agree item List.mem_cons_self).bind fun a b equal => ?_
    refine (ih fun other there => agree other (List.mem_cons_of_mem _ there)).bind ?_
    exact fun as bs equals => pure (.cons equal equals)

end Agree

end Agreement

/-! ## The journal -/

/-- The worlds differ at most in their journals. -/
structure World.Alike (left right : World) : Prop where
  registries : left.registries = right.registries
  closures : left.closures = right.closures
  cells : left.cells = right.cells

namespace World.Alike

variable {left right : World}

theorem refl (world : World) : Alike world world := ⟨rfl, rfl, rfl⟩

theorem record (alike : Alike left right) (first second : Event) :
    Alike (left.record first) (right.record second) :=
  ⟨alike.registries, alike.closures, alike.cells⟩

theorem registry (alike : Alike left right) (engine : EngineId) :
    left.registry engine = right.registry engine := by
  simp only [World.registry, alike.registries]

theorem closure? (alike : Alike left right) (id : CallableId) :
    left.closure? id = right.closure? id := by
  cases id with
  | noop => rfl
  | made index => simp only [World.closure?, alike.closures]

theorem load (alike : Alike left right) (cell : CellId) : left.load cell = right.load cell := by
  simp only [World.load, alike.cells]

theorem addClosure_fst (alike : Alike left right) (closure : Closure) :
    (left.addClosure closure).1 = (right.addClosure closure).1 := by
  simp only [World.addClosure, alike.closures]

theorem addClosure (alike : Alike left right) (closure : Closure) :
    Alike (left.addClosure closure).2 (right.addClosure closure).2 :=
  ⟨alike.registries, by simp only [World.addClosure, alike.closures], alike.cells⟩

theorem updateRegistry (alike : Alike left right) (engine : EngineId)
    (change : Registry → Registry) :
    Alike (left.updateRegistry engine change) (right.updateRegistry engine change) :=
  ⟨by simp only [World.updateRegistry, alike.registries], alike.closures, alike.cells⟩

theorem store (alike : Alike left right) (cell : CellId) (value : Value) :
    Alike (left.store cell value) (right.store cell value) :=
  ⟨alike.registries, alike.closures, by simp only [World.store, alike.cells]⟩

end World.Alike

/-- What the run does depends on the journal in nothing but the journal that it leaves. -/
def Blind {α : Type} (run : EvalM α) : Prop := Agree World.Alike Eq run run

namespace Blind

variable {α β : Type}

theorem bind {first : EvalM α} {next : α → EvalM β} (blind : Blind first)
    (nextBlind : ∀ a, Blind (next a)) : Blind (first >>= next) :=
  Agree.bind blind fun a _ equal => equal ▸ nextBlind a

theorem ofOutcome (outcome : Outcome) : Blind (EvalM.ofOutcome outcome) := by
  intro left right alike
  cases outcome with
  | ok value => exact .value rfl alike
  | error error => exact .error alike

theorem attempt {run : EvalM Value} (blind : Blind run) : Blind (EvalM.attempt run) := by
  intro left right alike
  have ends := blind left right alike
  rw [run_attempt, run_attempt]
  generalize ExceptT.run run left = leftEnd at ends ⊢
  generalize ExceptT.run run right = rightEnd at ends ⊢
  cases ends with
  | outOfDepth => exact .outOfDepth
  | value equal alike => exact .value (congrArg Except.ok equal) alike
  | error alike => exact .value rfl alike

/-- Nothing that the interpreter does looks at the journal. -/
theorem compositional : Compositional fun _ run => Blind run where
  pure _ := Agree.pure rfl
  throw error := Agree.throw error
  outOfDepth := Agree.outOfDepth
  ofOutcome := ofOutcome
  attempt := attempt
  bind := bind
  registry engine := Agree.ask fun _ _ alike => alike.registry engine
  contains engine name := Agree.ask fun _ _ alike => by rw [alike.registry engine]
  closure? id := Agree.ask fun _ _ alike => alike.closure? id
  load cell := Agree.ask fun _ _ alike => alike.load cell
  -- a new callable is the same one on both sides, as it is numbered by the closures before it
  addClosure closure := Agree.make (fun _ _ alike => alike.addClosure_fst closure)
    fun _ _ alike => alike.addClosure closure
  insert engine _ := Agree.update fun _ _ alike => alike.updateRegistry engine _
  store cell value := Agree.update fun _ _ alike => alike.store cell value
  record event := Agree.update fun _ _ alike => alike.record event event

end Blind

/-- Worlds that are alike apart from the journal give alike evaluations. -/
theorem evaluateAt_alike (depth : Nat) (engine : EngineId) (scope : Scope) (node : Node) :
    Blind (evaluateAt depth engine scope node) :=
  (Blind.compositional.ofDepth depth).evaluate engine scope node

end ArrowExpr
