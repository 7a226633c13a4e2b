import ArrowExpr.Host.Builtins
import ArrowExpr.Host.World
import ArrowExpr.Proofs.Operators
import Mathlib.Data.Set.Basic
/-!
# Which callables there are in values

What a value holds can be bounded by a set of callables (`Value.Within`), likewise for outcomes and
scopes. Values without callables are in every bound, and what the builtins pick from their arguments
is in the bound of the arguments.
-/

namespace ArrowExpr

/-- Every callable in the value is known. -/
def Value.Within (value : Value) (known : Set CallableId) : Prop :=
  ∀ id, value.Holds id → id ∈ known

/-- The outcome is an error, or every callable in its value is known. -/
def Outcome.Within (outcome : Outcome) (known : Set CallableId) : Prop :=
  ∀ value, outcome = .ok value → value.Within known

/-- Every callable in the scope is known. -/
def Scope.Within (scope : Scope) (known : Set CallableId) : Prop :=
  ∀ name value, scope.lookup? name = some value → value.Within known

/-- The callables that there are, and the no-op. -/
def World.callables (world : World) : Set CallableId :=
  {id | id = .noop ∨ ∃ index, id = .made index ∧ index < world.closures.size}

namespace World

/-- A callable with a closure is one that there is. -/
theorem mem_callables {world : World} {id : CallableId} {closure : Closure}
    (found : world.closure? id = some closure) : id ∈ world.callables := by
  cases id with
  | noop => exact .inl rfl
  | made index => exact .inr ⟨index, rfl, (Array.getElem?_eq_some_iff.mp found).1⟩

/-- The next callable is new. -/
theorem next_not_mem_callables (world : World) :
    CallableId.made world.closures.size ∉ world.callables := by
  rintro (isNoop | ⟨index, same, inside⟩)
  · cases isNoop
  · cases same
    exact Nat.lt_irrefl _ inside

/-- The callable that is made has the closure that it is made of. -/
theorem closure?_made (world : World) (closure : Closure) :
    (world.addClosure closure).2.closure? (.made world.closures.size) = some closure := by
  rw [World.closure?_addClosure, if_pos rfl]

end World

namespace Value.Within

variable {known more : Set CallableId}

theorem mono {value : Value} (within : value.Within known) (sub : known ⊆ more) :
    value.Within more :=
  fun id holds => sub (within id holds)

theorem of_plain {value : Value} (plain : Outcome.Plain (.ok value)) : value.Within known := by
  cases plain with
  | value none => exact fun id holds => absurd holds (none id)

theorem null : Value.null.Within known := nofun

theorem bool (b : Bool) : (Value.bool b).Within known := nofun

theorem list {items : List Value} (within : ∀ item ∈ items, item.Within known) :
    (Value.list items).Within known := by
  intro id holds
  cases holds with
  | item there holds => exact within _ there id holds

theorem items {items : List Value} (within : (Value.list items).Within known) :
    ∀ item ∈ items, item.Within known :=
  fun _ there id holds => within id (.item there holds)

theorem callable {id : CallableId} (isKnown : id ∈ known) : (Value.callable id).Within known := by
  intro other holds
  cases holds
  exact isKnown

end Value.Within

/-! ## What builtins pick -/

namespace Builtins

theorem unbeaten_mem {op : BinaryOp} {best value : Value} {rest : List Value}
    (found : unbeaten op best rest = .ok value) : value = best ∨ value ∈ rest := by
  induction rest generalizing best with
  | nil =>
    cases found
    exact .inl rfl
  | cons candidate rest ih =>
    unfold unbeaten at found
    split at found
    · cases found
    · rcases ih found with here | later
      · split at here
        · exact .inr (here ▸ List.mem_cons_self)
        · exact .inl here
      · exact .inr (List.mem_cons_of_mem candidate later)

/-- The extreme argument is one of the arguments. -/
theorem extreme_mem {name : String} {op : BinaryOp} {arguments : List Value} {value : Value}
    (found : extreme name op arguments = .ok value) : value ∈ arguments := by
  cases arguments with
  | nil => cases found
  | cons first rest =>
    rcases unbeaten_mem found with rfl | later
    · exact List.mem_cons_self
    · exact List.mem_cons_of_mem first later

end Builtins

end ArrowExpr
