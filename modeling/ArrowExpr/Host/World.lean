import ArrowExpr.Host.Registry
/-!
The world of a run: the registries of all engines, the closures behind all callables, and what host
code keeps. Registries and cells can change; a closure never does, and it keeps its identity.

The world also keeps a journal of the function and closure bodies that were started, so that the
order of effects is part of what a run yields.
-/

namespace ArrowExpr

/-- What a call of a callable runs. -/
inductive Closure where
  /-- The body of an arrow function, with the functions that its engine has when it is called. -/
  | arrow (engine : EngineId) (parameters : List String) (body : Node)
  /-- Host code. -/
  | host (callback : List Value → Action)

/-- The start of a body. -/
inductive Event where
  /-- The evaluator of a registered function was started. -/
  | function (function : HostFunction) (arguments : List Value)
  /-- The closure of a callable was started. -/
  | closure (id : CallableId) (arguments : List Value)

/-- All that a run can change. -/
structure World where
  registries : Array Registry
  closures : Array Closure
  cells : Array Value
  /-- The bodies that were started, the latest first. -/
  journal : List Event

namespace World

/-- Nothing has been made yet. -/
def empty : World := ⟨#[], #[], #[], []⟩

/-- The functions of an engine as they are now. -/
def registry (world : World) (engine : EngineId) : Registry :=
  world.registries[engine.index]?.getD .empty

/-- A new engine with these functions. -/
def addRegistry (world : World) (registry : Registry) : EngineId × World :=
  (⟨world.registries.size⟩, { world with registries := world.registries.push registry })

/-- Changes the functions of an engine. -/
def updateRegistry (world : World) (engine : EngineId) (change : Registry → Registry) : World :=
  { world with registries := world.registries.modify engine.index change }

/-- The closure of a callable; the no-op has none. -/
def closure? (world : World) : CallableId → Option Closure
  | .noop => none
  | .made index => world.closures[index]?

/-- A new callable with an identity of its own. -/
def addClosure (world : World) (closure : Closure) : CallableId × World :=
  (.made world.closures.size, { world with closures := world.closures.push closure })

/-- A new cell. -/
def addCell (world : World) (value : Value) : CellId × World :=
  (⟨world.cells.size⟩, { world with cells := world.cells.push value })

/-- The value in a cell. -/
def load (world : World) (cell : CellId) : Value := world.cells[cell.index]?.getD .null

/-- Puts a value into a cell. -/
def store (world : World) (cell : CellId) (value : Value) : World :=
  { world with cells := world.cells.modify cell.index fun _ => value }

/-- Notes the start of a body. -/
def record (world : World) (event : Event) : World :=
  { world with journal := event :: world.journal }

/-! ## What a change leaves as it was -/

@[simp] theorem registry_addClosure (world : World) (closure : Closure) (engine : EngineId) :
    (world.addClosure closure).2.registry engine = world.registry engine := rfl

@[simp] theorem registry_store (world : World) (cell : CellId) (value : Value)
    (engine : EngineId) : (world.store cell value).registry engine = world.registry engine := rfl

@[simp] theorem registry_record (world : World) (event : Event) (engine : EngineId) :
    (world.record event).registry engine = world.registry engine := rfl

@[simp] theorem closure?_updateRegistry (world : World) (engine : EngineId)
    (change : Registry → Registry) (id : CallableId) :
    (world.updateRegistry engine change).closure? id = world.closure? id := rfl

@[simp] theorem closure?_store (world : World) (cell : CellId) (value : Value)
    (id : CallableId) : (world.store cell value).closure? id = world.closure? id := rfl

@[simp] theorem closure?_record (world : World) (event : Event) (id : CallableId) :
    (world.record event).closure? id = world.closure? id := rfl

theorem closure?_addClosure (world : World) (closure : Closure) (index : Nat) :
    (world.addClosure closure).2.closure? (.made index) =
      if index = world.closures.size then some closure else world.closure? (.made index) := by
  simp only [closure?, addClosure, Array.getElem?_push]

theorem registry_updateRegistry (world : World) (engine other : EngineId)
    (change : Registry → Registry) (present : engine.index < world.registries.size) :
    (world.updateRegistry engine change).registry other =
      if engine = other then change (world.registry engine) else world.registry other := by
  cases engine with | mk index =>
  cases other with | mk otherIndex =>
  simp only [registry, updateRegistry, Array.getElem?_modify, EngineId.mk.injEq]
  split
  · rename_i same
    subst same
    simp [Array.getElem?_eq_getElem present]
  · rfl

theorem load_store (world : World) (cell other : CellId) (value : Value) :
    (world.store cell value).load other =
      if cell = other ∧ other.index < world.cells.size then value else world.load other := by
  cases cell with | mk index =>
  cases other with | mk otherIndex =>
  simp only [load, store, Array.getElem?_modify, CellId.mk.injEq]
  by_cases same : index = otherIndex
  · rw [if_pos same]
    cases there : world.cells[otherIndex]? with
    | none =>
      have outside := Array.getElem?_eq_none_iff.mp there
      rw [if_neg fun written => Nat.not_lt.mpr outside written.2]
      rfl
    | some old =>
      have inside := (Array.getElem?_eq_some_iff.mp there).1
      rw [if_pos ⟨same, inside⟩]
      rfl
  · rw [if_neg same, if_neg fun written => same written.1]

end World

end ArrowExpr
