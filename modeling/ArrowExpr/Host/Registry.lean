import ArrowExpr.Host.Action
/-!
Function registries: the functions that expressions can call, by name.
-/

namespace ArrowExpr

namespace HostFunction

/-- The last of the functions that has this name. -/
def lastNamed (name : String) (functions : List HostFunction) : Option HostFunction :=
  functions.reverse.find? (·.name = name)

theorem lastNamed_cons (name : String) (first : HostFunction) (rest : List HostFunction) :
    lastNamed name (first :: rest) =
      (lastNamed name rest).or (if first.name = name then some first else none) := by
  simp only [lastNamed, List.reverse_cons, List.find?_append, List.find?_singleton,
    decide_eq_true_eq]

theorem mem_of_lastNamed {name : String} {functions : List HostFunction} {function : HostFunction}
    (last : lastNamed name functions = some function) :
    function ∈ functions ∧ function.name = name := by
  rw [lastNamed] at last
  have named := List.find?_some last
  exact ⟨List.mem_reverse.mp (List.mem_of_find?_eq_some last), of_decide_eq_true named⟩

theorem lastNamed_eq_none {name : String} {functions : List HostFunction}
    (others : ∀ function ∈ functions, function.name ≠ name) : lastNamed name functions = none := by
  refine List.find?_eq_none.mpr fun function there => ?_
  rw [decide_eq_true_eq]
  exact others function (List.mem_reverse.mp there)

end HostFunction

/-- The functions that expressions can call, by name. -/
structure Registry where
  functions : Std.ExtTreeMap String HostFunction

namespace Registry

/-- No functions. -/
def empty : Registry := ⟨∅⟩

/-- The function of a name. -/
def find? (registry : Registry) (name : String) : Option HostFunction := registry.functions[name]?

def contains (registry : Registry) (name : String) : Bool := registry.functions.contains name

def size (registry : Registry) : Nat := registry.functions.size

/-- The registered names in order. -/
def names (registry : Registry) : List String := registry.functions.keys

/-- Registers a function under its own name, in place of an earlier one. -/
def insert (registry : Registry) (function : HostFunction) : Registry :=
  ⟨registry.functions.insert function.name function⟩

/-- Registers functions one after the other. -/
def insertAll (registry : Registry) (functions : List HostFunction) : Registry :=
  functions.foldl insert registry

/-! ## What a name stands for -/

@[simp] theorem find?_empty (name : String) : empty.find? name = none := by
  simp [find?, empty]

theorem find?_insert (registry : Registry) (function : HostFunction) (name : String) :
    (registry.insert function).find? name =
      if function.name = name then some function else registry.find? name := by
  simp [find?, insert, Std.ExtTreeMap.getElem?_insert]

/-- Of functions that are registered one after the other the last one of a name stays. -/
theorem find?_insertAll_eq (registry : Registry) (functions : List HostFunction) (name : String) :
    (registry.insertAll functions).find? name =
      (HostFunction.lastNamed name functions).or (registry.find? name) := by
  induction functions generalizing registry with
  | nil => rfl
  | cons first rest ih =>
    have later : ((registry.insert first).insertAll rest).find? name = _ := ih _
    rw [HostFunction.lastNamed_cons, Option.or_assoc]
    refine later.trans (congrArg _ ?_)
    rw [find?_insert]
    split <;> rfl

/-- A function that is found is one of those that were registered, or was there before. -/
theorem find?_insertAll {registry : Registry} {functions : List HostFunction}
    {name : String} {function : HostFunction}
    (found : (registry.insertAll functions).find? name = some function) :
    (function ∈ functions ∧ function.name = name) ∨ registry.find? name = some function := by
  rw [find?_insertAll_eq, Option.or_eq_some_iff] at found
  rcases found with last | ⟨_, before⟩
  · exact .inl (HostFunction.mem_of_lastNamed last)
  · exact .inr before

theorem contains_eq_isSome (registry : Registry) (name : String) :
    registry.contains name = (registry.find? name).isSome := by
  simp [contains, find?]

/-- A registry is what its names stand for. -/
theorem ext_find? {a b : Registry} (same : ∀ name, a.find? name = b.find? name) : a = b := by
  cases a
  cases b
  congr
  exact Std.ExtTreeMap.ext_getElem? same

end Registry

end ArrowExpr
