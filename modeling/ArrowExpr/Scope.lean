import ArrowExpr.Value.Basic
import Std.Data.ExtTreeMap.Lemmas
/-!
Scopes: the variables that an expression sees. A scope is flat, and two scopes with the same
bindings are equal, in whatever order they were made.
-/

namespace ArrowExpr

/-- The variables that an expression sees, by name. -/
structure Scope where
  bindings : Std.ExtTreeMap String Value

namespace Scope

/-- No variables. -/
def empty : Scope := ⟨∅⟩

/-- Binds a name, in place of an earlier binding. -/
def define (scope : Scope) (name : String) (value : Value) : Scope :=
  ⟨scope.bindings.insert name value⟩

/-- The value of a name. -/
def lookup? (scope : Scope) (name : String) : Option Value := scope.bindings[name]?

def contains (scope : Scope) (name : String) : Bool := scope.bindings.contains name

def size (scope : Scope) : Nat := scope.bindings.size

/-- The bindings in the order of their names. -/
def toList (scope : Scope) : List (String × Value) := scope.bindings.toList

/-- The bound names in order. -/
def names (scope : Scope) : List String := scope.bindings.keys

/-- The pairs bound one after the other; of a repeated name the last one stays. -/
def ofList (pairs : List (String × Value)) : Scope :=
  pairs.foldl (fun scope (name, value) => scope.define name value) empty

/-- The same names with equal values. Values are compared by `==`, so a NaN is never equal. -/
protected def beq (a b : Scope) : Bool :=
  a.size == b.size && a.toList.all fun (name, value) => (b.lookup? name).any (value == ·)

instance : BEq Scope := ⟨Scope.beq⟩

/-! ## What a name is bound to -/

@[simp] theorem lookup?_empty (name : String) : empty.lookup? name = none := by
  simp [lookup?, empty]

theorem lookup?_define (scope : Scope) (name other : String) (value : Value) :
    (scope.define name value).lookup? other =
      if name = other then some value else scope.lookup? other := by
  simp [lookup?, define, Std.ExtTreeMap.getElem?_insert]

theorem contains_eq_isSome (scope : Scope) (name : String) :
    scope.contains name = (scope.lookup? name).isSome := by
  simp [contains, lookup?]

end Scope

end ArrowExpr
