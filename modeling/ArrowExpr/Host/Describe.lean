import ArrowExpr.Host.Registry
/-!
Descriptions of names, functions and registries for diagnostics. They show names as they are,
without any escape.
-/

namespace ArrowExpr

/-- The description of a name. -/
def describeName (name : String) : String := "Name(" ++ name ++ ")"

/-- The description of a function, which shows only its name. -/
def HostFunction.describe (function : HostFunction) : String :=
  "ExpressionFunction \x7b name: " ++ describeName function.name ++ ", .. \x7d"

/-- The description of a registry, with its functions in the order of their names. -/
def Registry.describe (registry : Registry) : String :=
  let entries := registry.functions.toList.map fun (name, function) =>
    describeName name ++ ": " ++ function.describe
  "SharedMutableRegistry(FunctionRegistry \x7b functions: \x7b" ++ commaSeparated entries ++
    "\x7d \x7d)"

/-- Names in order, with repetitions. -/
def sortedNames (names : List String) : List String := names.mergeSort (· ≤ ·)

end ArrowExpr
