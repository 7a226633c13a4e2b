import ArrowExpr.Session.Recipe
/-!
The steps of a session and the replies to them. Engines, scopes, writers and stored values go by
names that the host chooses.
-/

namespace ArrowExpr

/-- One thing that a host does. Where a step makes values or functions, they belong to its
engine. -/
inductive Step where
  /-- Builds an engine, in place of an earlier one of that name. -/
  | engine (name : String) (builtins : Bool) (functions : List FunctionRecipe)
  /-- Clones an engine. -/
  | cloneEngine (source name : String)
  /-- Whether two engines share their registry. -/
  | sameRegistry (a b : String)
  /-- Registers a function. -/
  | register (engine : String) (function : FunctionRecipe)
  /-- Registers a function and says which one it replaces. -/
  | replace (engine : String) (function : FunctionRecipe)
  /-- Registers several functions. -/
  | extend (engine : String) (functions : List FunctionRecipe)
  /-- Looks at the registry. -/
  | registry (engine : String) (asked : List String)
  /-- The code of a call of a registered function. -/
  | compileFunction (engine function : String) (arguments : List String)
  /-- Runs a registered function. -/
  | runFunction (engine scope function : String) (arguments : List ValueRecipe)
      (keep : Option String)
  /-- Makes a scope. -/
  | scope (engine name : String) (bindings : List (String × ValueRecipe))
  /-- Copies a scope. -/
  | copyScope (source name : String)
  /-- Binds a name in a scope. -/
  | define (engine scope name : String) (value : ValueRecipe)
  /-- Looks a name up. -/
  | lookup (scope name : String)
  /-- All bindings of a scope. -/
  | bindings (scope : String)
  /-- Whether two scopes are equal. -/
  | sameScope (a b : String)
  /-- Evaluates an expression. -/
  | evaluate (engine scope : String) (node : Node) (keep : Option String)
  /-- Makes a value and stores it. -/
  | set (engine : String) (value : ValueRecipe) (keep : String)
  /-- Calls a stored callable. -/
  | call (engine callable : String) (arguments : List ValueRecipe) (keep : Option String)
  /-- Invokes a stored value as such. -/
  | invoke (engine value : String) (arguments : List ValueRecipe)
  /-- Whether two stored callables are the same. -/
  | sameCallable (a b : String)
  /-- Wraps the callback of a stored callable once more. -/
  | rewrap (callable : String) (keep : Option String)
  /-- The target code of an expression. -/
  | compile (engine : String) (node : Node)
  /-- A new writer. -/
  | writer (engine name : String)
  | writeRaw (writer text : String)
  | writeString (writer text : String)
  | writeLiteral (writer : String) (literal : Literal)
  | writeNode (writer : String) (node : Node)
  /-- Writes an expression aside. -/
  | writeAside (writer : String) (node : Node)
  | resetWriter (writer : String)
  /-- Takes the source of a writer, which is then gone. -/
  | finish (writer : String)

/-- The reply to a step. -/
inductive Reply where
  /-- The step names something that is not there, or not of the right kind. -/
  | absent
  /-- The depth did not suffice. -/
  | exhausted
  | names (names : List String)
  | same (same : Bool)
  | replaced (code : Option String) (names : List String)
  | registry (size : Nat) (contains : List Bool) (names : List String)
  | code (code : String)
  | result (outcome : Outcome)
  | size (size : Nat)
  | found (value : Option Value)
  | bindings (bindings : List (String × Value))
  | equal (equal : Bool)
  | sameCallable (same equal : Bool)
  | source (source : String)
  | aside (text source : String)

end ArrowExpr
