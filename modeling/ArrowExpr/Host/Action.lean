import ArrowExpr.Operation
import ArrowExpr.Scope
/-!
What host code does when it is called from an expression, as data.

Host code is arbitrary, but during a run it reaches the engine only in a few ways: it calls
callables, evaluates expressions, wraps callbacks, registers functions and keeps values of its own.
An `Action` is a run of host code seen as the sequence of these steps, each with what follows for
every answer. So host code is an ordinary value that can be stored in a registry, performed, and
reasoned about.

Two things are taken for granted. A compiler (`HostFunction.compile`) depends on the texts of the
arguments alone and changes nothing. And there are no other steps in a run: host code cannot look
into a registry, compile an expression, or build or clone an engine while an expression is being
evaluated. Between runs a host may do all of that.
-/

namespace ArrowExpr

/-- A function registry, shared by every engine that was cloned from the one it was built for. -/
structure EngineId where
  index : Nat
deriving DecidableEq, Repr

/-- A place where host code keeps a value from one call to the next. -/
structure CellId where
  index : Nat
deriving DecidableEq, Repr

/-- A run of host code, as the steps it takes. These are all the steps there are. So no run looks
into a registry, apart from what it learns when it registers a function, and none compiles or
builds engines. -/
inductive Action where
  /-- The run is over. -/
  | done (outcome : Outcome)
  /-- Calls a callable with these arguments. -/
  | call (id : CallableId) (arguments : List Value) (next : Outcome → Action)
  /-- Evaluates an expression with the functions of an engine. -/
  | evaluate (engine : EngineId) (scope : Scope) (node : Node) (next : Outcome → Action)
  /-- Makes a callable of a callback. -/
  | wrap (callback : List Value → Action) (next : CallableId → Action)
  /-- Registers a function, given by its name, its compiler and its evaluator; the answer says
  whether it replaces another one. -/
  | register (engine : EngineId) (name : String) (compile : List String → String)
      (evaluate : Scope → List Value → Action) (next : Bool → Action)
  /-- Reads a cell. -/
  | load (cell : CellId) (next : Value → Action)
  /-- Writes a cell. -/
  | store (cell : CellId) (value : Value) (next : Action)

namespace Action

/-- Ends with a value. -/
def succeed (value : Value) : Action := done (.ok value)

/-- Ends with an error. -/
def fail (error : EvalError) : Action := done (.error error)

/-- Goes on with the value of an outcome, and ends with its error. -/
def andThen (next : Value → Action) : Outcome → Action
  | .ok value => next value
  | .error error => fail error

end Action

/-- A function that expressions can call by name. -/
structure HostFunction where
  name : String
  /-- The target code of a call. It is taken to be a function of the target code of the arguments
  alone: to compile a call neither reads nor changes anything else. -/
  compile : List String → String
  /-- What a call does, given the caller's scope and the values of the arguments. -/
  evaluate : Scope → List Value → Action

namespace HostFunction

/-- The target code of a plain call: `name(a, b)`. -/
def plainCode (name : String) (arguments : List String) : String :=
  name ++ "(" ++ commaSeparated arguments ++ ")"

/-- A function that does not see the caller's scope and compiles to a plain call of its name. -/
def plain (name : String) (evaluate : List Value → Action) : HostFunction where
  name
  compile := plainCode name
  evaluate _ arguments := evaluate arguments

end HostFunction

end ArrowExpr
