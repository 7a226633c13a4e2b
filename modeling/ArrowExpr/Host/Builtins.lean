import ArrowExpr.Host.Action
/-!
The functions that every engine has unless it is built without them: `min`, `max` and `map`.
-/

namespace ArrowExpr

namespace Builtins

/-- The argument that no later argument beats: `op` says whether a candidate beats the best so far.
The first argument that cannot be compared ends the search. -/
def unbeaten (op : BinaryOp) (best : Value) : List Value → Outcome
  | [] => .ok best
  | candidate :: rest =>
    match op.apply candidate best with
    | .error error => .error error
    | .ok beats => unbeaten op (if beats.isTruthy then candidate else best) rest

/-- The extreme argument, of which there must be at least one. -/
def extreme (name : String) (op : BinaryOp) : List Value → Outcome
  | [] => .error (.custom (name ++ " expects at least 1 argument"))
  | first :: rest => unbeaten op first rest

/-- Calls the callable with each item in turn, until a call fails; `done` holds the results so far,
the latest first. -/
def mapItems (id : CallableId) (done : List Value) : List Value → Action
  | [] => .succeed (.list done.reverse)
  | item :: rest => .call id [item] (Action.andThen fun value => mapItems id (value :: done) rest)

/-- The list of what the callable gives for each item. -/
def mapAction : List Value → Action
  | [.list items, .callable id] => mapItems id [] items
  | [list, callable] =>
    .fail (.custom ("map expects a list and a callable, got " ++ list.typeName ++ " and " ++
      callable.typeName))
  | arguments => .fail (.custom ("map expects 2 arguments, got " ++ arguments.length.repr))

/-- The target function takes the callable first. -/
def mapCode : List String → String
  | [list, callable] => HostFunction.plainCode "array_map" [callable, list]
  | arguments => HostFunction.plainCode "array_map" arguments

def min : HostFunction := .plain "min" fun arguments => .done (extreme "min" .lt arguments)

def max : HostFunction := .plain "max" fun arguments => .done (extreme "max" .gt arguments)

def map : HostFunction where
  name := "map"
  compile := mapCode
  evaluate _ arguments := mapAction arguments

/-- The builtin functions. -/
def all : List HostFunction := [min, max, map]

end Builtins

end ArrowExpr
