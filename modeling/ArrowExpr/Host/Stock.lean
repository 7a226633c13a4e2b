import ArrowExpr.Host.Action
/-!
Host functions for common needs, each given as what it does with the caller's scope and the
arguments.
-/

namespace ArrowExpr.Stock

/-- What a function does, given the caller's scope and the values of the arguments. -/
abbrev Behaviour := Scope → List Value → Action

/-- The list of the arguments. -/
def args : Behaviour := fun _ arguments => .succeed (.list arguments)

/-- The number of arguments. -/
def count : Behaviour := fun _ arguments => .succeed (.ofCount arguments.length)

/-- The same value each time. -/
def const (value : Value) : Behaviour := fun _ _ => .succeed value

/-- The length of a list, or of a string in UTF-8 bytes. -/
def len : Behaviour := fun _ arguments =>
  match arguments with
  | [.list items] => .succeed (.ofCount items.length)
  | [.str s] => .succeed (.ofCount s.utf8ByteSize)
  | _ => .fail (.custom "len expects a list or string")

/-- Adds the arguments, which must be integers, to a total. -/
def sumFrom (total : Value) : List Value → Outcome
  | [] => .ok total
  | .int n :: rest =>
    match BinaryOp.add.apply total (.int n) with
    | .ok total => sumFrom total rest
    | .error error => .error error
  | other :: _ => .error (.custom ("not an int: " ++ other.display))

/-- The sum of the arguments, which must be integers. -/
def sum : Behaviour := fun _ arguments => .done (sumFrom (.int 0) arguments)

/-- Calls its first argument with the others, if it is a callable; else null. -/
def apply : Behaviour := fun _ arguments =>
  match arguments with
  | .callable id :: rest => .call id rest .done
  | _ => .succeed .null

/-- Invokes its first argument as such, which fails; null without arguments. -/
def invoke : Behaviour := fun _ arguments =>
  match arguments with
  | first :: rest => .done (first.invoke rest)
  | [] => .succeed .null

/-- Calls the second argument if the first is truthy and the third if it is not, with the others. -/
def cond : Behaviour := fun _ arguments =>
  match arguments with
  | condition :: .callable yes :: .callable no :: rest =>
    .call (if condition.isTruthy then yes else no) rest .done
  | _ => .fail (.custom "cond expects a condition and two callables")

/-- Calls the callable with what it gave so far and each item in turn. -/
def foldFrom (id : CallableId) (total : Value) : List Value → Action
  | [] => .succeed total
  | item :: rest => .call id [total, item] (Action.andThen fun total => foldFrom id total rest)

/-- Folds a list with a callable from a start value. -/
def fold : Behaviour := fun _ arguments =>
  match arguments with
  | [.list items, .callable id, start] => foldFrom id start items
  | _ => .fail (.custom "fold expects a list, a callable and a start value")

/-- The value that the caller has for a name. -/
def lookup : Behaviour := fun scope arguments =>
  match arguments with
  | [.str name] =>
    match scope.lookup? name with
    | some value => .succeed value
    | none => .fail (.undefinedVariable name)
  | _ => .fail (.custom "lookup expects a name")

/-- The names that the caller has, in order. -/
def scope : Behaviour := fun scope _ => .succeed (.list (scope.names.map .str))

/-- Fails. -/
def raise (error : EvalError) : Behaviour := fun _ _ => .fail error

/-- Counts its calls in a cell: 1, 2, 3 and so on. -/
def counter (cell : CellId) : Behaviour := fun _ _ =>
  .load cell fun value =>
    let next :=
      match value with
      | .int n => Value.int (n + 1)
      | _ => .int 1
    .store cell next (.succeed next)

/-- Evaluates an arrow function with the functions of an engine and calls it with the arguments. -/
def arrow (engine : EngineId) (parameters : List String) (body : Option Node) : Behaviour :=
  fun scope arguments =>
    .evaluate engine scope (.arrow parameters body) (Action.andThen fun value =>
      match value with
      | .callable id => .call id arguments .done
      | other => .fail (.notCallable other.typeName))

/-- Registers a function in an engine; true if it replaces another one. -/
def register (engine : EngineId) (function : HostFunction) : Behaviour := fun _ _ =>
  .register engine function.name function.compile function.evaluate fun replaces =>
    .succeed (.bool replaces)

/-- Target code made of a template, in which each percent sign stands for the arguments. -/
def templateCode (template : String) (arguments : List String) : String :=
  let joined := commaSeparated arguments
  String.ofList (template.toList.flatMap fun c => if c = '%' then joined.toList else [c])

end ArrowExpr.Stock
