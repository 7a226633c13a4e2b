import ArrowExpr.Engine
import ArrowExpr.Host.Stock
/-!
Recipes for values and host functions: what a host says when it asks for one. To build a recipe can
make closures and cells, so each building gives callables and counters of its own.
-/

namespace ArrowExpr

mutual

/-- How to make a value. -/
inductive ValueRecipe where
  | literal (literal : Literal)
  | list (items : List ValueRecipe)
  /-- What an arrow function evaluates to. -/
  | arrow (parameters : List String) (body : Option Node)
  /-- A new callable of host code, which never has a caller's scope. -/
  | host (host : HostRecipe)
  /-- A value that was stored before. -/
  | stored (name : String)

/-- How to make host code. -/
inductive HostRecipe where
  | args
  | count
  | const (value : ValueRecipe)
  | len
  | sum
  | apply
  | invoke
  | cond
  | fold
  | lookup
  | scope
  | raise (error : EvalError)
  | counter
  | arrow (parameters : List String) (body : Option Node)
  /-- Registers a function, which is made once. -/
  | register (name : String) (code : Option String) (host : HostRecipe)

end

/-- How to make a function. -/
structure FunctionRecipe where
  name : String
  /-- A template of the target code of a call; without one it compiles to a plain call. -/
  code : Option String
  host : HostRecipe

/-- Making something, which changes the world; nothing is made of a value that was never stored. -/
abbrev BuildM := StateT World Option

/-- A function of a name, the template of its code and what it does. -/
def HostFunction.ofBehaviour (name : String) (code : Option String) (behaviour : Stock.Behaviour) :
    HostFunction where
  name
  compile :=
    match code with
    | some template => Stock.templateCode template
    | none => plainCode name
  evaluate := behaviour

section Build

variable (stored : String → Option Value) (engine : EngineId)

mutual

/-- Makes a value, with the functions of an engine. -/
def ValueRecipe.build : ValueRecipe → BuildM Value
  | .literal l => pure (.ofLiteral l)
  | .list items => do return .list (← ValueRecipe.buildAll items)
  | .arrow _ none => pure (.callable .noop)
  | .arrow parameters (some body) => fun world =>
    let (id, world) := world.addClosure (.arrow engine parameters body)
    some (.callable id, world)
  | .host recipe => do
    let behaviour ← HostRecipe.build recipe
    fun world =>
      let (id, world) := world.addClosure (.host (behaviour .empty))
      some (.callable id, world)
  | .stored name => fun world => (stored name).map fun value => (value, world)

/-- Makes several values, one after the other. -/
def ValueRecipe.buildAll : List ValueRecipe → BuildM (List Value)
  | [] => pure []
  | item :: rest => do
    let value ← ValueRecipe.build item
    let values ← ValueRecipe.buildAll rest
    return value :: values

/-- Makes host code that belongs to an engine. -/
def HostRecipe.build : HostRecipe → BuildM Stock.Behaviour
  | .args => pure Stock.args
  | .count => pure Stock.count
  | .const value => do return Stock.const (← ValueRecipe.build value)
  | .len => pure Stock.len
  | .sum => pure Stock.sum
  | .apply => pure Stock.apply
  | .invoke => pure Stock.invoke
  | .cond => pure Stock.cond
  | .fold => pure Stock.fold
  | .lookup => pure Stock.lookup
  | .scope => pure Stock.scope
  | .raise error => pure (Stock.raise error)
  | .counter => fun world =>
    let (cell, world) := world.addCell (.int 0)
    some (Stock.counter cell, world)
  | .arrow parameters body => pure (Stock.arrow engine parameters body)
  | .register name code recipe => do
    let behaviour ← HostRecipe.build recipe
    return Stock.register engine (.ofBehaviour name code behaviour)

end

/-- Makes a function that belongs to an engine. -/
def FunctionRecipe.build (recipe : FunctionRecipe) : BuildM HostFunction := do
  return .ofBehaviour recipe.name recipe.code (← recipe.host.build stored engine)

/-- Makes a scope; of a repeated name the last value stays. -/
def Scope.build (bindings : List (String × ValueRecipe)) : BuildM Scope := do
  let pairs ← bindings.mapM fun (name, recipe) => do
    return (name, ← recipe.build stored engine)
  return .ofList pairs

end Build

/-- Makes an engine. Its functions belong to it from the start. -/
def Builder.make (stored : String → Option Value) (builtins : Bool)
    (functions : List FunctionRecipe) : BuildM EngineId := do
  let engine ← fun world => some (world.addRegistry .empty)
  let functions ← functions.mapM (·.build stored engine)
  let builder := (Builder.empty.functionsOf functions).withBuiltins builtins
  modify (·.updateRegistry engine fun _ => builder.registry)
  return engine

end ArrowExpr
