import ArrowExpr.Session.Step
/-!
Sessions: a host that builds engines, registers functions, evaluates expressions and keeps the
results for later, step by step.
-/

namespace ArrowExpr

/-- Things by name. -/
abbrev NameMap (α : Type) := Std.ExtTreeMap String α

/-- What a host holds between two steps. -/
structure Session where
  world : World
  engines : NameMap EngineId
  scopes : NameMap Scope
  /-- The writers, each with the engine whose functions it uses. -/
  writers : NameMap (EngineId × Writer)
  stored : NameMap Value

namespace Session

/-- A host that has nothing yet. -/
def empty : Session := ⟨.empty, ∅, ∅, ∅, ∅⟩

/-- A step of a session, or the reply if it cannot be made; then nothing changes. -/
abbrev SessionM := StateT Session (Except Reply)

/-- What must be there. -/
def need {α : Type} : Option α → SessionM α
  | some a => pure a
  | none => throw .absent

/-- The engine of a name. -/
def engineOf (name : String) : SessionM EngineId := do need (← get).engines[name]?

/-- The scope of a name. -/
def scopeOf (name : String) : SessionM Scope := do need (← get).scopes[name]?

/-- The stored callable of a name. -/
def callableOf (name : String) : SessionM CallableId := do
  need ((← get).stored[name]?.bind (·.callable?))

/-- The functions of an engine as they are now. -/
def registryOf (engine : EngineId) : SessionM Registry := return (← get).world.registry engine

/-- Changes the world. -/
def changeWorld {α : Type} (step : World → α × World) : SessionM α := fun session =>
  let (a, world) := step session.world
  pure (a, { session with world })

/-- Makes what a recipe says. -/
def make {α : Type} (build : (String → Option Value) → BuildM α) : SessionM α := fun session =>
  match build (fun name => session.stored[name]?) session.world with
  | some (a, world) => pure (a, { session with world })
  | none => throw .absent

/-- Runs an evaluation; its error is an outcome like any other. -/
def runEval (run : EvalM Value) : SessionM Outcome := fun session =>
  match ExceptT.run run session.world with
  | some (outcome, world) => pure (outcome, { session with world })
  | none => throw .exhausted

/-- Stores a value. -/
def store (name : String) (value : Value) : SessionM Unit :=
  modify fun session => { session with stored := session.stored.insert name value }

/-- The reply of a result, which is stored if it is a value and has a name. -/
def keepResult (keep : Option String) (outcome : Outcome) : SessionM Reply := do
  match keep, outcome with
  | some name, .ok value => store name value
  | _, _ => pure ()
  return .result outcome

/-- Gives a name to an engine. -/
def putEngine (name : String) (engine : EngineId) : SessionM Unit :=
  modify fun session => { session with engines := session.engines.insert name engine }

/-- Gives a name to a scope. -/
def putScope (name : String) (scope : Scope) : SessionM Reply := do
  modify fun session => { session with scopes := session.scopes.insert name scope }
  return .size scope.size

/-- Changes a writer with the functions of its engine. -/
def changeWriter {α : Type} (name : String) (change : Registry → Writer → α × Writer) :
    SessionM (α × Writer) := do
  let (engine, writer) ← need (← get).writers[name]?
  let (a, writer) := change (← registryOf engine) writer
  modify fun session => { session with writers := session.writers.insert name (engine, writer) }
  return (a, writer)

/-- Writes, and replies with all that is written. -/
def writing (name : String) (write : Registry → Writer → Writer) : SessionM Reply := do
  let ((), writer) ← changeWriter name fun registry writer => ((), write registry writer)
  return .source writer.source

/-- Makes a step; evaluations and calls may be nested in each other `depth` times. -/
def perform (depth : Nat) : Step → SessionM Reply
  | .engine name builtins functions => do
    let engine ← make fun stored => Builder.make stored builtins functions
    putEngine name engine
    return .names (← registryOf engine).names
  | .cloneEngine source name => do
    let engine ← engineOf source
    putEngine name engine
    return .same ((← engineOf name) == engine)
  | .sameRegistry a b => do return .same ((← engineOf a) == (← engineOf b))
  | .register name recipe => do
    let engine ← engineOf name
    let function ← make fun stored => recipe.build stored engine
    let _ ← changeWorld (engine.register function)
    return .names (← registryOf engine).names
  | .replace name recipe => do
    let engine ← engineOf name
    let function ← make fun stored => recipe.build stored engine
    let replaced ← changeWorld (engine.register function)
    return .replaced (replaced.map (·.compile ["$a", "$b"])) (← registryOf engine).names
  | .extend name recipes => do
    let engine ← engineOf name
    let functions ← make fun stored => recipes.mapM (·.build stored engine)
    changeWorld fun world => ((), engine.extend functions world)
    return .names (← registryOf engine).names
  | .registry name asked => do
    let registry ← registryOf (← engineOf name)
    return .registry registry.size (asked.map registry.contains) registry.names
  | .compileFunction engine name arguments => do
    let function ← need ((← registryOf (← engineOf engine)).find? name)
    return .code (function.compile arguments)
  | .runFunction engine scope name arguments keep => do
    let engine ← engineOf engine
    let scope ← scopeOf scope
    let function ← need ((← registryOf engine).find? name)
    let arguments ← make fun stored => ValueRecipe.buildAll stored engine arguments
    keepResult keep (← runEval ((Interpreter.ofDepth depth).run function scope arguments))
  | .scope engine name bindings => do
    let engine ← engineOf engine
    putScope name (← make fun stored => Scope.build stored engine bindings)
  | .copyScope source name => do putScope name (← scopeOf source)
  | .define engine scope name recipe => do
    let engine ← engineOf engine
    let bindings ← scopeOf scope
    let value ← make fun stored => recipe.build stored engine
    putScope scope (bindings.define name value)
  | .lookup scope name => do return .found ((← scopeOf scope).lookup? name)
  | .bindings scope => do return .bindings (← scopeOf scope).toList
  | .sameScope a b => do return .equal ((← scopeOf a) == (← scopeOf b))
  | .evaluate engine scope node keep => do
    let engine ← engineOf engine
    let scope ← scopeOf scope
    keepResult keep (← runEval (engine.evaluate depth scope node))
  | .set engine recipe keep => do
    let engine ← engineOf engine
    let value ← make fun stored => recipe.build stored engine
    keepResult (some keep) (.ok value)
  | .call engine callable arguments keep => do
    let engine ← engineOf engine
    let id ← callableOf callable
    let arguments ← make fun stored => ValueRecipe.buildAll stored engine arguments
    keepResult keep (← runEval (callAt depth id arguments))
  | .invoke engine name arguments => do
    let engine ← engineOf engine
    let value ← need (← get).stored[name]?
    let arguments ← make fun stored => ValueRecipe.buildAll stored engine arguments
    return .result (value.invoke arguments)
  | .sameCallable a b => do
    let first ← callableOf a
    let second ← callableOf b
    return .sameCallable (first == second) (Value.callable first == Value.callable second)
  | .rewrap callable keep => do
    let id ← callableOf callable
    keepResult keep (.ok (.callable id))
  | .compile engine node => do
    let engine ← engineOf engine
    return .code (engine.compile node (← get).world)
  | .writer engine name => do
    let engine ← engineOf engine
    modify fun session =>
      { session with writers := session.writers.insert name (engine, .empty) }
    return .source Writer.empty.source
  | .writeRaw name text => writing name fun _ writer => writer.raw text
  | .writeString name text => writing name fun _ writer => writer.string text
  | .writeLiteral name literal => writing name fun _ writer => writer.literal literal
  | .writeNode name node => writing name fun registry writer => Writer.node registry node writer
  | .writeAside name node => do
    let (text, writer) ← changeWriter name fun registry writer => writer.sub registry node
    return .aside text writer.source
  | .resetWriter name => writing name fun _ writer => writer.reset
  | .finish name => do
    let (_, writer) ← need (← get).writers[name]?
    modify fun session => { session with writers := session.writers.erase name }
    return .source writer.source

/-- The reply to a step, and the session after it. -/
def step (depth : Nat) (s : Step) (session : Session) : Reply × Session :=
  match (perform depth s).run session with
  | .ok (reply, session) => (reply, session)
  | .error reply => (reply, session)

/-- The replies to several steps. -/
def run (depth : Nat) : List Step → Session → List Reply × Session
  | [], session => ([], session)
  | first :: rest, session =>
    let (reply, session) := session.step depth first
    let (replies, session) := run depth rest session
    (reply :: replies, session)

/-- The name of the engine, the scope and the writer that a session starts with. -/
def mainName : String := "main"

/-- A session with an engine, a scope and a writer. -/
def start (builtins : Bool) (functions : List FunctionRecipe)
    (bindings : List (String × ValueRecipe)) : Session :=
  (run 0 [.engine mainName builtins functions, .scope mainName mainName bindings,
    .writer mainName mainName] empty).2

end Session

end ArrowExpr
