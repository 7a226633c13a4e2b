import ArrowExpr.Proofs.Effects
/-!
# What an expression does not mention it does not see

`Node.variables` are the names that an expression refers to outside arrow bodies. Where no function
of the engine looks at the caller's scope, two scopes that agree on these names make no difference
at all: the evaluation has the same outcome, does the same things in the same order and leaves the
same world, so nothing that a host does afterwards can tell them apart
(`evaluate_of_agreeing_scopes`).

An arrow function is where a scope is dropped: what it evaluates to has nothing of the scope in it.
-/

namespace ArrowExpr

open EvalM

mutual

/-- The names that the expression refers to outside arrow bodies. -/
def Node.variables : Node → List String
  | .constant _ => []
  | .name x => [x]
  | .unary _ operand => operand.variables
  | .binary _ left right => left.variables ++ right.variables
  | .call _ arguments => Node.variablesAll arguments
  | .list items => Node.variablesAll items
  | .arrow _ _ => []

/-- The names that several expressions refer to outside arrow bodies. -/
def Node.variablesAll : List Node → List String
  | [] => []
  | node :: rest => node.variables ++ Node.variablesAll rest

end

theorem Node.mem_variablesAll {nodes : List Node} {node : Node} (there : node ∈ nodes) {x : String}
    (mentioned : x ∈ node.variables) : x ∈ Node.variablesAll nodes := by
  induction there with
  | head rest => exact List.mem_append_left _ mentioned
  | tail other _ ih => exact List.mem_append_right _ ih

/-- Both scopes have the same binding for each of the names, or both have none. -/
def Scope.AgreeOn (scope other : Scope) (names : List String) : Prop :=
  ∀ name ∈ names, scope.lookup? name = other.lookup? name

/-- The function does the same whatever the caller's scope is. -/
def HostFunction.IgnoresScope (function : HostFunction) : Prop :=
  ∀ scope other arguments, function.evaluate scope arguments = function.evaluate other arguments

/-- A plain function does not even get to see the scope. -/
theorem HostFunction.plain_ignoresScope (name : String) (evaluate : List Value → Action) :
    (HostFunction.plain name evaluate).IgnoresScope :=
  fun _ _ _ => rfl

theorem Builtins.ignoresScope {function : HostFunction} (builtin : function ∈ Builtins.all) :
    function.IgnoresScope := by
  simp only [Builtins.all, List.mem_cons, List.not_mem_nil, or_false] at builtin
  rcases builtin with rfl | rfl | rfl
  · exact fun _ _ _ => rfl
  · exact fun _ _ _ => rfl
  · exact fun _ _ _ => rfl

/-- A name that is not among them makes no difference, whether it is bound or not. -/
theorem Scope.agreeOn_define {names : List String} {name : String} (absent : name ∉ names)
    (scope : Scope) (value : Value) : scope.AgreeOn (scope.define name value) names := by
  intro other there
  have different : name ≠ other := fun same => absent (same ▸ there)
  rw [Scope.lookup?_define, if_neg different]

/-! ## Engines that do not look at the caller's scope -/

/-- The functions of the engine ignore the scope, those that are there and those that are registered
among the effects. -/
structure Heedless (engine : EngineId) (world : World) (effects : List Effect) : Prop where
  present : ∀ name function, (world.registry engine).find? name = some function →
    function.IgnoresScope
  registered : ∀ function, Effect.register engine function ∈ effects → function.IgnoresScope

namespace Heedless

variable {engine : EngineId} {world : World} {effects others : List Effect}

theorem left (heedless : Heedless engine world (effects ++ others)) :
    Heedless engine world effects :=
  ⟨heedless.present, fun function there =>
    heedless.registered function (List.mem_append_left _ there)⟩

/-- After the first effects, it holds for the rest. -/
theorem right (heedless : Heedless engine world (effects ++ others)) :
    Heedless engine (world.after effects) others := by
  refine ⟨fun name function found => ?_, fun function there =>
    heedless.registered function (List.mem_append_right _ there)⟩
  rcases World.registered_or_before found with registered | before
  · exact heedless.registered function (List.mem_append_left _ registered)
  · exact heedless.present name function before

end Heedless

/-! ## Two runs that do the same -/

/-- If the engine does not look at the caller's scope, then both runs do the same from the world on:
they end alike, and they have the same effects. -/
def SameUnder {α : Type} (engine : EngineId) (world : World) (run : EvalM α) (effects : Effects)
    (other : EvalM α) (otherEffects : Effects) : Prop :=
  Heedless engine world (effects world) →
    ExceptT.run run world = ExceptT.run other world ∧ effects world = otherEffects world

namespace SameUnder

variable {α β : Type} {engine : EngineId} {world : World}

theorem refl (run : EvalM α) (effects : Effects) :
    SameUnder engine world run effects run effects :=
  fun _ => ⟨rfl, rfl⟩

theorem bind {first second : EvalM α} {effects others : Effects} {f g : α → EvalM β}
    {next nextOthers : α → Effects} (accounted : Accounted first effects)
    (same : SameUnder engine world first effects second others)
    (nextSame : ∀ a middle, Yields first world (.ok a) middle →
      SameUnder engine middle (f a) (next a) (g a) (nextOthers a)) :
    SameUnder engine world (first >>= f) (Effects.bind first effects next) (second >>= g)
      (Effects.bind second others nextOthers) := by
  intro heedless
  obtain ⟨runs, effectsAlike⟩ := same heedless.left
  rw [run_bind, run_bind, ← runs]
  cases ran : ExceptT.run first world with
  | none =>
    rw [Effects.bind_of_stuck ran, Effects.bind_of_stuck (runs ▸ ran)]
    exact ⟨rfl, effectsAlike⟩
  | some result =>
    obtain ⟨outcome, middle⟩ := result
    cases outcome with
    | ok a =>
      have ranToo : Yields second world (.ok a) middle := runs.symm.trans ran
      rw [Effects.bind_of_yields ran] at heedless ⊢
      rw [Effects.bind_of_yields ranToo, ← effectsAlike]
      have rest := heedless.right
      rw [← accounted world _ middle ran] at rest
      obtain ⟨nextRuns, nextAlike⟩ := nextSame a middle ran rest
      exact ⟨nextRuns, congrArg (effects world ++ ·) nextAlike⟩
    | error error =>
      rw [Effects.bind_of_error ran, Effects.bind_of_error (runs ▸ ran)]
      exact ⟨rfl, effectsAlike⟩

/-- Nothing is done next. -/
theorem then_quiet {first second : EvalM α} {effects others : Effects} (f : α → EvalM β)
    (same : SameUnder engine world first effects second others) :
    SameUnder engine world (first >>= f) effects (second >>= f) others := by
  intro heedless
  obtain ⟨runs, effectsAlike⟩ := same heedless
  rw [run_bind, run_bind, runs]
  exact ⟨rfl, effectsAlike⟩

theorem mapM {f g : α → EvalM β} {effects others : α → Effects} (items : List α)
    (accounted : ∀ item, Accounted (f item) (effects item))
    (same : ∀ item ∈ items, ∀ world,
      SameUnder engine world (f item) (effects item) (g item) (others item)) :
    SameUnder engine world (items.mapM f) (Effects.each f effects items) (items.mapM g)
      (Effects.each g others items) := by
  induction items generalizing world with
  | nil => exact refl _ _
  | cons item rest ih =>
    rw [List.forall_mem_cons] at same
    rw [List.mapM_cons, List.mapM_cons]
    exact (same.1 world).bind (accounted item) fun b middle _ => (ih same.2).then_quiet _

end SameUnder

/-! ## The scope makes no difference -/

/-- Evaluations inside do the same in scopes that agree on what they refer to. -/
def Interpreter.ScopeBlind (inner : Interpreter) (account : Account) (engine : EngineId) : Prop :=
  ∀ scope other node, scope.AgreeOn other node.variables → ∀ world,
    SameUnder engine world (inner.evaluate engine scope node) (account.evaluate engine scope node)
      (inner.evaluate engine other node) (account.evaluate engine other node)

section ScopeBlind

variable {inner : Interpreter} {account : Account} {engine : EngineId} {scope other : Scope}
  {world : World}

/-- Several expressions, one after the other. -/
theorem sameUnder_mapM (tells : account.Tells inner) (blind : inner.ScopeBlind account engine)
    {nodes : List Node} (agree : scope.AgreeOn other (Node.variablesAll nodes)) :
    SameUnder engine world (nodes.mapM (inner.evaluate engine scope))
      (Effects.each (inner.evaluate engine scope) (account.evaluate engine scope) nodes)
      (nodes.mapM (inner.evaluate engine other))
      (Effects.each (inner.evaluate engine other) (account.evaluate engine other) nodes) :=
  .mapM nodes (tells.evaluate engine scope) fun node there =>
    blind scope other node fun name mentioned => agree name (Node.mem_variablesAll there mentioned)

/-- The scope is passed on to a function, which ignores it. -/
theorem sameUnder_run {function : HostFunction} (ignores : function.IgnoresScope)
    (arguments : List Value) :
    SameUnder engine world (inner.run function scope arguments)
      (inner.runEffects account function scope arguments) (inner.run function other arguments)
      (inner.runEffects account function other arguments) := by
  have same := ignores scope other arguments
  rw [Interpreter.run, Interpreter.run, Interpreter.runEffects, Interpreter.runEffects, same]
  exact .refl _ _

theorem sameUnder_evaluateNode (tells : account.Tells inner)
    (blind : inner.ScopeBlind account engine) {node : Node}
    (agree : scope.AgreeOn other node.variables) :
    SameUnder engine world (inner.evaluateNode engine scope node)
      (inner.nodeEffects account engine scope node) (inner.evaluateNode engine other node)
      (inner.nodeEffects account engine other node) := by
  cases node with
  | constant literal => exact .refl _ _
  | name x =>
    have same : scope.lookup? x = other.lookup? x := agree x List.mem_cons_self
    rw [Interpreter.evaluateNode, Interpreter.evaluateNode, same]
    exact .refl _ _
  | unary op operand => exact (blind scope other operand agree world).then_quiet _
  | binary op left right =>
    have leftAgree : scope.AgreeOn other left.variables :=
      fun name there => agree name (List.mem_append_left _ there)
    have rightAgree : scope.AgreeOn other right.variables :=
      fun name there => agree name (List.mem_append_right _ there)
    refine (blind scope other left leftAgree world).bind (tells.evaluate engine scope left) ?_
    intro value middle _
    split
    · exact .refl _ _
    · exact (blind scope other right rightAgree middle).then_quiet _
  | call name arguments =>
    rw [Interpreter.evaluateNode, Interpreter.evaluateNode, Interpreter.nodeEffects,
      Interpreter.nodeEffects]
    -- the function that is found is one of those at the start
    intro heedless
    refine SameUnder.bind (.ask _) (.refl _ _) ?_ heedless
    intro registry middle asked
    cases asked
    cases found : (world.registry engine).find? name with
    | none => exact .refl _ _
    | some function =>
      have ignores := heedless.present name function found
      exact (sameUnder_mapM tells blind agree).bind (.mapM arguments (tells.evaluate engine scope))
        fun values _ _ => sameUnder_run ignores values
  | list items => exact (sameUnder_mapM tells blind agree).then_quiet _
  | arrow parameters body =>
    -- the callable is made of the parameters and the body alone
    cases body with
    | none => exact .refl _ _
    | some body => exact .refl _ _

theorem scopeBlind_ofDepth (engine : EngineId) (depth : Nat) :
    (Interpreter.ofDepth depth).ScopeBlind (.ofDepth depth) engine := by
  induction depth with
  | zero => exact fun scope other node agree world => .refl _ _
  | succ depth ih =>
    exact fun scope other node agree world =>
      sameUnder_evaluateNode (Account.ofDepth_tells depth) ih agree

end ScopeBlind

/-- Noninterference of bindings. If no function of the engine looks at the caller's scope, then an
expression does the same in any two scopes that agree on the names that it refers to outside arrow
bodies, at every depth:

* both evaluations end in the same outcome and leave the same world, or none of them ends;
* they have the same effects in the same order, among them the functions that are started and what
  is registered;
* whatever is done next with the outcome, such as calls of callables in it, ends alike. -/
theorem evaluate_of_agreeing_scopes {engine : EngineId} {depth : Nat} {scope other : Scope}
    {node : Node} {world : World} (agree : scope.AgreeOn other node.variables)
    (heedless : Heedless engine world (evaluationEffects depth engine scope node world)) :
    ExceptT.run (engine.evaluate depth scope node) world =
      ExceptT.run (engine.evaluate depth other node) world ∧
    evaluationEffects depth engine scope node world =
      evaluationEffects depth engine other node world ∧
    ∀ later : Outcome → EvalM Value,
      ExceptT.run (attempt (engine.evaluate depth scope node) >>= later) world =
        ExceptT.run (attempt (engine.evaluate depth other node) >>= later) world := by
  obtain ⟨runs, effects⟩ := scopeBlind_ofDepth engine depth scope other node agree world heedless
  have runsToo : ExceptT.run (engine.evaluate depth scope node) world =
      ExceptT.run (engine.evaluate depth other node) world := runs
  refine ⟨runsToo, effects, fun later => ?_⟩
  rw [run_bind, run_bind, run_attempt, run_attempt, runsToo]

/-- `[install(), f(x), () -> {y}]` where `install` registers `f`, with `y` unbound and bound. -/
theorem evaluate_of_agreeing_scopes_install :
    let f : HostFunction := .plain "f" fun arguments => .succeed (.list arguments)
    let install : HostFunction := .plain "install" fun _ =>
      .register ⟨0⟩ f.name f.compile f.evaluate fun replaces => .succeed (.bool replaces)
    let world : World := ((Builder.empty.function install).build .empty).2
    let node : Node :=
      .list [.call "install" [], .call "f" [.name "x"], .arrow [] (some (.name "y"))]
    let scope : Scope := .ofList [("x", .int 1)]
    ExceptT.run (EngineId.evaluate ⟨0⟩ 3 scope node) world =
      ExceptT.run (EngineId.evaluate ⟨0⟩ 3 (scope.define "y" (.int 2)) node) world := by
  intro f install world node scope
  have unmentioned : "y" ∉ node.variables := by decide
  have effects : evaluationEffects 3 ⟨0⟩ scope node world =
      [.start (.function install []), .register ⟨0⟩ f, .start (.function f [.int 1]),
        .construct (.arrow ⟨0⟩ [] (.name "y"))] := by
    subst scope node world install f
    rfl
  have heedless : Heedless ⟨0⟩ world (evaluationEffects 3 ⟨0⟩ scope node world) := by
    refine ⟨fun name function found => ?_, fun function registered => ?_⟩
    · rcases Registry.find?_insertAll found with ⟨there, _⟩ | builtin
      · rw [List.mem_singleton.mp there]
        exact HostFunction.plain_ignoresScope _ _
      · rcases Registry.find?_insertAll builtin with ⟨there, _⟩ | nowhere
        · exact Builtins.ignoresScope there
        · rw [Registry.find?_empty] at nowhere
          cases nowhere
    · simp only [effects, List.mem_cons, List.not_mem_nil, or_false, reduceCtorEq, false_or,
        Effect.register.injEq, true_and] at registered
      rw [registered]
      exact HostFunction.plain_ignoresScope _ _
  exact (evaluate_of_agreeing_scopes (Scope.agreeOn_define unmentioned scope _) heedless).1

end ArrowExpr
