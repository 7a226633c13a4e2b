import ArrowExpr.Proofs.Histories
import ArrowExpr.Session.Run
/-!
# Sessions are histories

A session gives names to engines, scopes and values and lets a host work with them step by step.
Whatever the steps are, and whether or not they can be made, they take the world of the session
along the history of a host (`Session.run_reaches`), so all that is proved of histories holds in
every session.

* `Builds`: to follow a recipe is to wrap callbacks, make cells and evaluate arrow functions.
* `Session.Advances`: the same for the parts of a step.
-/

namespace ArrowExpr

/-! ## Recipes -/

/-- What is made goes on with the history of the host and leaves the registries as they are. -/
def Builds {α : Type} (build : BuildM α) : Prop :=
  ∀ world a left, build world = some (a, left) →
    Reaches world left ∧ left.registries = world.registries

namespace Builds

variable {α β : Type}

theorem pure (a : α) : Builds (Pure.pure a) := by
  intro world b left built
  cases built
  exact ⟨.here, rfl⟩

theorem bind {first : BuildM α} {next : α → BuildM β} (builds : Builds first)
    (nextBuilds : ∀ a, Builds (next a)) : Builds (first >>= next) := by
  intro world b left built
  have split : (first world).bind (fun made => next made.1 made.2) = some (b, left) := built
  obtain ⟨⟨a, middle⟩, firstBuilt, nextBuilt⟩ := Option.bind_eq_some_iff.mp split
  have here := builds world a middle firstBuilt
  have there := nextBuilds a middle b left nextBuilt
  exact ⟨here.1.trans there.1, there.2.trans here.2⟩

theorem mapM {f : α → BuildM β} (builds : ∀ a, Builds (f a)) (items : List α) :
    Builds (items.mapM f) := by
  induction items with
  | nil => exact pure []
  | cons item rest ih =>
    rw [List.mapM_cons]
    exact (builds item).bind fun _ => ih.bind fun _ => pure _

end Builds

section Recipes

variable (stored : String → Option Value) (engine : EngineId)

mutual

theorem ValueRecipe.build_builds : ∀ recipe : ValueRecipe, Builds (recipe.build stored engine)
  | .literal literal => .pure _
  | .list items => (ValueRecipe.buildAll_builds items).bind fun _ => .pure _
  | .arrow _ none => .pure _
  | .arrow parameters (some body) => by
    intro world value left built
    cases built
    -- the same callable comes from an evaluation of the arrow function
    have ends : Moment.EndsWith ⟨1, .evaluate engine .empty (.arrow parameters (some body)), world⟩
        (.ok (.callable (.made world.closures.size)))
        (world.addClosure (.arrow engine parameters body)).2 := rfl
    exact ⟨.ended .here ends, rfl⟩
  | .host recipe => by
    refine (HostRecipe.build_builds recipe).bind fun behaviour => ?_
    intro world value left built
    cases built
    exact ⟨.wrap _ .here, rfl⟩
  | .stored name => by
    intro world value left built
    obtain ⟨found, _, same⟩ := Option.map_eq_some_iff.mp built
    cases same
    exact ⟨.here, rfl⟩

theorem ValueRecipe.buildAll_builds :
    ∀ recipes : List ValueRecipe, Builds (ValueRecipe.buildAll stored engine recipes)
  | [] => .pure []
  | recipe :: rest =>
    (ValueRecipe.build_builds recipe).bind fun _ =>
      (ValueRecipe.buildAll_builds rest).bind fun _ => .pure _

theorem HostRecipe.build_builds : ∀ recipe : HostRecipe, Builds (recipe.build stored engine)
  | .const value => (ValueRecipe.build_builds value).bind fun _ => .pure _
  | .counter => by
    intro world behaviour left built
    cases built
    exact ⟨.cell _ .here, rfl⟩
  | .register name code recipe => (HostRecipe.build_builds recipe).bind fun _ => .pure _
  | .args | .count | .len | .sum | .apply | .invoke | .cond | .fold | .lookup | .scope
  | .raise _ | .arrow _ _ => .pure _

end

theorem FunctionRecipe.build_builds (recipe : FunctionRecipe) :
    Builds (recipe.build stored engine) :=
  (HostRecipe.build_builds stored engine recipe.host).bind fun _ => .pure _

theorem Scope.build_builds (bindings : List (String × ValueRecipe)) :
    Builds (Scope.build stored engine bindings) := by
  refine .bind (.mapM (fun binding => ?_) bindings) fun _ => .pure _
  exact (ValueRecipe.build_builds stored engine binding.2).bind fun _ => .pure _

end Recipes

/-- An engine is made empty and is then extended, first by the builtins. -/
theorem Builder.make_reaches {stored : String → Option Value} {builtins : Bool}
    {recipes : List FunctionRecipe} {world left : World} {engine : EngineId}
    (made : Builder.make stored builtins recipes world = some (engine, left)) :
    Reaches world left := by
  -- `fresh` is the engine while its functions are made, which may already hold it
  let fresh : EngineId := ⟨world.registries.size⟩
  have split : (recipes.mapM (·.build stored fresh) (world.addRegistry .empty).2).bind
      (fun built => some (fresh, built.2.updateRegistry fresh fun _ =>
        ((Builder.empty.functionsOf built.1).withBuiltins builtins).registry)) =
      some (engine, left) := made
  obtain ⟨⟨functions, built⟩, build, ends⟩ := Option.bind_eq_some_iff.mp split
  have leftIs := congrArg Prod.snd (Option.some.inj ends)
  subst leftIs
  have begins : Reaches world (world.addRegistry .empty).2 := .build ⟨[], false⟩ .here
  have builds := Builds.mapM (FunctionRecipe.build_builds stored fresh) recipes _ functions built
    build
  have empty : built.registry fresh = .empty := by
    simp [World.registry, builds.2, World.addRegistry, fresh]
  have filled := ((begins.trans builds.1).extend fresh
    (if builtins then Builtins.all else [])).extend fresh functions
  simp only [EngineId.extend, World.updateRegistry_updateRegistry] at filled
  have same : built.updateRegistry fresh
      (fun _ => ((Builder.empty.functionsOf functions).withBuiltins builtins).registry) =
      built.updateRegistry fresh fun registry =>
        (registry.insertAll (if builtins then Builtins.all else [])).insertAll functions :=
    World.updateRegistry_congr (by rw [empty]; rfl)
  exact same ▸ filled

/-! ## Steps -/

namespace Session

/-- If this part of a step can be made, it goes on with the history of the host. -/
def Advances {α : Type} (part : SessionM α) : Prop :=
  ∀ session a after, part session = .ok (a, after) → Reaches session.world after.world

namespace Advances

variable {α β : Type}

theorem pure (a : α) : Advances (Pure.pure a) := by
  intro session b after done
  cases done
  exact .here

theorem bind {first : SessionM α} {next : α → SessionM β} (advances : Advances first)
    (nextAdvances : ∀ a, Advances (next a)) : Advances (first >>= next) := by
  intro session b after done
  have split : (first session).bind (fun made => next made.1 made.2) = .ok (b, after) := done
  cases firstDone : first session with
  | error reply =>
    rw [firstDone] at split
    cases split
  | ok made =>
    rw [firstDone] at split
    exact (advances session made.1 made.2 firstDone).trans
      (nextAdvances made.1 made.2 b after split)

theorem get : Advances MonadState.get := by
  intro session a after done
  cases done
  exact .here

theorem need (there : Option α) : Advances (Session.need there) := by
  cases there with
  | none =>
    intro session a after done
    cases done
  | some a => exact pure a

/-- What a host names and keeps is not part of the world. -/
theorem renames {change : Session → Session}
    (kept : ∀ session, (change session).world = session.world) :
    Advances (modify change) := by
  intro session a after done
  cases done
  exact kept session ▸ .here

theorem changeWorld {step : World → α × World}
    (reaches : ∀ world, Reaches world (step world).2) : Advances (Session.changeWorld step) := by
  intro session a after done
  cases done
  exact reaches session.world

theorem make {build : (String → Option Value) → BuildM α}
    (reaches : ∀ stored world a left, build stored world = some (a, left) → Reaches world left) :
    Advances (Session.make build) := by
  intro session a after done
  unfold Session.make at done
  split at done
  · next b world built =>
    cases done
    exact reaches _ _ _ _ built
  · cases done

theorem runEval (depth : Nat) (activity : Activity) :
    Advances (Session.runEval (activity.start (.ofDepth depth))) := by
  intro session outcome after done
  unfold Session.runEval at done
  split at done
  · next world ran =>
    cases done
    have ends : Moment.EndsWith ⟨depth, activity, session.world⟩ outcome world := ran
    exact .ended .here ends
  · cases done

theorem engineOf (name : String) : Advances (Session.engineOf name) := get.bind fun _ => need _

theorem scopeOf (name : String) : Advances (Session.scopeOf name) := get.bind fun _ => need _

theorem callableOf (name : String) : Advances (Session.callableOf name) :=
  get.bind fun _ => need _

theorem registryOf (engine : EngineId) : Advances (Session.registryOf engine) :=
  get.bind fun _ => pure _

theorem putEngine (name : String) (engine : EngineId) : Advances (Session.putEngine name engine) :=
  renames fun _ => rfl

theorem putScope (name : String) (scope : Scope) : Advances (Session.putScope name scope) := by
  refine .bind (renames fun session => ?_) fun _ => pure _
  rfl

theorem store (name : String) (value : Value) : Advances (Session.store name value) :=
  renames fun _ => rfl

theorem keepResult (keep : Option String) (outcome : Outcome) :
    Advances (Session.keepResult keep outcome) := by
  unfold Session.keepResult
  split
  · exact (store _ _).bind fun _ => pure _
  · exact pure _

theorem changeWriter (name : String) (change : Registry → Writer → α × Writer) :
    Advances (Session.changeWriter name change) := by
  refine get.bind fun _ => (need _).bind fun writer => (registryOf writer.1).bind fun _ => ?_
  refine .bind (renames fun session => ?_) fun _ => pure _
  rfl

theorem writing (name : String) (write : Registry → Writer → Writer) :
    Advances (Session.writing name write) :=
  (changeWriter name _).bind fun _ => pure _

theorem buildValue (engine : EngineId) (recipe : ValueRecipe) :
    Advances (Session.make fun stored => recipe.build stored engine) :=
  make fun stored _ _ _ built => (ValueRecipe.build_builds stored engine recipe _ _ _ built).1

theorem buildValues (engine : EngineId) (recipes : List ValueRecipe) :
    Advances (Session.make fun stored => ValueRecipe.buildAll stored engine recipes) :=
  make fun stored _ _ _ built => (ValueRecipe.buildAll_builds stored engine recipes _ _ _ built).1

theorem buildFunction (engine : EngineId) (recipe : FunctionRecipe) :
    Advances (Session.make fun stored => recipe.build stored engine) :=
  make fun stored _ _ _ built => (FunctionRecipe.build_builds stored engine recipe _ _ _ built).1

/-- Every step that can be made goes on with the history of the host. -/
theorem perform (depth : Nat) (step : Step) : Advances (Session.perform depth step) := by
  cases step with
  | engine name builtins functions =>
    refine (make fun stored _ _ _ made => Builder.make_reaches made).bind fun engine => ?_
    exact (putEngine name engine).bind fun _ => (registryOf engine).bind fun _ => pure _
  | cloneEngine source name =>
    exact (engineOf source).bind fun engine => (putEngine name engine).bind fun _ =>
      (engineOf name).bind fun _ => pure _
  | sameRegistry a b => exact (engineOf a).bind fun _ => (engineOf b).bind fun _ => pure _
  | register name recipe =>
    refine (engineOf name).bind fun engine => (buildFunction engine recipe).bind fun function => ?_
    refine (changeWorld fun world => .register engine function .here).bind fun _ => ?_
    exact (registryOf engine).bind fun _ => pure _
  | replace name recipe =>
    refine (engineOf name).bind fun engine => (buildFunction engine recipe).bind fun function => ?_
    refine (changeWorld fun world => .register engine function .here).bind fun _ => ?_
    exact (registryOf engine).bind fun _ => pure _
  | extend name recipes =>
    refine (engineOf name).bind fun engine => .bind (make fun stored _ _ _ built => ?_) ?_
    · exact (Builds.mapM (FunctionRecipe.build_builds stored engine) recipes _ _ _ built).1
    · intro functions
      refine (changeWorld fun world => .extend engine functions .here).bind fun _ => ?_
      exact (registryOf engine).bind fun _ => pure _
  | registry name asked =>
    exact (engineOf name).bind fun engine => (registryOf engine).bind fun _ => pure _
  | compileFunction engine name arguments =>
    exact (engineOf engine).bind fun engine => (registryOf engine).bind fun _ =>
      (need _).bind fun _ => pure _
  | runFunction engine scope name arguments keep =>
    refine (engineOf engine).bind fun engine => (scopeOf scope).bind fun scope => ?_
    refine (registryOf engine).bind fun _ => (need _).bind fun function => ?_
    refine (buildValues engine arguments).bind fun values => ?_
    exact (runEval depth (.run function scope values)).bind fun _ => keepResult keep _
  | scope engine name bindings =>
    refine (engineOf engine).bind fun engine => .bind (make fun stored _ _ _ built => ?_) ?_
    · exact (Scope.build_builds stored engine bindings _ _ _ built).1
    · exact fun scope => putScope name scope
  | copyScope source name => exact (scopeOf source).bind fun _ => putScope name _
  | define engine scope name recipe =>
    exact (engineOf engine).bind fun engine => (scopeOf scope).bind fun _ =>
      (buildValue engine recipe).bind fun _ => putScope scope _
  | lookup scope name => exact (scopeOf scope).bind fun _ => pure _
  | bindings scope => exact (scopeOf scope).bind fun _ => pure _
  | sameScope a b => exact (scopeOf a).bind fun _ => (scopeOf b).bind fun _ => pure _
  | evaluate engine scope node keep =>
    refine (engineOf engine).bind fun engine => (scopeOf scope).bind fun scope => ?_
    exact (runEval depth (.evaluate engine scope node)).bind fun _ => keepResult keep _
  | set engine recipe keep =>
    exact (engineOf engine).bind fun engine => (buildValue engine recipe).bind fun _ =>
      keepResult _ _
  | call engine callable arguments keep =>
    refine (engineOf engine).bind fun engine => (callableOf callable).bind fun id => ?_
    refine (buildValues engine arguments).bind fun values => ?_
    exact (runEval depth (.call id values)).bind fun _ => keepResult keep _
  | invoke engine name arguments =>
    exact (engineOf engine).bind fun engine => get.bind fun _ => (need _).bind fun _ =>
      (buildValues engine arguments).bind fun _ => pure _
  | sameCallable a b => exact (callableOf a).bind fun _ => (callableOf b).bind fun _ => pure _
  | rewrap callable keep => exact (callableOf callable).bind fun _ => keepResult keep _
  | compile engine node => exact (engineOf engine).bind fun _ => get.bind fun _ => pure _
  | writer engine name =>
    refine (engineOf engine).bind fun _ => .bind (renames fun session => ?_) fun _ => pure _
    rfl
  | writeRaw name text => exact writing name _
  | writeString name text => exact writing name _
  | writeLiteral name literal => exact writing name _
  | writeNode name node => exact writing name _
  | writeAside name node => exact (changeWriter name _).bind fun _ => pure _
  | resetWriter name => exact writing name _
  | finish name =>
    refine get.bind fun _ => (need _).bind fun _ => ?_
    refine .bind (renames fun session => ?_) fun _ => pure _
    rfl

end Advances

/-- One step takes the world along the history of the host; a step that cannot be made leaves the
session as it is. -/
theorem step_reaches (depth : Nat) (s : Step) (session : Session) :
    Reaches session.world (session.step depth s).2.world := by
  unfold step
  split
  · next reply after done => exact Advances.perform depth s session reply after done
  · exact .here

/-- A session is a history of a host. -/
theorem run_reaches (depth : Nat) (steps : List Step) (session : Session) :
    Reaches session.world (session.run depth steps).2.world := by
  induction steps generalizing session with
  | nil => exact .here
  | cons first rest ih => exact (session.step_reaches depth first).trans (ih _)

end Session

end ArrowExpr
