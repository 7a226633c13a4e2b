import ArrowExpr.Proofs.Effects
import Mathlib.Data.List.Forall2
/-!
# What the bound on the depth does

The bound on the depth cuts a run off and does nothing else. Of two runs the second one prolongs the
first (`Prolonged`) if it does the same wherever the first ends, and goes on where the first is cut
off. This is kept by each way to put runs together, so

1. evaluations and calls are prolonged by those of a greater depth (`Interpreter.ofDepth_prolonged`),
   so a result does not depend on the depth that it was reached with (`evaluateAt_of_le`);
2. so is an evaluation by that of another expression of the same form in another scope, if this is so
   where they are not of the same form (`evaluateAt_prolonged`).

Some of this holds only as long as the functions in play keep to something. Such a `Proviso` is a
condition on the world and on what is done from there on.
-/

namespace ArrowExpr

open EvalM

/-- A condition on what is done from a world on. It goes over to the first effects, and to the rest
in the world after them. -/
structure Proviso where
  Holds : World → List Effect → Prop
  left : ∀ {world effects others}, Holds world (effects ++ others) → Holds world effects
  right : ∀ {world effects others},
    Holds world (effects ++ others) → Holds (world.after effects) others

/-- Nothing is required. -/
def Proviso.free : Proviso := ⟨fun _ _ => True, fun _ => trivial, fun _ => trivial⟩

/-- From the world on, the second run prolongs the first: where the first ends, the second ends alike
and has the same effects; else it has the effects of the first up to where that is cut off. The
proviso may be known of either of them. -/
def Prolonged {α : Type} (proviso : Proviso) (world : World) (run : EvalM α) (effects : Effects)
    (other : EvalM α) (others : Effects) : Prop :=
  proviso.Holds world (effects world) ∨ proviso.Holds world (others world) →
    (∀ outcome left, Yields run world outcome left →
      Yields other world outcome left ∧ others world = effects world) ∧
    effects world <+: others world

namespace Prolonged

variable {α β γ : Type} {proviso : Proviso} {world : World}

theorem refl (run : EvalM α) (effects : Effects) :
    Prolonged proviso world run effects run effects :=
  fun _ => ⟨fun _ _ ran => ⟨ran, rfl⟩, List.prefix_rfl⟩

/-- Any run prolongs one that is cut off at its start. -/
theorem outOfDepth (other : EvalM α) (others : Effects) :
    Prolonged proviso world EvalM.outOfDepth Effects.none other others := by
  refine fun _ => ⟨fun outcome left ran => ?_, List.nil_prefix⟩
  cases ran

/-- Both runs come to the same end without any effects, the first one unless it is cut off. -/
theorem of_quiet {left : World} {run other : EvalM α} {effects others : Effects}
    {outcome : Except EvalError α}
    (ends : ∀ result last, Yields run world result last → result = outcome ∧ last = left)
    (quiet : effects world = []) (ran : Yields other world outcome left)
    (otherQuiet : others world = []) : Prolonged proviso world run effects other others := by
  intro _
  rw [quiet, otherQuiet]
  refine ⟨fun result last ended => ⟨?_, rfl⟩, List.prefix_rfl⟩
  obtain ⟨rfl, rfl⟩ := ends result last ended
  exact ran

theorem bind {first second : EvalM α} {effects others : Effects} {f g : α → EvalM β}
    {next nextOthers : α → Effects} (accounted : Accounted first effects)
    (prolonged : Prolonged proviso world first effects second others)
    (nextProlonged : ∀ a middle, Yields first world (.ok a) middle →
      Prolonged proviso middle (f a) (next a) (g a) (nextOthers a)) :
    Prolonged proviso world (first >>= f) (Effects.bind first effects next) (second >>= g)
      (Effects.bind second others nextOthers) := by
  intro holds
  obtain ⟨ends, begins⟩ := prolonged (holds.imp proviso.left proviso.left)
  cases ran : ExceptT.run first world with
  | none =>
    -- the first part is cut off, and nothing of what would follow is done
    refine ⟨fun outcome left whole => ?_, ?_⟩
    · rw [Yields, run_bind, ran] at whole
      cases whole
    · rw [Effects.bind_of_stuck ran]
      exact begins.trans (List.prefix_append _ _)
  | some result =>
    obtain ⟨outcome, middle⟩ := result
    obtain ⟨ranToo, same⟩ := ends outcome middle ran
    cases outcome with
    | ok a =>
      rw [Effects.bind_of_yields ran, Effects.bind_of_yields ranToo, same] at holds ⊢
      have rest := holds.imp proviso.right proviso.right
      rw [← accounted world _ middle ran] at rest
      obtain ⟨nextEnds, nextBegins⟩ := nextProlonged a middle ran rest
      refine ⟨fun outcome left whole => ?_, (List.prefix_append_right_inj _).mpr nextBegins⟩
      rw [Yields, run_bind, ran] at whole
      obtain ⟨nextToo, nextSame⟩ := nextEnds outcome left whole
      exact ⟨ranToo.bind nextToo, congrArg (effects world ++ ·) nextSame⟩
    | error error =>
      rw [Effects.bind_of_error ran, Effects.bind_of_error ranToo, same]
      refine ⟨fun outcome left whole => ⟨?_, rfl⟩, List.prefix_rfl⟩
      rw [Yields, run_bind, ran] at whole
      cases whole
      exact ranToo.bind_error

/-- Nothing is done next. -/
theorem then_quiet {first second : EvalM α} {effects others : Effects} (f : α → EvalM β)
    (accounted : Accounted first effects)
    (prolonged : Prolonged proviso world first effects second others) :
    Prolonged proviso world (first >>= f) effects (second >>= f) others := by
  have whole : Prolonged proviso world (first >>= f) (Effects.bind first effects fun _ => .none)
      (second >>= f) (Effects.bind second others fun _ => .none) :=
    prolonged.bind accounted fun _ _ _ => refl _ _
  rwa [Effects.bind_none, Effects.bind_none] at whole

theorem attempt {run other : EvalM Value} {effects others : Effects}
    (prolonged : Prolonged proviso world run effects other others) :
    Prolonged proviso world (EvalM.attempt run) effects (EvalM.attempt other) others := by
  intro holds
  obtain ⟨ends, begins⟩ := prolonged holds
  refine ⟨fun outcome left whole => ?_, begins⟩
  rw [Yields, run_attempt, Option.map_eq_some_iff] at whole
  obtain ⟨⟨inner, last⟩, ran, same⟩ := whole
  cases same
  obtain ⟨ranToo, effectsAlike⟩ := ends inner left ran
  exact ⟨ranToo.attempt, effectsAlike⟩

theorem mapM {related : α → β → Prop} {f : α → EvalM γ} {g : β → EvalM γ} {effects : α → Effects}
    {others : β → Effects} {items : List α} {otherItems : List β}
    (accounted : ∀ item, Accounted (f item) (effects item))
    (prolonged : ∀ item other, related item other → ∀ world,
      Prolonged proviso world (f item) (effects item) (g other) (others other))
    (alike : List.Forall₂ related items otherItems) :
    Prolonged proviso world (items.mapM f) (Effects.each f effects items) (otherItems.mapM g)
      (Effects.each g others otherItems) := by
  induction alike generalizing world with
  | nil => exact refl _ _
  | @cons item other rest otherRest first _ ih =>
    rw [List.mapM_cons, List.mapM_cons]
    refine (prolonged item other first world).bind (accounted item) fun c middle _ => ?_
    exact ih.then_quiet _ (.mapM rest accounted)

end Prolonged

/-! ## Interpreters of a greater depth -/

/-- What the one interpreter evaluates and calls is prolonged by what the other does. -/
structure Interpreter.Prolonged (inner other : Interpreter) (account others : Account) : Prop where
  evaluate : ∀ proviso world engine scope node, ArrowExpr.Prolonged proviso world
    (inner.evaluate engine scope node) (account.evaluate engine scope node)
    (other.evaluate engine scope node) (others.evaluate engine scope node)
  call : ∀ proviso world id arguments, ArrowExpr.Prolonged proviso world
    (inner.call id arguments) (account.call id arguments)
    (other.call id arguments) (others.call id arguments)

/-- The nodes have the same form, and children at the same place are related. An arrow function has
the same body in both. -/
inductive Node.SameForm (related : Node → Node → Prop) : Node → Node → Prop
  | constant (literal : Literal) : SameForm related (.constant literal) (.constant literal)
  | name (x : String) : SameForm related (.name x) (.name x)
  | unary (op : UnaryOp) {a b : Node} :
      related a b → SameForm related (.unary op a) (.unary op b)
  | binary (op : BinaryOp) {a b other otherB : Node} :
      related a b → related other otherB →
      SameForm related (.binary op a other) (.binary op b otherB)
  | call (function : String) {arguments others : List Node} :
      List.Forall₂ related arguments others →
      SameForm related (.call function arguments) (.call function others)
  | list {items others : List Node} :
      List.Forall₂ related items others → SameForm related (.list items) (.list others)
  | arrow (parameters : List String) (body : Option Node) :
      SameForm related (.arrow parameters body) (.arrow parameters body)

theorem Node.SameForm.refl {related : Node → Node → Prop} (same : ∀ node, related node node)
    (node : Node) : SameForm related node node := by
  have all : ∀ nodes : List Node, List.Forall₂ related nodes nodes :=
    fun nodes => List.forall₂_same.mpr fun node _ => same node
  cases node with
  | constant literal => exact .constant literal
  | name x => exact .name x
  | unary op operand => exact .unary op (same operand)
  | binary op left right => exact .binary op (same left) (same right)
  | call function arguments => exact .call function (all arguments)
  | list items => exact .list (all items)
  | arrow parameters body => exact .arrow parameters body

theorem Node.SameForm.flip {related : Node → Node → Prop} {a b : Node}
    (form : a.SameForm related b) : b.SameForm (fun x y => related y x) a := by
  cases form with
  | constant literal => exact .constant literal
  | name x => exact .name x
  | unary op operands => exact .unary op operands
  | binary op lefts rights => exact .binary op lefts rights
  | call function arguments => exact .call function arguments.flip
  | list items => exact .list items.flip
  | arrow parameters body => exact .arrow parameters body

/-- No function that the engine has, as long as the proviso holds, tells these scopes apart. -/
def Proviso.BlindTo (proviso : Proviso) (engine : EngineId) (scope other : Scope) : Prop :=
  ∀ world effects, proviso.Holds world effects → ∀ name function,
    (world.registry engine).find? name = some function → ∀ arguments,
      function.evaluate scope arguments = function.evaluate other arguments

theorem Proviso.blindTo_self (proviso : Proviso) (engine : EngineId) (scope : Scope) :
    proviso.BlindTo engine scope scope :=
  fun _ _ _ _ _ _ _ => rfl

namespace Prolonged

variable {proviso : Proviso} {inner other : Interpreter} {account others : Account} {world : World}

theorem perform (tells : account.Tells inner) (inside : inner.Prolonged other account others)
    (action : Action) :
    Prolonged proviso world (inner.perform action) (inner.performEffects account action)
      (other.perform action) (other.performEffects others action) := by
  induction action generalizing world with
  | done outcome => exact refl _ _
  | call id arguments next ih =>
    exact (inside.call proviso world id arguments).attempt.bind
      (tells.call id arguments).attempt fun outcome _ _ => ih outcome
  | evaluate engine scope node next ih =>
    exact (inside.evaluate proviso world engine scope node).attempt.bind
      (tells.evaluate engine scope node).attempt fun outcome _ _ => ih outcome
  | wrap callback next _ ih => exact (refl _ _).bind (.construct _) fun id _ _ => ih id
  | register engine name compile evaluate next _ ih =>
    exact (refl _ _).bind (.ask _) fun replaces _ _ =>
      (refl _ _).bind (.update (.register engine ⟨name, compile, evaluate⟩)) fun _ _ _ => ih replaces
  | load cell next ih => exact (refl _ _).bind (.ask _) fun value _ _ => ih value
  | store cell value next ih =>
    exact (refl _ _).bind (.update (.store cell value)) fun _ _ _ => ih

theorem run (tells : account.Tells inner) (inside : inner.Prolonged other account others)
    {function : HostFunction} {scope otherScope : Scope} {arguments : List Value}
    (same : function.evaluate scope arguments = function.evaluate otherScope arguments) :
    Prolonged proviso world (inner.run function scope arguments)
      (inner.runEffects account function scope arguments) (other.run function otherScope arguments)
      (other.runEffects others function otherScope arguments) := by
  rw [Interpreter.run, Interpreter.run, Interpreter.runEffects, Interpreter.runEffects, ← same]
  exact (refl _ _).bind (.update (.start (.function function arguments))) fun _ _ _ =>
    perform tells inside _

/-- Nodes of the same form, where the children are prolonged. -/
theorem evaluateNode (tells : account.Tells inner) (inside : inner.Prolonged other account others)
    {engine : EngineId} {scope otherScope : Scope} (blind : proviso.BlindTo engine scope otherScope)
    {related : Node → Node → Prop} (children : ∀ a b, related a b → ∀ world,
      Prolonged proviso world (inner.evaluate engine scope a) (account.evaluate engine scope a)
        (other.evaluate engine otherScope b) (others.evaluate engine otherScope b))
    {node otherNode : Node} (form : node.SameForm related otherNode)
    (bound : ∀ x, node = .name x → scope.lookup? x = otherScope.lookup? x) :
    Prolonged proviso world (inner.evaluateNode engine scope node)
      (inner.nodeEffects account engine scope node)
      (other.evaluateNode engine otherScope otherNode)
      (other.nodeEffects others engine otherScope otherNode) := by
  have evaluates := tells.evaluate engine scope
  cases form with
  | constant literal => exact refl _ _
  | name x =>
    rw [Interpreter.evaluateNode, Interpreter.evaluateNode, bound x rfl]
    exact refl _ _
  | unary op operands => exact (children _ _ operands world).then_quiet _ (evaluates _)
  | binary op lefts rights =>
    refine (children _ _ lefts world).bind (evaluates _) fun value middle _ => ?_
    split
    · exact refl _ _
    · exact (children _ _ rights middle).then_quiet _ (evaluates _)
  | call name arguments =>
    rw [Interpreter.evaluateNode, Interpreter.evaluateNode, Interpreter.nodeEffects,
      Interpreter.nodeEffects]
    -- the proviso tells of the function that is found at the start
    intro holds
    refine Prolonged.bind (.ask _) (refl _ _) (fun registry middle asked => ?_) holds
    cases asked
    cases found : (world.registry engine).find? name with
    | none => exact refl _ _
    | some function =>
      refine (mapM evaluates children arguments).bind (.mapM _ evaluates) fun values _ _ => ?_
      have ignores := holds.elim (blind world _) (blind world _)
      exact run tells inside (ignores name function found values)
  | list items => exact (mapM evaluates children items).then_quiet _ (.mapM _ evaluates)
  | arrow parameters body =>
    cases body with
    | none => exact refl _ _
    | some body => exact refl _ _

theorem callClosure (inside : inner.Prolonged other account others) (tells : account.Tells inner)
    (id : CallableId) (arguments : List Value) :
    Prolonged proviso world (inner.callClosure id arguments)
      (inner.closureEffects account id arguments) (other.callClosure id arguments)
      (other.closureEffects others id arguments) := by
  refine (refl _ _).bind (.ask _) fun closure middle _ => ?_
  cases closure with
  | none => exact refl _ _
  | some closure =>
    cases closure with
    | arrow engine parameters body =>
      by_cases few : arguments.length < parameters.length
      · simp only [if_pos few]
        exact refl _ _
      · simp only [if_neg few]
        exact (refl _ _).bind (.update (.start (.closure id arguments))) fun _ _ _ =>
          inside.evaluate _ _ _ _ _
    | host callback =>
      exact (refl _ _).bind (.update (.start (.closure id arguments))) fun _ _ _ =>
        perform tells inside _

end Prolonged

/-- More depth prolongs what is evaluated and called. -/
theorem Interpreter.ofDepth_prolonged {depth more : Nat} (le : depth ≤ more) :
    (Interpreter.ofDepth depth).Prolonged (.ofDepth more) (.ofDepth depth) (.ofDepth more) := by
  induction depth generalizing more with
  | zero => exact ⟨fun _ _ _ _ _ => .outOfDepth _ _, fun _ _ _ _ => .outOfDepth _ _⟩
  | succ depth ih =>
    obtain ⟨more, rfl⟩ := Nat.exists_eq_succ_of_ne_zero (Nat.ne_of_gt (Nat.lt_of_lt_of_le
      (Nat.succ_pos depth) le))
    have inside := ih (Nat.le_of_succ_le_succ le)
    have tells := Account.ofDepth_tells depth
    refine ⟨fun proviso world engine scope node => ?_, fun proviso world id arguments => ?_⟩
    · refine Prolonged.evaluateNode tells inside (proviso.blindTo_self engine scope) ?_
        (Node.SameForm.refl (fun _ => rfl) node) fun _ _ => rfl
      rintro child _ rfl world
      exact inside.evaluate proviso world engine scope child
    · exact Prolonged.callClosure inside tells id arguments

/-- Nodes are related, in two scopes. Where related nodes are of the same form, so are their children
and a name is bound alike; and where they are not, they are known to be prolonged. Then they are
prolonged throughout. The second evaluation may have some extra depth. -/
theorem evaluateAt_prolonged {proviso : Proviso} {engine : EngineId} {scope other : Scope}
    (blind : proviso.BlindTo engine scope other) {related : Node → Node → Prop} {extra : Nat}
    (known : ∀ a b, related a b →
      (a.SameForm related b ∧ ∀ x, a = .name x → scope.lookup? x = other.lookup? x) ∨
      ∀ depth world, Prolonged proviso world (evaluateAt (depth + 1) engine scope a)
        (evaluationEffects (depth + 1) engine scope a)
        (evaluateAt (extra + (depth + 1)) engine other b)
        (evaluationEffects (extra + (depth + 1)) engine other b))
    (depth : Nat) {a b : Node} (alike : related a b) (world : World) :
    Prolonged proviso world (evaluateAt depth engine scope a)
      (evaluationEffects depth engine scope a) (evaluateAt (extra + depth) engine other b)
      (evaluationEffects (extra + depth) engine other b) := by
  induction depth generalizing a b world with
  | zero => exact .outOfDepth _ _
  | succ depth ih =>
    rcases known a b alike with ⟨form, bound⟩ | prolonged
    · have inside := Interpreter.ofDepth_prolonged (Nat.le_add_left depth extra)
      exact .evaluateNode (Account.ofDepth_tells depth) inside blind (fun _ _ => ih) form bound
    · exact prolonged depth world

/-- With more depth an evaluation comes to the same result. -/
theorem evaluateAt_of_le {depth more : Nat} (le : depth ≤ more) {engine : EngineId} {scope : Scope}
    {node : Node} {world left : World} {outcome : Outcome}
    (ran : Yields (evaluateAt depth engine scope node) world outcome left) :
    Yields (evaluateAt more engine scope node) world outcome left :=
  (((Interpreter.ofDepth_prolonged le).evaluate .free world engine scope node (.inl trivial)).1
    outcome left ran).1

end ArrowExpr
