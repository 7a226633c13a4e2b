import ArrowExpr.Host.Stock
import ArrowExpr.Proofs.Depth
import ArrowExpr.Proofs.Traces
/-!
# Boolean expressions can be rewritten

The laws of De Morgan and associativity hold of `not`, `and` and `or` although operands may have
effects: both sides of a law evaluate the same operands, in the same order, and as far as each other
(`deMorgan`, `associative`). So an expression may be rewritten by them anywhere but in the bodies of
its arrow functions, as often as one likes (`evaluate_of_rewritten`).

The two sides of a law need not have the same depth. They are compared without regard to it, as runs
that prolong each other (`Traced.ProlongedBy`).
-/

namespace ArrowExpr

open EvalM

/-! ## Rewriting -/

/-- The laws of `not`, `and` and `or`. -/
inductive BooleanLaw : Node → Node → Prop
  | notAnd (a b : Node) :
      BooleanLaw (.unary .not (.binary .and a b)) (.binary .or (.unary .not a) (.unary .not b))
  | notOr (a b : Node) :
      BooleanLaw (.unary .not (.binary .or a b)) (.binary .and (.unary .not a) (.unary .not b))
  | andAssoc (a b c : Node) :
      BooleanLaw (.binary .and (.binary .and a b) c) (.binary .and a (.binary .and b c))
  | orAssoc (a b c : Node) :
      BooleanLaw (.binary .or (.binary .or a b) c) (.binary .or a (.binary .or b c))

/-- One law is used once, in either direction, at a place that is in no arrow body. -/
inductive Rewrites : Node → Node → Prop
  | here {a b : Node} : BooleanLaw a b → Rewrites a b
  | back {a b : Node} : BooleanLaw b a → Rewrites a b
  | operand (op : UnaryOp) {a b : Node} : Rewrites a b → Rewrites (.unary op a) (.unary op b)
  | left (op : BinaryOp) {a b : Node} (right : Node) :
      Rewrites a b → Rewrites (.binary op a right) (.binary op b right)
  | right (op : BinaryOp) (left : Node) {a b : Node} :
      Rewrites a b → Rewrites (.binary op left a) (.binary op left b)
  | argument (function : String) (before : List Node) {a b : Node} (after : List Node) :
      Rewrites a b →
      Rewrites (.call function (before ++ a :: after)) (.call function (before ++ b :: after))
  | item (before : List Node) {a b : Node} (after : List Node) :
      Rewrites a b → Rewrites (.list (before ++ a :: after)) (.list (before ++ b :: after))

theorem Rewrites.symm {a b : Node} (rewrites : Rewrites a b) : Rewrites b a := by
  induction rewrites with
  | here law => exact .back law
  | back law => exact .here law
  | operand op _ ih => exact .operand op ih
  | left op right _ ih => exact .left op right ih
  | right op left _ ih => exact .right op left ih
  | argument function before after _ ih => exact .argument function before after ih
  | item before after _ ih => exact .item before after ih

namespace Traced

/-! ## Runs that prolong each other -/

section ProlongedBy

variable {α β : Type} {first second : Traced α} {f g : α → Traced β}

/-- The other run does the same wherever the first ends, and goes on where the first is cut off. -/
def ProlongedBy (run other : Traced α) : Prop :=
  ∀ world, Prolonged .free world run.run run.effects other.run other.effects

theorem ProlongedBy.refl (run : Traced α) : run.ProlongedBy run :=
  fun _ => Prolonged.refl _ _

theorem ProlongedBy.trans {run middle other : Traced α} (prolonged : run.ProlongedBy middle)
    (further : middle.ProlongedBy other) : run.ProlongedBy other := by
  intro world _
  obtain ⟨ends, begins⟩ := prolonged world (.inl trivial)
  obtain ⟨endsToo, beginsToo⟩ := further world (.inl trivial)
  refine ⟨fun outcome left ran => ?_, begins.trans beginsToo⟩
  obtain ⟨ranToo, same⟩ := ends outcome left ran
  obtain ⟨otherRan, otherSame⟩ := endsToo outcome left ranToo
  exact ⟨otherRan, otherSame.trans same⟩

/-- Where the first run ends, the other one has the same course. -/
theorem ProlongedBy.course_eq {run other : Traced α} (prolonged : run.ProlongedBy other)
    {world : World} {ending : Except EvalError α × World} {effects : List Effect}
    (ends : run.course world = (some ending, effects)) :
    other.course world = (some ending, effects) := by
  obtain ⟨ran, same⟩ := Prod.mk.inj ends
  obtain ⟨ranToo, alike⟩ := (prolonged world (.inl trivial)).1 _ _ ran
  exact Prod.ext ranToo (alike.trans same)

theorem ProlongedBy.begins {run other : Traced α} (prolonged : run.ProlongedBy other)
    (world : World) : run.effects world <+: other.effects world :=
  (prolonged world (.inl trivial)).2

theorem ProlongedBy.bind (accounted : Accounted first.run first.effects)
    (prolonged : first.ProlongedBy second) (nextProlonged : ∀ a, (f a).ProlongedBy (g a)) :
    (first.bind f).ProlongedBy (second.bind g) :=
  fun world => (prolonged world).bind accounted fun a middle _ => nextProlonged a middle

end ProlongedBy

/-! ## Truth -/

/-- Whether the value counts as true. -/
def tested (run : Traced Value) : Traced Bool := run.bind fun value => pure value.isTruthy

/-- The truth as a value. -/
def toValue (run : Traced Bool) : Traced Value := run.bind fun truth => pure (.bool truth)

def negated (run : Traced Bool) : Traced Bool := run.bind fun truth => pure !truth

/-- The second run counts, and is made, only if the first one does not come to `stop`. -/
def junction (stop : Bool) (first second : Traced Bool) : Traced Bool :=
  first.bind fun truth => if truth = stop then pure stop else second

theorem bool_of_toValue {run : Traced Bool} {world left : World} {value : Value}
    {effects : List Effect} (ends : run.toValue.course world = (some (.ok value, left), effects)) :
    ∃ truth, value = .bool truth := by
  rcases first : run.course world with ⟨_ | ⟨error | truth, middle⟩, others⟩
  · rw [toValue, course_bind_of_cut first] at ends
    cases ends
  · rw [toValue, course_bind_of_error first] at ends
    cases ends
  · rw [toValue, course_bind_of_value first] at ends
    cases ends
    exact ⟨truth, rfl⟩

theorem tested_toValue (run : Traced Bool) : run.toValue.tested = run := by
  rw [toValue, tested, bind_assoc]
  simp only [pure_bind, Value.isTruthy]
  exact bind_pure run

/-- The laws of De Morgan. -/
theorem negated_junction (stop : Bool) (first second : Traced Bool) :
    (junction stop first second).negated = junction (!stop) first.negated second.negated := by
  rw [junction, negated, bind_assoc, junction, negated, bind_assoc]
  refine congrArg _ (funext fun truth => ?_)
  simp only [pure_bind, Bool.not_inj_iff]
  split
  · exact pure_bind _ _
  · rfl

theorem junction_assoc (stop : Bool) (first second third : Traced Bool) :
    junction stop (junction stop first second) third =
      junction stop first (junction stop second third) := by
  rw [junction, junction, bind_assoc]
  refine congrArg _ (funext fun truth => ?_)
  split
  · rw [pure_bind, if_pos rfl]
  · rfl

theorem accounted_junction {stop : Bool} {first second : Traced Bool}
    (accounted : Accounted first.run first.effects)
    (secondAccounted : Accounted second.run second.effects) :
    Accounted (junction stop first second).run (junction stop first second).effects := by
  refine accounted.bind fun truth => ?_
  by_cases decides : truth = stop
  · simp only [if_pos decides]
    exact .pure stop
  · simp only [if_neg decides]
    exact secondAccounted

theorem toValue_prolonged {run other : Traced Bool} (accounted : Accounted run.run run.effects)
    (prolonged : run.ProlongedBy other) : run.toValue.ProlongedBy other.toValue :=
  prolonged.bind accounted fun _ => .refl _

theorem junction_prolonged {stop : Bool} {first second other otherSecond : Traced Bool}
    (accounted : Accounted first.run first.effects) (prolonged : first.ProlongedBy other)
    (secondProlonged : second.ProlongedBy otherSecond) :
    (junction stop first second).ProlongedBy (junction stop other otherSecond) := by
  refine prolonged.bind accounted fun truth => ?_
  split
  · exact .refl _
  · exact secondProlonged

end Traced

/-- The operator whose left operand decides if it is `stop`. -/
def junctionOp (stop : Bool) : BinaryOp := if stop then .or else .and

theorem decides_junctionOp (stop truth : Bool) :
    ((junctionOp stop).isShortCircuit && truth == (junctionOp stop == .or)) = (truth == stop) := by
  cases stop <;> rfl

/-- If the left operand does not decide, the right one does. -/
theorem apply_junctionOp {stop : Bool} {left : Value} (goesOn : left.isTruthy ≠ stop)
    (right : Value) : (junctionOp stop).apply left right = .ok (.bool right.isTruthy) := by
  have opposite : left.isTruthy = !stop := Bool.eq_not_of_ne goesOn
  cases stop with
  | false =>
    show BinaryOp.apply .and left right = _
    rw [BinaryOp.apply, opposite, Bool.not_false, Bool.true_and]
  | true =>
    show BinaryOp.apply .or left right = _
    rw [BinaryOp.apply, opposite, Bool.not_true, Bool.false_or]

section Evaluate

open Traced

variable (depth : Nat) (engine : EngineId) (scope : Scope)

theorem traced_unary (op : UnaryOp) (operand : Node) :
    traced (depth + 1) (.evaluate engine scope (.unary op operand)) =
      (traced depth (.evaluate engine scope operand)).bind fun value =>
        Traced.ofOutcome (op.apply value) :=
  congrArg (Traced.mk _) (Effects.bind_none _ _).symm

theorem traced_binary (op : BinaryOp) (left right : Node) :
    traced (depth + 1) (.evaluate engine scope (.binary op left right)) =
      (traced depth (.evaluate engine scope left)).bind fun value =>
        if op.isShortCircuit && value.isTruthy == (op == .or) then
          Traced.pure (.bool value.isTruthy)
        else
          (traced depth (.evaluate engine scope right)).bind fun other =>
            Traced.ofOutcome (op.apply value other) := by
  have next : ∀ value : Value, Traced.mk
      (if op.isShortCircuit && value.isTruthy == (op == .or) then
        Pure.pure (.bool value.isTruthy)
      else (traced depth (.evaluate engine scope right)).run >>= fun other =>
        EvalM.ofOutcome (op.apply value other))
      (if op.isShortCircuit && value.isTruthy == (op == .or) then Effects.none
      else (traced depth (.evaluate engine scope right)).effects) =
      if op.isShortCircuit && value.isTruthy == (op == .or) then
        Traced.pure (.bool value.isTruthy)
      else
        (traced depth (.evaluate engine scope right)).bind fun other =>
          Traced.ofOutcome (op.apply value other) := by
    intro value
    split
    · rfl
    · exact congrArg (Traced.mk _) (Effects.bind_none _ _).symm
  exact congrArg (traced depth (.evaluate engine scope left)).bind (funext next)

/-- Whether the expression is true. -/
def truth (node : Node) : Traced Bool := (traced depth (.evaluate engine scope node)).tested

theorem accounted_truth (node : Node) :
    Accounted (truth depth engine scope node).run (truth depth engine scope node).effects :=
  (accounted_traced depth (.evaluate engine scope node)).bind fun _ => .pure _

theorem traced_not (operand : Node) :
    traced (depth + 1) (.evaluate engine scope (.unary .not operand)) =
      (truth depth engine scope operand).negated.toValue := by
  rw [traced_unary, truth, tested, negated, toValue, bind_assoc, bind_assoc]
  refine congrArg _ (funext fun value => ?_)
  rw [pure_bind, pure_bind]
  cases value <;> rfl

theorem traced_junction (stop : Bool) (left right : Node) :
    traced (depth + 1) (.evaluate engine scope (.binary (junctionOp stop) left right)) =
      (junction stop (truth depth engine scope left) (truth depth engine scope right)).toValue := by
  rw [traced_binary, truth, tested, junction, toValue, bind_assoc, bind_assoc]
  refine congrArg _ (funext fun value => ?_)
  rw [pure_bind, decides_junctionOp]
  by_cases decides : value.isTruthy = stop
  · rw [if_pos (beq_iff_eq.mpr decides), if_pos decides, pure_bind, decides]
  · rw [if_neg fun equal => decides (beq_iff_eq.mp equal), if_neg decides, truth, tested, bind_assoc]
    refine congrArg _ (funext fun other => ?_)
    rw [apply_junctionOp decides, pure_bind]
    rfl

theorem truth_not (operand : Node) :
    truth (depth + 1) engine scope (.unary .not operand) =
      (truth depth engine scope operand).negated := by
  rw [truth, traced_not, tested_toValue]

theorem truth_junction (stop : Bool) (left right : Node) :
    truth (depth + 1) engine scope (.binary (junctionOp stop) left right) =
      junction stop (truth depth engine scope left) (truth depth engine scope right) := by
  rw [truth, traced_junction, tested_toValue]

/-- At depth zero everything is cut off at the start. -/
theorem truth_zero (node : Node) : truth 0 engine scope node = ⟨outOfDepth, Effects.none⟩ :=
  ext_course fun _ => course_bind_of_cut rfl

end Evaluate

/-! ## The laws -/

section Laws

open Traced

variable (engine : EngineId) (scope : Scope)

theorem traced_deeper {depth more : Nat} (le : depth ≤ more) (node : Node) :
    (traced depth (.evaluate engine scope node)).ProlongedBy
      (traced more (.evaluate engine scope node)) :=
  fun world => (Interpreter.ofDepth_prolonged le).evaluate .free world engine scope node

theorem truth_deeper {depth more : Nat} (le : depth ≤ more) (node : Node) :
    (truth depth engine scope node).ProlongedBy (truth more engine scope node) :=
  (traced_deeper engine scope le node).bind (accounted_traced depth _) fun _ => .refl _

/-- The laws of De Morgan hold at every depth. -/
theorem deMorgan (stop : Bool) (a b : Node) (depth : Nat) :
    traced depth (.evaluate engine scope (.unary .not (.binary (junctionOp stop) a b))) =
      traced depth (.evaluate engine scope
        (.binary (junctionOp !stop) (.unary .not a) (.unary .not b))) := by
  match depth with
  | 0 => rfl
  | 1 =>
    rw [traced_not, traced_junction, truth_zero, truth_zero]
    exact ext_course fun world =>
      (course_bind_of_cut (course_bind_of_cut rfl)).trans
        (course_bind_of_cut (course_bind_of_cut rfl)).symm
  | depth + 2 =>
    rw [traced_not, truth_junction, negated_junction, traced_junction, truth_not, truth_not]

/-- A junction is prolonged by that of its operands at the same depth. -/
theorem truth_junction_prolonged (stop : Bool) (left right : Node) (depth : Nat) :
    (truth depth engine scope (.binary (junctionOp stop) left right)).ProlongedBy
      (junction stop (truth depth engine scope left) (truth depth engine scope right)) := by
  cases depth with
  | zero =>
    rw [truth_zero]
    exact fun world => .outOfDepth _ _
  | succ depth =>
    rw [truth_junction]
    exact junction_prolonged (accounted_truth depth engine scope left)
      (truth_deeper engine scope (Nat.le_succ depth) left)
      (truth_deeper engine scope (Nat.le_succ depth) right)

/-- The operators are associative, if the other side has one more depth. -/
theorem associative (stop : Bool) (a b c : Node) (depth : Nat) :
    (traced depth (.evaluate engine scope
        (.binary (junctionOp stop) (.binary (junctionOp stop) a b) c))).ProlongedBy
      (traced (depth + 1) (.evaluate engine scope
        (.binary (junctionOp stop) a (.binary (junctionOp stop) b c)))) ∧
    (traced depth (.evaluate engine scope
        (.binary (junctionOp stop) a (.binary (junctionOp stop) b c)))).ProlongedBy
      (traced (depth + 1) (.evaluate engine scope
        (.binary (junctionOp stop) (.binary (junctionOp stop) a b) c))) := by
  cases depth with
  | zero => exact ⟨fun _ => .outOfDepth _ _, fun _ => .outOfDepth _ _⟩
  | succ depth =>
    have accounted := accounted_truth depth engine scope
    have deeper : ∀ node, (truth depth engine scope node).ProlongedBy
        (truth (depth + 1) engine scope node) := truth_deeper engine scope (Nat.le_succ depth)
    simp only [traced_junction]
    constructor
    · have inner : (junction stop (truth depth engine scope (.binary (junctionOp stop) a b))
            (truth depth engine scope c)).ProlongedBy
          (junction stop (junction stop (truth depth engine scope a) (truth depth engine scope b))
            (truth depth engine scope c)) :=
        junction_prolonged (accounted _) (truth_junction_prolonged engine scope stop a b depth)
          (.refl _)
      rw [junction_assoc] at inner
      refine toValue_prolonged (accounted_junction (accounted _) (accounted c)) (inner.trans ?_)
      rw [truth_junction]
      exact junction_prolonged (accounted a) (deeper a) (.refl _)
    · have inner : (junction stop (truth depth engine scope a)
            (truth depth engine scope (.binary (junctionOp stop) b c))).ProlongedBy
          (junction stop (truth depth engine scope a)
            (junction stop (truth depth engine scope b) (truth depth engine scope c))) :=
        junction_prolonged (accounted a) (.refl _)
          (truth_junction_prolonged engine scope stop b c depth)
      rw [← junction_assoc] at inner
      refine toValue_prolonged (accounted_junction (accounted a) (accounted _)) (inner.trans ?_)
      rw [truth_junction]
      exact junction_prolonged (accounted_junction (accounted a) (accounted b)) (.refl _) (deeper c)

/-- Each side of a law is prolonged by the other one, with one more depth. -/
theorem BooleanLaw.prolonged {a b : Node} (law : BooleanLaw a b) (depth : Nat) :
    (traced depth (.evaluate engine scope a)).ProlongedBy
        (traced (depth + 1) (.evaluate engine scope b)) ∧
      (traced depth (.evaluate engine scope b)).ProlongedBy
        (traced (depth + 1) (.evaluate engine scope a)) := by
  have deeper := traced_deeper engine scope (Nat.le_succ depth)
  have twoSides : ∀ stop a b,
      traced depth (.evaluate engine scope (.unary .not (.binary (junctionOp stop) a b))) =
        traced depth (.evaluate engine scope
          (.binary (junctionOp !stop) (.unary .not a) (.unary .not b))) :=
    fun stop a b => deMorgan engine scope stop a b depth
  cases law with
  | notAnd a b =>
    have same := twoSides false a b
    exact ⟨same ▸ deeper _, same.symm ▸ deeper _⟩
  | notOr a b =>
    have same := twoSides true a b
    exact ⟨same ▸ deeper _, same.symm ▸ deeper _⟩
  | andAssoc a b c => exact associative engine scope false a b c depth
  | orAssoc a b c => exact associative engine scope true a b c depth

/-- What a law is about comes to a truth, if it comes to a value at all. -/
theorem BooleanLaw.bool_of_value {a b : Node} (law : BooleanLaw a b) {depth : Nat}
    {world left : World} {value : Value} {effects : List Effect}
    (ends : (traced depth (.evaluate engine scope a)).course world =
      (some (.ok value, left), effects)) : ∃ truth, value = .bool truth := by
  cases depth with
  | zero => cases ends
  | succ depth =>
    have both : ∃ run : Traced Bool,
        traced (depth + 1) (.evaluate engine scope a) = run.toValue := by
      cases law with
      | notAnd a b => exact ⟨_, traced_not depth engine scope _⟩
      | notOr a b => exact ⟨_, traced_not depth engine scope _⟩
      | andAssoc a b c => exact ⟨_, traced_junction depth engine scope false _ _⟩
      | orAssoc a b c => exact ⟨_, traced_junction depth engine scope true _ _⟩
    obtain ⟨run, same⟩ := both
    rw [same] at ends
    exact bool_of_toValue ends

end Laws

/-! ## Rewriting anywhere -/

section Rewriting

open Traced

/-- The expressions come to the same ends with the same effects, or go on alike for ever, whatever
depth each of them takes. -/
structure SameCourse (engine : EngineId) (scope : Scope) (world : World) (a b : Node) : Prop where
  ends : ∀ outcome left effects,
    (∃ depth, (traced depth (.evaluate engine scope a)).course world =
        (some (outcome, left), effects)) ↔
      ∃ depth, (traced depth (.evaluate engine scope b)).course world =
        (some (outcome, left), effects)
  begins : ∀ effects,
    (∃ depth, effects <+: (traced depth (.evaluate engine scope a)).effects world) ↔
      ∃ depth, effects <+: (traced depth (.evaluate engine scope b)).effects world

variable {engine : EngineId} {scope : Scope} {world : World} {a b c : Node}

theorem SameCourse.refl (a : Node) : SameCourse engine scope world a a :=
  ⟨fun _ _ _ => Iff.rfl, fun _ => Iff.rfl⟩

theorem SameCourse.trans (first : SameCourse engine scope world a b)
    (second : SameCourse engine scope world b c) : SameCourse engine scope world a c :=
  ⟨fun outcome left effects => (first.ends outcome left effects).trans
    (second.ends outcome left effects), fun effects => (first.begins effects).trans
    (second.begins effects)⟩

/-- Two expressions have the same course if each is prolonged by the other one. -/
theorem SameCourse.of_prolonged {extra : Nat}
    (there : ∀ depth, (traced depth (.evaluate engine scope a)).ProlongedBy
      (traced (extra + depth) (.evaluate engine scope b)))
    (back : ∀ depth, (traced depth (.evaluate engine scope b)).ProlongedBy
      (traced (extra + depth) (.evaluate engine scope a))) :
    SameCourse engine scope world a b where
  ends _ _ _ :=
    ⟨fun ⟨depth, ends⟩ => ⟨extra + depth, (there depth).course_eq ends⟩,
      fun ⟨depth, ends⟩ => ⟨extra + depth, (back depth).course_eq ends⟩⟩
  begins _ :=
    ⟨fun ⟨depth, begins⟩ => ⟨extra + depth, begins.trans ((there depth).begins world)⟩,
      fun ⟨depth, begins⟩ => ⟨extra + depth, begins.trans ((back depth).begins world)⟩⟩

/-- One use of a law, at any place. What is around it has the same form before and after. -/
theorem Rewrites.prolonged (rewrites : Rewrites a b) (depth : Nat) :
    (traced depth (.evaluate engine scope a)).ProlongedBy
      (traced (1 + depth) (.evaluate engine scope b)) := by
  intro world
  refine @evaluateAt_prolonged .free engine scope scope (Proviso.blindTo_self _ _ _)
    (fun a b => a = b ∨ Rewrites a b) 1 ?_ depth a b (.inr rewrites) world
  have same : ∀ nodes : List Node,
      List.Forall₂ (fun a b => a = b ∨ Rewrites a b) nodes nodes :=
    fun nodes => List.forall₂_same.mpr fun _ _ => .inl rfl
  have amid : ∀ before after {a b : Node}, Rewrites a b →
      List.Forall₂ (fun a b => a = b ∨ Rewrites a b) (before ++ a :: after) (before ++ b :: after) :=
    fun before after _ _ step => List.rel_append (same before) (.cons (.inr step) (same after))
  rintro a b (rfl | step)
  · exact .inl ⟨.refl (fun _ => .inl rfl) a, fun _ _ => rfl⟩
  · cases step with
    | here law =>
      refine .inr fun depth => ?_
      rw [Nat.add_comm 1]
      exact (law.prolonged engine scope (depth + 1)).1
    | back law =>
      refine .inr fun depth => ?_
      rw [Nat.add_comm 1]
      exact (law.prolonged engine scope (depth + 1)).2
    | operand op step => exact .inl ⟨.unary op (.inr step), fun _ _ => rfl⟩
    | left op right step => exact .inl ⟨.binary op (.inr step) (.inl rfl), fun _ _ => rfl⟩
    | right op left step => exact .inl ⟨.binary op (.inl rfl) (.inr step), fun _ _ => rfl⟩
    | argument function before after step =>
      exact .inl ⟨.call function (amid before after step), fun _ _ => rfl⟩
    | item before after step => exact .inl ⟨.list (amid before after step), fun _ _ => rfl⟩

/-- Expressions may be rewritten by the laws of `not`, `and` and `or`, in either direction, as often
as one likes, wherever they stand outside arrow bodies.

* Before and after, the evaluation comes to the same outcome in the same world, and on the way it does
  the same things in the same order: functions are called, registered and so on. If it does not end,
  it goes on alike.
* The two sides of a law come to a truth, or else to an error. -/
theorem evaluate_of_rewritten (rewritten : Relation.ReflTransGen Rewrites a b) (engine : EngineId)
    (scope : Scope) (world : World) :
    SameCourse engine scope world a b ∧
    ∀ c d, BooleanLaw c d → SameCourse engine scope world c d ∧
      ∀ depth value left, Yields (engine.evaluate depth scope c) world (.ok value) left →
        ∃ truth, value = .bool truth := by
  have one : ∀ {x y : Node}, Rewrites x y → SameCourse engine scope world x y :=
    fun step => .of_prolonged step.prolonged step.symm.prolonged
  refine ⟨?_, fun c d law => ⟨one (.here law), fun depth value left ran => ?_⟩⟩
  · induction rewritten with
    | refl => exact .refl a
    | tail _ step ih => exact ih.trans (one step)
  · have ends : (traced depth (.evaluate engine scope c)).course world =
        (some (.ok value, left), (traced depth (.evaluate engine scope c)).effects world) :=
      Prod.ext ran rfl
    exact law.bool_of_value engine scope ends

end Rewriting

open Traced in
/-- `[tick(not (tick() and false)), tick()]`, where `tick` counts its calls, becomes
`[tick((not tick()) or (not false)), tick()]` and is evaluated to the same with the same effects. -/
theorem evaluate_of_rewritten_tick :
    let tick : HostFunction := ⟨"tick", HostFunction.plainCode "tick", Stock.counter ⟨0⟩⟩
    let world : World := (((Builder.empty.function tick).build .empty).2.addCell .null).2
    let call : List Node → Node := .call "tick"
    let false_ : Node := .constant (.bool false)
    let before : Node := .list [call [.unary .not (.binary .and (call []) false_)], call []]
    let after : Node :=
      .list [call [.binary .or (.unary .not (call [])) (.unary .not false_)], call []]
    Relation.ReflTransGen Rewrites before after ∧
    ∃ depth left, (traced depth (.evaluate ⟨0⟩ .empty after)).course world =
      (some (.ok (.list [.int 2, .int 3]), left),
        [.start (.function tick []), .store ⟨0⟩ (.int 1),
          .start (.function tick [.bool true]), .store ⟨0⟩ (.int 2),
          .start (.function tick []), .store ⟨0⟩ (.int 3)]) := by
  intro tick world call false_ before after
  have rewritten : Relation.ReflTransGen Rewrites before after :=
    .single (.item [] [call []] (.argument "tick" [] [] (.here (.notAnd _ _))))
  obtain ⟨left, ends⟩ : ∃ left, (traced 6 (.evaluate ⟨0⟩ .empty before)).course world =
      (some (.ok (.list [.int 2, .int 3]), left),
        [.start (.function tick []), .store ⟨0⟩ (.int 1),
          .start (.function tick [.bool true]), .store ⟨0⟩ (.int 2),
          .start (.function tick []), .store ⟨0⟩ (.int 3)]) := by
    subst before after false_ call world tick
    exact ⟨_, rfl⟩
  obtain ⟨depth, endsToo⟩ :=
    ((evaluate_of_rewritten rewritten ⟨0⟩ .empty world).1.ends _ _ _).mp ⟨6, ends⟩
  exact ⟨rewritten, depth, left, endsToo⟩

end ArrowExpr
