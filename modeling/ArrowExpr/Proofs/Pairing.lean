import ArrowExpr.Proofs.Binding
import ArrowExpr.Proofs.Callables
import Mathlib.Data.List.Forall2
/-!
# Values that differ only in their callables

A `Pairing` says which callables of one run stand for which of another. Two values are paired if
they are equal up to that. No operator can tell them apart: it yields the same outcome of both
(`BinaryOp.apply_eq_of_paired`, `UnaryOp.apply_eq_of_paired`), and what is picked from paired
arguments is paired (`Builtins.extreme_paired`).
-/

namespace ArrowExpr

/-- Which callables stand for each other: the no-op for itself, and equal ones for equal ones. -/
structure Pairing where
  rel : CallableId → CallableId → Prop
  noop : rel .noop .noop
  unique : ∀ {a b other otherB}, rel a b → rel other otherB → (a = other ↔ b = otherB)

/-- Each callable stands for itself. -/
def Pairing.same : Pairing where
  rel := Eq
  noop := rfl
  unique := by
    rintro a b other otherB rfl rfl
    exact Iff.rfl

/-- One more pair of callables, both of which are new. -/
def Pairing.extend (pairing : Pairing) (a b : CallableId)
    (new : ∀ c d, pairing.rel c d → c ≠ a ∧ d ≠ b) : Pairing where
  rel c d := pairing.rel c d ∨ c = a ∧ d = b
  noop := .inl pairing.noop
  unique := by
    rintro c d other otherD (related | ⟨rfl, rfl⟩) (otherRelated | ⟨rfl, rfl⟩)
    · exact pairing.unique related otherRelated
    · exact iff_of_false (new _ _ related).1 (new _ _ related).2
    · exact iff_of_false (new _ _ otherRelated).1.symm (new _ _ otherRelated).2.symm
    · exact iff_of_true rfl rfl

/-- The values are equal up to callables that stand for each other. -/
inductive Value.Paired (pairing : Pairing) : Value → Value → Prop
  | null : Paired pairing .null .null
  | bool (b : Bool) : Paired pairing (.bool b) (.bool b)
  | int (n : Int64) : Paired pairing (.int n) (.int n)
  | float (x : Float) : Paired pairing (.float x) (.float x)
  | str (s : String) : Paired pairing (.str s) (.str s)
  | list {items others : List Value} :
      List.Forall₂ (Paired pairing) items others → Paired pairing (.list items) (.list others)
  | callable {a b : CallableId} : pairing.rel a b → Paired pairing (.callable a) (.callable b)

/-- Both outcomes are the same error, or values that are paired. -/
inductive Outcome.Paired (pairing : Pairing) : Outcome → Outcome → Prop
  | value {value other : Value} :
      value.Paired pairing other → Paired pairing (.ok value) (.ok other)
  | error (error : EvalError) : Paired pairing (.error error) (.error error)

/-- The scopes bind the same names, to values that are paired. -/
def Scope.Paired (pairing : Pairing) (scope other : Scope) : Prop :=
  ∀ name, Option.Rel (Value.Paired pairing) (scope.lookup? name) (other.lookup? name)

variable {pairing : Pairing}

namespace Value

mutual

/-- A value is paired with itself if all its callables stand for themselves. -/
theorem Paired.self : ∀ {value : Value}, value.Within {id | pairing.rel id id} →
    value.Paired pairing value
  | .null, _ => .null
  | .bool b, _ => .bool b
  | .int n, _ => .int n
  | .float x, _ => .float x
  | .str s, _ => .str s
  | .list _, same => .list (Paired.selfAll same.items)
  | .callable id, same => .callable (same id .self)

theorem Paired.selfAll : ∀ {values : List Value},
    (∀ value ∈ values, value.Within {id | pairing.rel id id}) →
    List.Forall₂ (Value.Paired pairing) values values
  | [], _ => .nil
  | _ :: _, same =>
    .cons (Paired.self (same _ List.mem_cons_self))
      (Paired.selfAll fun other there => same other (List.mem_cons_of_mem _ there))

end

mutual

/-- More callables may stand for each other. -/
theorem Paired.mono {more : Pairing} (sub : ∀ a b, pairing.rel a b → more.rel a b) :
    ∀ {value other : Value}, value.Paired pairing other → value.Paired more other
  | _, _, .null => .null
  | _, _, .bool b => .bool b
  | _, _, .int n => .int n
  | _, _, .float x => .float x
  | _, _, .str s => .str s
  | _, _, .list items => .list (Paired.monoAll sub items)
  | _, _, .callable related => .callable (sub _ _ related)

theorem Paired.monoAll {more : Pairing} (sub : ∀ a b, pairing.rel a b → more.rel a b) :
    ∀ {values others : List Value}, List.Forall₂ (Value.Paired pairing) values others →
      List.Forall₂ (Value.Paired more) values others
  | _, _, .nil => .nil
  | _, _, .cons first rest => .cons (Paired.mono sub first) (Paired.monoAll sub rest)

end

mutual

/-- Equality does not tell which callables there are, only which are equal. -/
theorem Paired.beq_eq : ∀ {a b other otherB : Value}, a.Paired pairing b →
    other.Paired pairing otherB → Value.beq a other = Value.beq b otherB
  | _, _, _, _, .list items, second => by
    cases second with
    | list others =>
      rw [Value.beq, Value.beq]
      exact Paired.beqAll_eq items others
    | _ => rfl
  | _, _, _, _, .callable first, second => by
    cases second with
    | callable second =>
      rw [Value.beq, Value.beq, Bool.eq_iff_iff, beq_iff_eq, beq_iff_eq]
      exact pairing.unique first second
    | _ => rfl
  | _, _, _, _, .null, second | _, _, _, _, .bool _, second | _, _, _, _, .int _, second
  | _, _, _, _, .float _, second | _, _, _, _, .str _, second => by
    cases second <;> rfl

theorem Paired.beqAll_eq : ∀ {as bs others otherBs : List Value},
    List.Forall₂ (Value.Paired pairing) as bs → List.Forall₂ (Value.Paired pairing) others otherBs →
    Value.beqAll as others = Value.beqAll bs otherBs
  | _, _, _, _, .nil, .nil => rfl
  | _, _, _, _, .nil, .cons _ _ => rfl
  | _, _, _, _, .cons _ _, .nil => rfl
  | _, _, _, _, .cons first rest, .cons otherFirst otherRest => by
    rw [Value.beqAll, Value.beqAll, Paired.beq_eq first otherFirst, Paired.beqAll_eq rest otherRest]

end

namespace Paired

variable {a b other otherB : Value}

theorem typeName_eq (paired : a.Paired pairing b) : a.typeName = b.typeName := by
  cases paired <;> rfl

theorem isTruthy_eq (paired : a.Paired pairing b) : a.isTruthy = b.isTruthy := by
  cases paired with
  | list items => cases items <;> rfl
  | _ => rfl

theorem text?_eq (paired : a.Paired pairing b) : a.text? = b.text? := by
  cases paired <;> rfl

theorem floats?_eq (paired : a.Paired pairing b) (otherPaired : other.Paired pairing otherB) :
    floats? a other = floats? b otherB := by
  cases paired <;> cases otherPaired <;> rfl

theorem looselyEqual_eq (paired : a.Paired pairing b) (otherPaired : other.Paired pairing otherB) :
    a.looselyEqual other = b.looselyEqual otherB := by
  have same : (a == other) = (b == otherB) := paired.beq_eq otherPaired
  rw [looselyEqual, looselyEqual, paired.floats?_eq otherPaired, same]

end Paired

end Value

/-- A scope is paired with itself if all its callables stand for themselves. -/
theorem Scope.Paired.self {scope : Scope} (within : scope.Within {id | pairing.rel id id}) :
    scope.Paired pairing scope := by
  intro name
  have bound := within name
  generalize scope.lookup? name = value at bound ⊢
  cases value with
  | none => exact .none
  | some value => exact .some (.self (bound value rfl))

theorem Scope.Paired.mono {more : Pairing} (sub : ∀ a b, pairing.rel a b → more.rel a b)
    {scope other : Scope} (paired : scope.Paired pairing other) : scope.Paired more other := by
  intro name
  have bound := paired name
  generalize scope.lookup? name = value at bound ⊢
  generalize other.lookup? name = otherValue at bound ⊢
  cases bound with
  | none => exact .none
  | some values => exact .some (values.mono sub)

theorem Scope.Paired.empty : Scope.empty.Paired pairing Scope.empty := by
  intro name
  rw [Scope.lookup?_empty]
  exact .none

theorem Scope.Paired.define {scope other : Scope} (paired : scope.Paired pairing other)
    (x : String) {value otherValue : Value} (values : value.Paired pairing otherValue) :
    (scope.define x value).Paired pairing (other.define x otherValue) := by
  intro name
  rw [Scope.lookup?_define, Scope.lookup?_define]
  split
  · exact .some values
  · exact paired name

/-- Paired arguments give paired scopes. -/
theorem Scope.Paired.defineAll {arguments others : List Value}
    (paired : List.Forall₂ (Value.Paired pairing) arguments others) (parameters : List String)
    {scope other : Scope} (scopes : scope.Paired pairing other) :
    (scope.defineAll (parameters.zip arguments)).Paired pairing
      (other.defineAll (parameters.zip others)) := by
  induction paired generalizing parameters scope other with
  | nil =>
    rw [List.zip_nil_right]
    exact scopes
  | cons first _ ih =>
    cases parameters with
    | nil => exact scopes
    | cons parameter rest => exact ih rest (scopes.define parameter first)

/-! ## Operators -/

namespace BinaryOp

variable {a b other otherB : Value}

theorem mismatch_eq (paired : a.Paired pairing b) (otherPaired : other.Paired pairing otherB)
    (op : BinaryOp) : op.mismatch a other = op.mismatch b otherB := by
  rw [mismatch, mismatch, paired.typeName_eq, otherPaired.typeName_eq]

theorem arithmetic_eq (paired : a.Paired pairing b) (otherPaired : other.Paired pairing otherB)
    (op : BinaryOp) (exact : Int → Int → Int) (rounded : Float → Float → Float) :
    op.arithmetic exact rounded a other = op.arithmetic exact rounded b otherB := by
  cases paired <;> cases otherPaired <;> rfl

theorem divide_eq (paired : a.Paired pairing b) (otherPaired : other.Paired pairing otherB) :
    divide a other = divide b otherB := by
  cases paired <;> cases otherPaired <;> rfl

theorem remainder_eq (paired : a.Paired pairing b) (otherPaired : other.Paired pairing otherB) :
    remainder a other = remainder b otherB := by
  cases paired <;> cases otherPaired <;> rfl

theorem join_eq (paired : a.Paired pairing b) (otherPaired : other.Paired pairing otherB) :
    join a other = join b otherB := by
  rw [join, join, paired.text?_eq, otherPaired.text?_eq, mismatch_eq paired otherPaired]

theorem order?_eq (paired : a.Paired pairing b) (otherPaired : other.Paired pairing otherB) :
    order? a other = order? b otherB := by
  cases paired <;> cases otherPaired <;> rfl

theorem comparison_eq (paired : a.Paired pairing b) (otherPaired : other.Paired pairing otherB)
    (op : BinaryOp) (holds : Ordering → Bool) :
    op.comparison holds a other = op.comparison holds b otherB := by
  rw [comparison, comparison, order?_eq paired otherPaired, mismatch_eq paired otherPaired]

/-- An operator yields the same of values that are paired. -/
theorem apply_eq_of_paired (paired : a.Paired pairing b) (otherPaired : other.Paired pairing otherB)
    (op : BinaryOp) : op.apply a other = op.apply b otherB := by
  cases op with
  | add => exact arithmetic_eq paired otherPaired _ _ _
  | sub => exact arithmetic_eq paired otherPaired _ _ _
  | mul => exact arithmetic_eq paired otherPaired _ _ _
  | div => exact divide_eq paired otherPaired
  | mod => exact remainder_eq paired otherPaired
  | concat => exact join_eq paired otherPaired
  | eq => rw [apply, apply, paired.looselyEqual_eq otherPaired]
  | notEq => rw [apply, apply, paired.looselyEqual_eq otherPaired]
  | lt => exact comparison_eq paired otherPaired _ _
  | ltEq => exact comparison_eq paired otherPaired _ _
  | gt => exact comparison_eq paired otherPaired _ _
  | gtEq => exact comparison_eq paired otherPaired _ _
  | and => rw [apply, apply, paired.isTruthy_eq, otherPaired.isTruthy_eq]
  | or => rw [apply, apply, paired.isTruthy_eq, otherPaired.isTruthy_eq]

end BinaryOp

theorem UnaryOp.apply_eq_of_paired {a b : Value} (paired : a.Paired pairing b) (op : UnaryOp) :
    op.apply a = op.apply b := by
  cases op with
  | not =>
    cases paired with
    | list items => cases items <;> rfl
    | _ => rfl
  | neg => cases paired <;> rfl
  | pos => cases paired <;> rfl

/-- What an operator yields has no callables, so it is paired with itself. -/
theorem Outcome.Paired.of_plain {outcome : Outcome} (plain : outcome.Plain) :
    outcome.Paired pairing outcome := by
  cases plain with
  | value none => exact .value (.self fun id holds => absurd holds (none id))
  | error _ => exact .error _

/-! ## What builtins pick -/

namespace Builtins

theorem unbeaten_paired (op : BinaryOp) {best otherBest : Value} {values others : List Value}
    (bestPaired : best.Paired pairing otherBest)
    (paired : List.Forall₂ (Value.Paired pairing) values others) :
    (unbeaten op best values).Paired pairing (unbeaten op otherBest others) := by
  induction paired generalizing best otherBest with
  | nil => exact .value bestPaired
  | cons candidatePaired _ ih =>
    rw [unbeaten, unbeaten, op.apply_eq_of_paired candidatePaired bestPaired]
    split
    · exact .error _
    · refine ih ?_
      split
      · exact candidatePaired
      · exact bestPaired

/-- The extreme of paired arguments is paired. -/
theorem extreme_paired (name : String) (op : BinaryOp) {values others : List Value}
    (paired : List.Forall₂ (Value.Paired pairing) values others) :
    (extreme name op values).Paired pairing (extreme name op others) := by
  cases paired with
  | nil => exact .error _
  | cons first rest => exact unbeaten_paired op first rest

end Builtins

end ArrowExpr
