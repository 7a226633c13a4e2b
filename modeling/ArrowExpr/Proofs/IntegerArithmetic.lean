import ArrowExpr.Proofs.Operators
import ArrowExpr.Proofs.Termination
import Mathlib.Data.Rat.Floor
import Mathlib.Tactic.FinCases
/-!
# Integer arithmetic is exact

The value of an arithmetic expression over integers is known before anything is evaluated: it is a
rational number (`Node.exactValue?`). Evaluation has nothing but 64 bits for it, and floats for
quotients that are not integers. Still an integer result is never a wrong one:

1. an operator yields an integer only if that is the exact result, and then its operands are integers
   (`BinaryOp.exactValue?_of_apply_eq_int`, `UnaryOp.exactValue?_of_apply_eq_int`);
2. so all parts of an expression with an integer result are exact (`Node.exact_of_yields_int`);
3. without division evaluation can only fail because a part does not fit, and the error is that of
   the first such part, with operands before operators (`Node.settles`).

`integer_arithmetic` puts this together.
-/

namespace ArrowExpr

/-! ## Exact values -/

/-- A quotient rounded towards zero. -/
def truncated (q : ℚ) : ℤ := if 0 ≤ q then ⌊q⌋ else ⌈q⌉

/-- The exact value of a sign in front of a number. -/
def UnaryOp.exactValue? : UnaryOp → ℚ → Option ℚ
  | neg, a => some (-a)
  | pos, a => some a
  | not, _ => none

/-- The exact value of an operator between two numbers, of which the divisor must not be zero. -/
def BinaryOp.exactValue? : BinaryOp → ℚ → ℚ → Option ℚ
  | add, a, b => some (a + b)
  | sub, a, b => some (a - b)
  | mul, a, b => some (a * b)
  | div, a, b => if b = 0 then none else some (a / b)
  | mod, a, b => if b = 0 then none else some (a - b * truncated (a / b))
  | _, _, _ => none

namespace Node

/-- The exact value of an expression: an operator is applied to the exact values of its operands. -/
def exactValue? (scope : Scope) : Node → Option ℚ
  | .constant (.int n) => some n.toInt
  | .name x =>
    match scope.lookup? x with
    | some (.int n) => some n.toInt
    | _ => none
  | .unary op operand => (operand.exactValue? scope).bind op.exactValue?
  | .binary op left right =>
    (left.exactValue? scope).bind fun a =>
      (right.exactValue? scope).bind fun b => op.exactValue? a b
  | _ => none

/-- An expression of signs, integers, names of integers, and some binary operators. -/
inductive IsArithmetic (operators : List BinaryOp) (scope : Scope) : Node → Prop
  | constant (n : Int64) : IsArithmetic operators scope (.constant (.int n))
  | name {x : String} {n : Int64} :
      scope.lookup? x = some (.int n) → IsArithmetic operators scope (.name x)
  | unary {op : UnaryOp} {operand : Node} :
      op ∈ [UnaryOp.neg, UnaryOp.pos] → IsArithmetic operators scope operand →
      IsArithmetic operators scope (.unary op operand)
  | binary {op : BinaryOp} {left right : Node} :
      op ∈ operators → IsArithmetic operators scope left → IsArithmetic operators scope right →
      IsArithmetic operators scope (.binary op left right)

/-- The parts of an expression, each one after its own parts and these from left to right. -/
def postOrder : Node → List Node
  | .unary op operand => operand.postOrder ++ [.unary op operand]
  | .binary op left right => left.postOrder ++ right.postOrder ++ [.binary op left right]
  | node => [node]

/-- The spelling of the operator that an expression ends in. -/
def symbol? : Node → Option String
  | .unary op _ => some op.symbol
  | .binary op _ _ => some op.symbol
  | _ => none

/-- The exact value is an integer of 64 bits. -/
def Fits (scope : Scope) (node : Node) : Prop :=
  ∃ n : Int64, node.exactValue? scope = some (n.toInt : ℚ)

/-- The first part that does not fit has an operator that is spelled so. -/
def OverflowsAt (scope : Scope) (node : Node) (symbol : String) : Prop :=
  ∃ before culprit after, node.postOrder = before ++ culprit :: after ∧
    (∀ part ∈ before, part.Fits scope) ∧ ¬culprit.Fits scope ∧ culprit.symbol? = some symbol

end Node

/-! ## Rounding towards zero -/

theorem truncated_neg (q : ℚ) : truncated (-q) = -truncated q := by
  rcases lt_trichotomy q 0 with negative | rfl | positive
  · rw [truncated, if_pos (neg_nonneg.mpr negative.le), truncated, if_neg negative.not_ge,
      Int.floor_neg]
  · rfl
  · rw [truncated, if_neg (neg_neg_of_pos positive).not_ge, truncated, if_pos positive.le,
      Int.ceil_neg]

theorem truncated_natCast_div (a b : ℕ) : truncated ((a : ℚ) / b) = (a / b : ℕ) := by
  rw [truncated, if_pos (by positivity)]
  exact Rat.floor_natCast_div_natCast a b

theorem truncated_div (a b : ℤ) : truncated ((a : ℚ) / b) = a.tdiv b := by
  obtain ⟨m, rfl | rfl⟩ := a.eq_nat_or_neg <;> obtain ⟨n, rfl | rfl⟩ := b.eq_nat_or_neg <;>
    simp [neg_div, div_neg, truncated_neg, truncated_natCast_div, Int.tdiv_neg, Int.neg_tdiv]

/-! ## What operators yield of integers -/

namespace BinaryOp

variable {op : BinaryOp} {x y : Value} {n : ℤ} {v : Int64}

theorem eq_of_fitting (fits : op.fitting n = .ok (.int v)) : v.toInt = n := by
  rcases op.fitting_cases n with ⟨m, same, yields⟩ | ⟨-, fails⟩
  · cases fits.symm.trans yields
    exact same
  · cases fits.symm.trans fails

theorem eq_int_of_arithmetic {exact : ℤ → ℤ → ℤ} {rounded : Float → Float → Float}
    (yields : op.arithmetic exact rounded x y = .ok (.int v)) :
    ∃ a b : Int64, x = .int a ∧ y = .int b ∧ v.toInt = exact a.toInt b.toInt := by
  unfold arithmetic at yields
  split at yields
  next a b => exact ⟨a, b, rfl, rfl, eq_of_fitting yields⟩
  next => split at yields <;> cases yields

theorem eq_int_of_divide (yields : divide x y = .ok (.int v)) :
    ∃ a b : Int64, x = .int a ∧ y = .int b ∧ b.toInt ≠ 0 ∧ v.toInt * b.toInt = a.toInt := by
  unfold divide at yields
  split at yields
  next a b =>
    split at yields
    next => cases yields
    next nonzero =>
      split at yields
      next whole =>
        refine ⟨a, b, rfl, rfl, fun zero => nonzero (Int64.toInt_inj.mp zero), ?_⟩
        rw [eq_of_fitting yields]
        exact Int.tdiv_mul_cancel (Int.dvd_of_tmod_eq_zero whole)
      next => cases yields
  next =>
    split at yields
    next => split at yields <;> cases yields
    next => cases yields

theorem eq_int_of_remainder (yields : remainder x y = .ok (.int v)) :
    ∃ a b : Int64, x = .int a ∧ y = .int b ∧ b.toInt ≠ 0 ∧
      v.toInt = a.toInt.tmod b.toInt := by
  unfold remainder at yields
  split at yields
  next a b =>
    split at yields
    next => cases yields
    next nonzero =>
      have nonzero : b.toInt ≠ 0 := fun zero => nonzero (Int64.toInt_inj.mp zero)
      split at yields
      next =>
        cases yields
        refine ⟨a, b, rfl, rfl, nonzero, ?_⟩
        have least : -2 ^ 63 ≤ b.toInt := Int64.minValue_le_toInt b
        have greatest : b.toInt ≤ 2 ^ 63 - 1 := Int64.toInt_le b
        have small := Int.natAbs_tmod a.toInt b.toInt
        have below := Nat.mod_lt a.toInt.natAbs (Int.natAbs_pos.mpr nonzero)
        exact Int64.toInt_ofInt_of_le (by omega) (by omega)
      next => cases yields
  next => cases yields

theorem join_ne_int : join x y ≠ .ok (.int v) := by
  unfold join
  split <;> exact nofun

theorem comparison_ne_int {holds : Ordering → Bool} : op.comparison holds x y ≠ .ok (.int v) := by
  unfold comparison
  split <;> exact nofun

/-- An operator yields an integer only of integers, and only the exact one. -/
theorem exactValue?_of_apply_eq_int (yields : op.apply x y = .ok (.int v)) :
    ∃ a b : Int64, x = .int a ∧ y = .int b ∧
      op.exactValue? a.toInt b.toInt = some (v.toInt : ℚ) := by
  cases op with
  | add =>
    obtain ⟨a, b, rfl, rfl, result⟩ := eq_int_of_arithmetic yields
    exact ⟨a, b, rfl, rfl, by rw [exactValue?, result, Int.cast_add]⟩
  | sub =>
    obtain ⟨a, b, rfl, rfl, result⟩ := eq_int_of_arithmetic yields
    exact ⟨a, b, rfl, rfl, by rw [exactValue?, result, Int.cast_sub]⟩
  | mul =>
    obtain ⟨a, b, rfl, rfl, result⟩ := eq_int_of_arithmetic yields
    exact ⟨a, b, rfl, rfl, by rw [exactValue?, result, Int.cast_mul]⟩
  | div =>
    obtain ⟨a, b, rfl, rfl, nonzero, result⟩ := eq_int_of_divide yields
    have divisor : (b.toInt : ℚ) ≠ 0 := Int.cast_ne_zero.mpr nonzero
    refine ⟨a, b, rfl, rfl, ?_⟩
    rw [exactValue?, if_neg divisor, ← result, Int.cast_mul, mul_div_cancel_right₀ _ divisor]
  | mod =>
    obtain ⟨a, b, rfl, rfl, nonzero, result⟩ := eq_int_of_remainder yields
    refine ⟨a, b, rfl, rfl, ?_⟩
    rw [exactValue?, if_neg (Int.cast_ne_zero.mpr nonzero), truncated_div, result, Int.tmod_def,
      Int.cast_sub, Int.cast_mul]
  | concat => exact absurd yields join_ne_int
  | lt | ltEq | gt | gtEq => exact absurd yields comparison_ne_int
  | _ => cases yields

/-- The sum, difference or product of two integers is exact or an overflow. -/
theorem apply_int (member : op ∈ [add, sub, mul]) (a b : Int64) :
    ∃ n : ℤ, op.exactValue? a.toInt b.toInt = some (n : ℚ) ∧
      op.apply (.int a) (.int b) = op.fitting n := by
  fin_cases member
  · exact ⟨a.toInt + b.toInt, by rw [exactValue?, Int.cast_add], rfl⟩
  · exact ⟨a.toInt - b.toInt, by rw [exactValue?, Int.cast_sub], rfl⟩
  · exact ⟨a.toInt * b.toInt, by rw [exactValue?, Int.cast_mul], rfl⟩

end BinaryOp

namespace UnaryOp

/-- An operator yields an integer only of an integer, and only the exact one. -/
theorem exactValue?_of_apply_eq_int {op : UnaryOp} {x : Value} {v : Int64}
    (yields : op.apply x = .ok (.int v)) :
    ∃ a : Int64, x = .int a ∧ op.exactValue? a.toInt = some (v.toInt : ℚ) := by
  unfold apply at yields
  split at yields
  next a =>
    split at yields
    next m fits =>
      cases yields
      exact ⟨a, rfl, by rw [exactValue?, int64?_eq_some_iff.mp fits, Int.cast_neg]⟩
    next => cases yields
  next => cases yields
  next =>
    cases yields
    exact ⟨v, rfl, rfl⟩
  all_goals cases yields

/-- A sign in front of an integer is exact or an overflow. -/
theorem apply_int {op : UnaryOp} (member : op ∈ [neg, pos]) (a : Int64) :
    ∃ n : ℤ, op.exactValue? a.toInt = some (n : ℚ) ∧
      ((∃ m : Int64, m.toInt = n ∧ op.apply (.int a) = .ok (.int m)) ∨
        (∀ m : Int64, m.toInt ≠ n) ∧ op.apply (.int a) = .error (.integerOverflow op.symbol)) := by
  fin_cases member
  · refine ⟨-a.toInt, by rw [exactValue?, Int.cast_neg], ?_⟩
    rcases int64?_cases (-a.toInt) with ⟨m, same, fits⟩ | ⟨large, fits⟩
    · exact .inl ⟨m, same, by rw [apply, fits]⟩
    · exact .inr ⟨large, by rw [apply, fits]⟩
  · exact ⟨a.toInt, rfl, .inl ⟨a, rfl, rfl⟩⟩

end UnaryOp

/-! ## Expressions -/

section Evaluation

variable {engine : EngineId} {scope : Scope} {depth : ℕ} {world left : World}

namespace Node

variable {a b : ℚ} {n : Int64}

theorem exactValue?_unary {op : UnaryOp} {operand : Node}
    (value : operand.exactValue? scope = some a) :
    (Node.unary op operand).exactValue? scope = op.exactValue? a := by
  rw [exactValue?, value]
  rfl

theorem exactValue?_binary {op : BinaryOp} {left right : Node}
    (leftValue : left.exactValue? scope = some a)
    (rightValue : right.exactValue? scope = some b) :
    (Node.binary op left right).exactValue? scope = op.exactValue? a b := by
  rw [exactValue?, leftValue, rightValue]
  rfl

theorem exactValue?_name {x : String} (bound : scope.lookup? x = some (.int n)) :
    (Node.name x).exactValue? scope = some (n.toInt : ℚ) := by
  rw [exactValue?, bound]

/-- Evaluation yields the exact value of the expression and has no effect. -/
def YieldsExact (engine : EngineId) (scope : Scope) (depth : ℕ) (world : World) (node : Node)
    (n : Int64) : Prop :=
  node.exactValue? scope = some (n.toInt : ℚ) ∧
    Yields (evaluateAt depth engine scope node) world (.ok (.int n)) world

theorem yieldsExact_constant (n : Int64) :
    (Node.constant (.int n)).YieldsExact engine scope (depth + 1) world n := ⟨rfl, rfl⟩

theorem yieldsExact_name {x : String} (bound : scope.lookup? x = some (.int n)) :
    (Node.name x).YieldsExact engine scope (depth + 1) world n :=
  ⟨exactValue?_name bound, evaluateAt_name bound depth world⟩

theorem YieldsExact.succ {node : Node} (yields : node.YieldsExact engine scope depth world n) :
    node.YieldsExact engine scope (depth + 1) world n :=
  ⟨yields.1, evaluateAt_of_le (Nat.le_succ depth) yields.2⟩

/-- An integer result is exact, and so are the results of all parts. -/
theorem exact_of_yields_int {node : Node}
    (arithmetic : node.IsArithmetic [.add, .sub, .mul, .div, .mod] scope) {v : Int64}
    (yields : Yields (evaluateAt depth engine scope node) world (.ok (.int v)) left) :
    left = world ∧ node.YieldsExact engine scope depth world v ∧
      ∀ part ∈ node.postOrder, ∃ n, part.YieldsExact engine scope depth world n := by
  induction arithmetic generalizing depth v left with
  | constant n =>
    cases depth with
    | zero => cases yields
    | succ depth =>
      cases yields
      exact ⟨rfl, yieldsExact_constant n, List.forall_mem_singleton.mpr ⟨n, yieldsExact_constant n⟩⟩
  | name bound =>
    cases depth with
    | zero => cases yields
    | succ depth =>
      cases (evaluateAt_name bound depth world).symm.trans yields
      exact ⟨rfl, yieldsExact_name bound, List.forall_mem_singleton.mpr ⟨_, yieldsExact_name bound⟩⟩
  | @unary op operand sign _ ih =>
    cases depth with
    | zero => cases yields
    | succ depth =>
      obtain ⟨value, middle, operandRan, applied⟩ :=
        Yields.exists_of_bind (evaluateAt_unary op operand ▸ yields)
      obtain ⟨outcome, rfl⟩ := yields_ofOutcome.mp applied
      obtain ⟨a, rfl, exact⟩ := UnaryOp.exactValue?_of_apply_eq_int outcome
      obtain ⟨rfl, ⟨operandValue, -⟩, parts⟩ := ih operandRan
      have whole : (Node.unary op operand).YieldsExact engine scope (depth + 1) middle v :=
        ⟨(exactValue?_unary operandValue).trans exact, yields⟩
      refine ⟨rfl, whole, List.forall_mem_append.mpr ⟨fun part there => ?_, ?_⟩⟩
      · exact (parts part there).imp fun _ => YieldsExact.succ
      · exact List.forall_mem_singleton.mpr ⟨v, whole⟩
  | @binary op leftNode rightNode member _ _ ihLeft ihRight =>
    cases depth with
    | zero => cases yields
    | succ depth =>
      have both : op.isShortCircuit = false := by fin_cases member <;> rfl
      obtain ⟨x, middle, leftRan, rest⟩ :=
        Yields.exists_of_bind (evaluateAt_binary both leftNode rightNode ▸ yields)
      obtain ⟨y, last, rightRan, applied⟩ := Yields.exists_of_bind rest
      obtain ⟨outcome, rfl⟩ := yields_ofOutcome.mp applied
      obtain ⟨a, b, rfl, rfl, exact⟩ := BinaryOp.exactValue?_of_apply_eq_int outcome
      obtain ⟨rfl, ⟨leftValue, -⟩, leftParts⟩ := ihLeft leftRan
      obtain ⟨rfl, ⟨rightValue, -⟩, rightParts⟩ := ihRight rightRan
      have whole : (Node.binary op leftNode rightNode).YieldsExact engine scope (depth + 1) last v :=
        ⟨(exactValue?_binary leftValue rightValue).trans exact, yields⟩
      refine ⟨rfl, whole, List.forall_mem_append.mpr ⟨List.forall_mem_append.mpr ⟨?_, ?_⟩, ?_⟩⟩
      · exact fun part there => (leftParts part there).imp fun _ => YieldsExact.succ
      · exact fun part there => (rightParts part there).imp fun _ => YieldsExact.succ
      · exact List.forall_mem_singleton.mpr ⟨v, whole⟩

/-- Either all parts fit and evaluation yields the exact value, or it fails for the first part that
does not fit. -/
inductive Settles (engine : EngineId) (scope : Scope) (depth : ℕ) (world : World) (node : Node) :
    Prop
  | exact {n : Int64} : (∀ part ∈ node.postOrder, part.Fits scope) →
      node.YieldsExact engine scope depth world n → Settles engine scope depth world node
  | overflow {symbol : String} : node.OverflowsAt scope symbol →
      Yields (evaluateAt depth engine scope node) world (.error (.integerOverflow symbol)) world →
      Settles engine scope depth world node

/-- The first part that does not fit is that of the first part in which there is one. -/
theorem OverflowsAt.of_part {node part : Node} {before after : List Node} {symbol : String}
    (order : node.postOrder = before ++ part.postOrder ++ after)
    (fit : ∀ earlier ∈ before, earlier.Fits scope) (overflows : part.OverflowsAt scope symbol) :
    node.OverflowsAt scope symbol := by
  obtain ⟨inner, culprit, later, partOrder, innerFit, tooLarge, spelled⟩ := overflows
  refine ⟨before ++ inner, culprit, later ++ after, ?_, List.forall_mem_append.mpr ⟨fit, innerFit⟩,
    tooLarge, spelled⟩
  rw [order, partOrder]
  simp only [List.append_assoc, List.cons_append]

/-- Evaluation settles an expression whose operator is applied to exact operands. -/
theorem settles_of_operands {node : Node} {operands : List Node} {symbol : String} {n : ℤ}
    (order : node.postOrder = operands ++ [node]) (fit : ∀ part ∈ operands, part.Fits scope)
    (spelled : node.symbol? = some symbol) (value : node.exactValue? scope = some (n : ℚ))
    (ran : (∃ m : Int64, m.toInt = n ∧
        Yields (evaluateAt depth engine scope node) world (.ok (.int m)) world) ∨
      (∀ m : Int64, m.toInt ≠ n) ∧ Yields (evaluateAt depth engine scope node) world
        (.error (.integerOverflow symbol)) world) :
    node.Settles engine scope depth world := by
  rcases ran with ⟨m, rfl, yields⟩ | ⟨large, fails⟩
  · refine .exact ?_ ⟨value, yields⟩
    rw [order, List.forall_mem_append, List.forall_mem_singleton]
    exact ⟨fit, m, value⟩
  · refine .overflow ⟨operands, node, [], order, fit, ?_, spelled⟩ fails
    rintro ⟨m, same⟩
    exact large m (Int.cast_injective (Option.some.inj (same.symm.trans value)))

/-- Without division evaluation yields the exact value, or it fails for the first part that does not
fit. -/
theorem settles {node : Node} (arithmetic : node.IsArithmetic [.add, .sub, .mul] scope)
    (enough : node.height ≤ depth) : node.Settles engine scope depth world := by
  obtain ⟨depth, rfl⟩ := Nat.exists_eq_succ_of_ne_zero ((height_pos node).trans_le enough).ne'
  induction arithmetic generalizing depth with
  | constant n =>
    exact .exact (List.forall_mem_singleton.mpr ⟨n, rfl⟩) (yieldsExact_constant n)
  | name bound =>
    exact .exact (List.forall_mem_singleton.mpr ⟨_, exactValue?_name bound⟩) (yieldsExact_name bound)
  | @unary op operand sign _ ih =>
    have enoughInside : operand.height ≤ depth := Nat.le_of_succ_le_succ enough
    obtain ⟨depth, rfl⟩ :=
      Nat.exists_eq_succ_of_ne_zero ((height_pos operand).trans_le enoughInside).ne'
    cases ih depth enoughInside with
    | overflow overflows fails =>
      have order : (Node.unary op operand).postOrder =
          [] ++ operand.postOrder ++ [.unary op operand] := rfl
      refine .overflow (.of_part order (List.forall_mem_nil _) overflows) ?_
      rw [evaluateAt_unary]
      exact fails.bind_error
    | @exact a fit yields =>
      obtain ⟨n, exact, applied⟩ := UnaryOp.apply_int sign a
      refine settles_of_operands rfl fit rfl ((exactValue?_unary yields.1).trans exact) ?_
      rw [evaluateAt_unary]
      rcases applied with ⟨m, same, outcome⟩ | ⟨large, outcome⟩
      · exact .inl ⟨m, same, yields.2.bind (yields_ofOutcome.mpr ⟨outcome, rfl⟩)⟩
      · exact .inr ⟨large, yields.2.bind (yields_ofOutcome.mpr ⟨outcome, rfl⟩)⟩
  | @binary op leftNode rightNode member _ _ ihLeft ihRight =>
    have enoughInside : max leftNode.height rightNode.height ≤ depth :=
      Nat.le_of_succ_le_succ enough
    have enoughLeft := le_of_max_le_left enoughInside
    obtain ⟨depth, rfl⟩ :=
      Nat.exists_eq_succ_of_ne_zero ((height_pos leftNode).trans_le enoughLeft).ne'
    have both : op.isShortCircuit = false := by fin_cases member <;> rfl
    cases ihLeft depth enoughLeft with
    | overflow overflows fails =>
      have order : (Node.binary op leftNode rightNode).postOrder =
          [] ++ leftNode.postOrder ++ (rightNode.postOrder ++ [.binary op leftNode rightNode]) :=
        List.append_assoc _ _ _
      refine .overflow (.of_part order (List.forall_mem_nil _) overflows) ?_
      rw [evaluateAt_binary both]
      exact fails.bind_error
    | @exact a leftFit leftYields =>
      cases ihRight depth (le_of_max_le_right enoughInside) with
      | overflow overflows fails =>
        refine .overflow (.of_part rfl leftFit overflows) ?_
        rw [evaluateAt_binary both]
        exact leftYields.2.bind fails.bind_error
      | @exact b rightFit rightYields =>
        obtain ⟨n, exact, applied⟩ := BinaryOp.apply_int member a b
        have value := (exactValue?_binary leftYields.1 rightYields.1).trans exact
        refine settles_of_operands rfl (List.forall_mem_append.mpr ⟨leftFit, rightFit⟩) rfl value ?_
        have ends {outcome : Outcome} (fits : op.fitting n = outcome) :
            Yields (evaluateAt (depth + 1 + 1) engine scope (.binary op leftNode rightNode)) world
              outcome world := by
          rw [evaluateAt_binary both]
          exact leftYields.2.bind
            (rightYields.2.bind (yields_ofOutcome.mpr ⟨applied.trans fits, rfl⟩))
        rcases op.fitting_cases n with ⟨m, same, fits⟩ | ⟨large, fits⟩
        · exact .inl ⟨m, same, ends fits⟩
        · exact .inr ⟨large, ends fits⟩

/-- Sums, differences and products have an exact integer value, and so do all their parts. -/
theorem exists_exactValue? {node : Node} (arithmetic : node.IsArithmetic [.add, .sub, .mul] scope) :
    (∃ n : ℤ, node.exactValue? scope = some (n : ℚ)) ∧
      ∀ part ∈ node.postOrder, ∃ n : ℤ, part.exactValue? scope = some (n : ℚ) := by
  induction arithmetic with
  | constant n => exact ⟨⟨n.toInt, rfl⟩, List.forall_mem_singleton.mpr ⟨n.toInt, rfl⟩⟩
  | @name x n bound =>
    have value := exactValue?_name bound
    exact ⟨⟨n.toInt, value⟩, List.forall_mem_singleton.mpr ⟨n.toInt, value⟩⟩
  | @unary op operand sign _ ih =>
    obtain ⟨⟨n, operandValue⟩, parts⟩ := ih
    have value : ∃ m : ℤ, (Node.unary op operand).exactValue? scope = some (m : ℚ) := by
      rw [exactValue?_unary operandValue]
      fin_cases sign
      · exact ⟨-n, by rw [Int.cast_neg, UnaryOp.exactValue?]⟩
      · exact ⟨n, rfl⟩
    exact ⟨value, List.forall_mem_append.mpr ⟨parts, List.forall_mem_singleton.mpr value⟩⟩
  | @binary op left right member _ _ ihLeft ihRight =>
    obtain ⟨⟨m, leftValue⟩, leftParts⟩ := ihLeft
    obtain ⟨⟨n, rightValue⟩, rightParts⟩ := ihRight
    have value : ∃ k : ℤ, (Node.binary op left right).exactValue? scope = some (k : ℚ) := by
      rw [exactValue?_binary leftValue rightValue]
      fin_cases member
      · exact ⟨m + n, by rw [Int.cast_add, BinaryOp.exactValue?]⟩
      · exact ⟨m - n, by rw [Int.cast_sub, BinaryOp.exactValue?]⟩
      · exact ⟨m * n, by rw [Int.cast_mul, BinaryOp.exactValue?]⟩
    exact ⟨value, List.forall_mem_append.mpr
      ⟨List.forall_mem_append.mpr ⟨leftParts, rightParts⟩, List.forall_mem_singleton.mpr value⟩⟩

end Node

end Evaluation

/-- Integer arithmetic never wraps.

* With all five operators: an integer result is the exact value, and all parts have exact results.
* With sums, differences and products: all parts have an exact integer value. If all of them fit,
  the exact value is the result. Otherwise the first part that does not fit is an overflow. -/
theorem integer_arithmetic (engine : EngineId) (scope : Scope) (node : Node) :
    (node.IsArithmetic [.add, .sub, .mul, .div, .mod] scope → ∀ depth world v left,
      Yields (evaluateAt depth engine scope node) world (.ok (.int v)) left →
        node.exactValue? scope = some (v.toInt : ℚ) ∧ left = world ∧
          ∀ part ∈ node.postOrder, ∃ n, part.YieldsExact engine scope depth world n) ∧
    (node.IsArithmetic [.add, .sub, .mul] scope →
      (∀ part ∈ node.postOrder, ∃ n : ℤ, part.exactValue? scope = some (n : ℚ)) ∧
      ∀ depth world, node.height ≤ depth →
        ((∀ part ∈ node.postOrder, part.Fits scope) →
          ∃ n, node.YieldsExact engine scope depth world n) ∧
        (¬(∀ part ∈ node.postOrder, part.Fits scope) → ∃ symbol, node.OverflowsAt scope symbol ∧
          Yields (evaluateAt depth engine scope node) world (.error (.integerOverflow symbol))
            world)) := by
  refine ⟨fun arithmetic depth world v left yields => ?_,
    fun arithmetic => ⟨(Node.exists_exactValue? arithmetic).2, fun depth world enough => ?_⟩⟩
  · obtain ⟨rfl, ⟨value, -⟩, parts⟩ := Node.exact_of_yields_int arithmetic yields
    exact ⟨value, rfl, parts⟩
  · have settled : node.Settles engine scope depth world := Node.settles arithmetic enough
    cases settled with
    | exact fit yields => exact ⟨fun _ => ⟨_, yields⟩, fun large => absurd fit large⟩
    | overflow overflows fails =>
      refine ⟨fun fit => ?_, fun _ => ⟨_, overflows, fails⟩⟩
      obtain ⟨before, culprit, after, order, -, large, -⟩ := overflows
      exact absurd (fit culprit (order ▸ List.mem_append_right _ List.mem_cons_self)) large

/-- `-7 % x + 6 / x` is exact, and `(9223372036854775807 + x) * 0` fails for the sum, though the
product would fit. -/
theorem integer_arithmetic_three :
    let scope := Scope.ofList [("x", .int 3)]
    let quotients := Node.binary .add (.binary .mod (.constant (.int (-7))) (.name "x"))
      (.binary .div (.constant (.int 6)) (.name "x"))
    let product := Node.binary .mul (.binary .add (.constant (.int Int64.maxValue)) (.name "x"))
      (.constant (.int 0))
    quotients.IsArithmetic [.add, .sub, .mul, .div, .mod] scope ∧
      quotients.exactValue? scope = some 1 ∧ product.IsArithmetic [.add, .sub, .mul] scope ∧
      ∃ symbol, product.OverflowsAt scope symbol ∧ Yields (evaluateAt 3 ⟨0⟩ scope product) .empty
        (.error (.integerOverflow symbol)) .empty := by
  intro scope quotients product
  have bound : scope.lookup? "x" = some (.int 3) := rfl
  have quotientsArithmetic : quotients.IsArithmetic [.add, .sub, .mul, .div, .mod] scope :=
    .binary (by decide) (.binary (by decide) (.constant _) (.name bound))
      (.binary (by decide) (.constant _) (.name bound))
  have productArithmetic : product.IsArithmetic [.add, .sub, .mul] scope :=
    .binary (by decide) (.binary (by decide) (.constant _) (.name bound)) (.constant _)
  have large : ¬∀ part ∈ product.postOrder, part.Fits scope := by
    intro fit
    obtain ⟨n, value⟩ := fit (.binary .add (.constant (.int Int64.maxValue)) (.name "x")) (by
      simp [product, Node.postOrder])
    have sum : ((Int64.maxValue.toInt : ℚ) + (3 : Int64).toInt) = n.toInt := Option.some.inj value
    have sum : Int64.maxValue.toInt + (3 : Int64).toInt = n.toInt := by exact_mod_cast sum
    have greatest : n.toInt ≤ Int64.maxValue.toInt := Int64.toInt_le n
    have three : (3 : Int64).toInt = 3 := rfl
    omega
  have whole := (integer_arithmetic ⟨0⟩ scope quotients).1 quotientsArithmetic 3 .empty 1 .empty rfl
  have fails := ((integer_arithmetic ⟨0⟩ scope product).2 productArithmetic).2 3 .empty (by decide)
  exact ⟨quotientsArithmetic, whole.1, productArithmetic, fails.2 large⟩

end ArrowExpr
