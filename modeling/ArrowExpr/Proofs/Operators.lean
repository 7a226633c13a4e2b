import ArrowExpr.Operation
/-!
# What operators yield

1. An exact integer result is the result if it fits in 64 bits, and else an overflow
   (`BinaryOp.fitting_cases`).
2. An operator never yields a callable, not even inside a list, and never fails for want of a name
   (`BinaryOp.apply_plain`, `UnaryOp.apply_plain`).
-/

namespace ArrowExpr

/-! ## Integers of 64 bits -/

theorem int64?_toInt (n : Int64) : int64? n.toInt = some n := by
  have inRange : Int64.minValue.toInt ≤ n.toInt ∧ n.toInt ≤ Int64.maxValue.toInt :=
    ⟨Int64.minValue_le_toInt n, Int64.toInt_le n⟩
  rw [int64?, if_pos inRange, Int64.ofInt_toInt]

theorem int64?_eq_some_iff {n : Int} {m : Int64} : int64? n = some m ↔ m.toInt = n := by
  constructor
  · intro fits
    unfold int64? at fits
    split at fits
    next range =>
      cases fits
      exact Int64.toInt_ofInt_of_le range.1 (Int.lt_of_le_of_lt range.2 (by decide))
    next => cases fits
  · rintro rfl
    exact int64?_toInt m

/-- A number either fits, or it is none of the integers of 64 bits. -/
theorem int64?_cases (n : Int) :
    (∃ m : Int64, m.toInt = n ∧ int64? n = some m) ∨
      (∀ m : Int64, m.toInt ≠ n) ∧ int64? n = none := by
  cases fits : int64? n with
  | some m => exact .inl ⟨m, int64?_eq_some_iff.mp fits, rfl⟩
  | none =>
    refine .inr ⟨fun m same => ?_, rfl⟩
    cases fits.symm.trans (int64?_eq_some_iff.mpr same)

/-- An exact result that fits is the result, and else the operator fails for it. -/
theorem BinaryOp.fitting_cases (op : BinaryOp) (n : Int) :
    (∃ m : Int64, m.toInt = n ∧ op.fitting n = .ok (.int m)) ∨
      (∀ m : Int64, m.toInt ≠ n) ∧ op.fitting n = .error (.integerOverflow op.symbol) := by
  rcases int64?_cases n with ⟨m, same, fits⟩ | ⟨large, fits⟩
  · exact .inl ⟨m, same, by rw [fitting, fits]⟩
  · exact .inr ⟨large, by rw [fitting, fits]⟩

/-! ## Callables and names -/

/-- The callable is the value or stands somewhere in it. -/
inductive Value.Holds : Value → CallableId → Prop
  | self {id : CallableId} : Holds (.callable id) id
  | item {items : List Value} {value : Value} {id : CallableId} :
      value ∈ items → Holds value id → Holds (.list items) id

@[simp] theorem Value.not_holds_int (n : Int64) (id : CallableId) : ¬(Value.int n).Holds id := nofun

@[simp] theorem Value.holds_list_iff {items : List Value} {id : CallableId} :
    (Value.list items).Holds id ↔ ∃ item ∈ items, item.Holds id := by
  constructor
  · intro holds
    cases holds with
    | item there holds => exact ⟨_, there, holds⟩
  · rintro ⟨item, there, holds⟩
    exact .item there holds

/-- The error says that a name stands for nothing. -/
def EvalError.isUndefined : EvalError → Bool
  | undefinedVariable _ | undefinedFunction _ => true
  | _ => false

/-- A value without callables, or an error that is not about a name. -/
inductive Outcome.Plain : Outcome → Prop
  | value {value : Value} : (∀ id, ¬value.Holds id) → Plain (.ok value)
  | error {error : EvalError} : error.isUndefined = false → Plain (.error error)

namespace Outcome.Plain

theorem bool (b : Bool) : Plain (.ok (.bool b)) := .value fun _ holds => nomatch holds

theorem int (n : Int64) : Plain (.ok (.int n)) := .value fun _ holds => nomatch holds

theorem float (x : Float) : Plain (.ok (.float x)) := .value fun _ holds => nomatch holds

theorem str (s : String) : Plain (.ok (.str s)) := .value fun _ holds => nomatch holds

end Outcome.Plain

theorem Value.ofLiteral_not_holds (literal : Literal) (id : CallableId) :
    ¬(Value.ofLiteral literal).Holds id := by
  intro holds
  cases literal <;> cases holds

namespace BinaryOp

theorem fitting_plain (op : BinaryOp) (n : Int) : Outcome.Plain (op.fitting n) := by
  unfold fitting
  split
  · exact .int _
  · exact .error rfl

theorem arithmetic_plain (op : BinaryOp) (exact : Int → Int → Int)
    (rounded : Float → Float → Float) (left right : Value) :
    Outcome.Plain (op.arithmetic exact rounded left right) := by
  unfold arithmetic
  split
  · exact fitting_plain _ _
  · split
    · exact .float _
    · exact .error rfl

theorem divide_plain (left right : Value) : Outcome.Plain (divide left right) := by
  unfold divide
  split
  · split
    · exact .error rfl
    · split
      · exact fitting_plain _ _
      · exact .float _
  · split
    · split
      · exact .error rfl
      · exact .float _
    · exact .error rfl

theorem remainder_plain (left right : Value) : Outcome.Plain (remainder left right) := by
  unfold remainder
  split
  · split
    · exact .error rfl
    · split
      · exact .int _
      · exact .error rfl
  · exact .error rfl

theorem join_plain (left right : Value) : Outcome.Plain (join left right) := by
  unfold join
  split
  · exact .str _
  · exact .error rfl

theorem comparison_plain (op : BinaryOp) (holds : Ordering → Bool) (left right : Value) :
    Outcome.Plain (op.comparison holds left right) := by
  unfold comparison
  split
  · exact .bool _
  · exact .error rfl

theorem apply_plain (op : BinaryOp) (left right : Value) :
    Outcome.Plain (op.apply left right) := by
  cases op with
  | add => exact arithmetic_plain _ _ _ _ _
  | sub => exact arithmetic_plain _ _ _ _ _
  | mul => exact arithmetic_plain _ _ _ _ _
  | div => exact divide_plain _ _
  | mod => exact remainder_plain _ _
  | concat => exact join_plain _ _
  | eq => exact .bool _
  | notEq => exact .bool _
  | lt => exact comparison_plain _ _ _ _
  | ltEq => exact comparison_plain _ _ _ _
  | gt => exact comparison_plain _ _ _ _
  | gtEq => exact comparison_plain _ _ _ _
  | and => exact .bool _
  | or => exact .bool _

end BinaryOp

theorem UnaryOp.apply_plain (op : UnaryOp) (operand : Value) :
    Outcome.Plain (op.apply operand) := by
  unfold apply
  split
  · split
    · exact .int _
    · exact .error rfl
  · exact .float _
  · exact .int _
  · exact .float _
  · exact .bool _
  · exact .error rfl

end ArrowExpr
