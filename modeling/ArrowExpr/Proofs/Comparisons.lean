import ArrowExpr.Proofs.FloatOrder
/-!
# Comparisons

The four operators that order values and the two that tell equal ones are separate functions. All
that ties them together follows from how two values are ordered (`BinaryOp.order?`):

1. in which cases values are ordered at all (`order?_isSome_iff`, `order?_eq_some_none_iff`);
2. what happens if the sides are exchanged (`order?_swap`);
3. when values that can be ordered count as equal (`looselyEqual_iff`);
4. which value is below which (`order?_eq_lt_iff`), along chains as well (`Value.Below.trans`).

Two integers are compared exactly and an integer with a float by their ranks, so values that are
equal to one float need not be equal to each other. To be below is transitive all the same, as a
lower rank is never that of a greater integer. `comparison_laws` puts this together.
-/

namespace ArrowExpr

open FloatParts

/-! ## Definitions -/

namespace Value

/-- An integer or a float. -/
def isNumber : Value → Bool
  | int _ | float _ => true
  | _ => false

def isString : Value → Bool
  | str _ => true
  | _ => false

/-- The float that is not a number. -/
def isNaN : Value → Bool
  | float x => x.isNaN
  | _ => false

/-- Two numbers, or two strings. -/
def Comparable (a b : Value) : Prop :=
  (a.isNumber ∧ b.isNumber) ∨ (a.isString ∧ b.isString)

/-- The place of a number among all floats, for an integer that of the float near to it. -/
def rank? : Value → Option Rank
  | int n => some (rankOfInt n.toInt)
  | float x => floatRank? x
  | _ => none

/-- The first value is less than the second one.

* Strings by their characters.
* Integers exactly.
* Numbers by rank. -/
inductive Below : Value → Value → Prop
  | strings {s t : String} : compare s t = .lt → Below (.str s) (.str t)
  | integers {m n : Int64} : m.toInt < n.toInt → Below (.int m) (.int n)
  | ranks {a b : Value} {i j : Rank} : a.rank? = some i → b.rank? = some j → i < j → Below a b

end Value

namespace BinaryOp

/-- The operator tells which of two values is less. -/
def isOrdering : BinaryOp → Bool
  | lt | ltEq | gt | gtEq => true
  | _ => false

/-- The operator yields true. -/
def Holds (op : BinaryOp) (a b : Value) : Prop := op.apply a b = .ok (.bool true)

end BinaryOp

/-! ## How two values are ordered -/

namespace BinaryOp

variable {a b c : Value}

theorem compareFloats_swap (x y : Float) :
    compareFloats y x = (compareFloats x y).map Ordering.swap := by
  rw [compareFloats_eq, compareFloats_eq]
  cases floatRank? x <;> cases floatRank? y <;> try rfl
  rename_i i j
  rw [Option.map₂_some_some, Option.map₂_some_some, Option.map_some, ← Std.OrientedCmp.eq_swap]

theorem order?_swap (a b : Value) : order? b a = (order? a b).map (·.map Ordering.swap) := by
  cases a with
  | int m =>
    cases b with
    | int n => exact congrArg (some ∘ some) Std.OrientedCmp.eq_swap
    | float y => exact congrArg some (compareFloats_swap (floatOfInt m) y)
    | _ => rfl
  | float x =>
    cases b with
    | int n => exact congrArg some (compareFloats_swap x (floatOfInt n))
    | float y => exact congrArg some (compareFloats_swap x y)
    | _ => rfl
  | str s =>
    cases b with
    | str t => exact congrArg (some ∘ some) Std.OrientedCmp.eq_swap
    | _ => rfl
  | _ => cases b <;> rfl

/-- Values are ordered if they are two numbers or two strings. -/
theorem order?_isSome_iff : (order? a b).isSome ↔ a.Comparable b := by
  cases a <;> cases b <;>
    simp [order?, Value.floats?, Value.Comparable, Value.isNumber, Value.isString]

end BinaryOp

/-! ## What a promoted pair has of its numbers -/

section Promoted

variable {a b : Value} {x y : Float}

theorem Value.rank?_of_floats? (promoted : Value.floats? a b = some (x, y)) :
    a.rank? = floatRank? x ∧ b.rank? = floatRank? y := by
  unfold Value.floats? at promoted
  split at promoted <;> cases promoted <;> simp only [Value.rank?, floatRank?_floatOfInt, and_self]

/-- Promoted numbers are ordered by rank. -/
theorem BinaryOp.order?_of_floats? (promoted : Value.floats? a b = some (x, y)) :
    order? a b = some (Option.map₂ compare a.rank? b.rank?) := by
  rw [(Value.rank?_of_floats? promoted).1, (Value.rank?_of_floats? promoted).2, ← compareFloats_eq]
  unfold Value.floats? at promoted
  split at promoted <;> cases promoted <;> rfl

/-- Promoted numbers are equal if they have one rank. -/
theorem Value.looselyEqual_of_floats? (promoted : Value.floats? a b = some (x, y)) :
    a.looselyEqual b ↔ Option.map₂ compare a.rank? b.rank? = some .eq := by
  rw [Value.looselyEqual, promoted, (rank?_of_floats? promoted).1, (rank?_of_floats? promoted).2]
  exact float_beq_iff

/-- Values that can be ordered are two integers, two strings or two numbers that are promoted. -/
theorem Value.Comparable.cases (comparable : a.Comparable b) :
    (∃ m n, a = .int m ∧ b = .int n) ∨ (∃ s t, a = .str s ∧ b = .str t) ∨
      ∃ x y, Value.floats? a b = some (x, y) := by
  cases a <;> cases b <;>
    simp [Value.Comparable, Value.isNumber, Value.isString, Value.floats?] at comparable ⊢

theorem Value.isNumber_of_rank? {i : Rank} (rank : a.rank? = some i) : a.isNumber := by
  cases a with
  | int _ | float _ => rfl
  | _ => cases rank

theorem Value.rank?_eq_none_iff (number : a.isNumber) : a.rank? = none ↔ a.isNaN := by
  cases a with
  | int n => exact iff_of_false (Option.some_ne_none _) Bool.false_ne_true
  | float x => exact floatRank?_eq_none_iff
  | _ => exact absurd number Bool.false_ne_true

end Promoted

/-! ## Unordered, equal, less -/

section Order

variable {a b c : Value}

/-- Values of the kinds that are ordered are unordered only if one of them is not a number. -/
theorem BinaryOp.order?_eq_some_none_iff (comparable : a.Comparable b) :
    order? a b = some none ↔ a.isNaN ∨ b.isNaN := by
  rcases comparable.cases with ⟨m, n, rfl, rfl⟩ | ⟨s, t, rfl, rfl⟩ | ⟨x, y, promoted⟩
  · simp [order?, Value.isNaN]
  · simp [order?, Value.isNaN]
  · have numbers : a.isNumber ∧ b.isNumber := by
      unfold Value.floats? at promoted
      split at promoted <;> cases promoted <;> exact ⟨rfl, rfl⟩
    rw [order?_of_floats? promoted, Option.some.injEq, Option.map₂_eq_none_iff,
      Value.rank?_eq_none_iff numbers.1, Value.rank?_eq_none_iff numbers.2]

/-- Values that can be ordered are equal if neither is less than the other. -/
theorem Value.looselyEqual_iff (comparable : a.Comparable b) :
    a.looselyEqual b ↔ BinaryOp.order? a b = some (some .eq) := by
  rcases comparable.cases with ⟨m, n, rfl, rfl⟩ | ⟨s, t, rfl, rfl⟩ | ⟨x, y, promoted⟩
  · show (m == n) = true ↔ some (some (compare m.toInt n.toInt)) = some (some .eq)
    rw [beq_iff_eq, Option.some.injEq, Option.some.injEq, compare_eq_iff_eq, Int64.toInt_inj]
  · show (s == t) = true ↔ some (some (compare s t)) = some (some .eq)
    rw [beq_iff_eq, Option.some.injEq, Option.some.injEq, compare_eq_iff_eq]
  · rw [looselyEqual_of_floats? promoted, BinaryOp.order?_of_floats? promoted, Option.some.injEq]

theorem BinaryOp.order?_eq_lt_iff : order? a b = some (some .lt) ↔ a.Below b := by
  constructor
  · intro less
    have comparable : a.Comparable b := order?_isSome_iff.mp (less ▸ rfl)
    rcases comparable.cases with ⟨m, n, rfl, rfl⟩ | ⟨s, t, rfl, rfl⟩ | ⟨x, y, promoted⟩
    · exact .integers (compare_lt_iff_lt.mp (Option.some.inj (Option.some.inj less)))
    · exact .strings (Option.some.inj (Option.some.inj less))
    · rw [order?_of_floats? promoted, Option.some.injEq, Option.map₂_eq_some_iff] at less
      obtain ⟨i, j, rank, otherRank, lt⟩ := less
      exact .ranks rank otherRank (compare_lt_iff_lt.mp lt)
  · intro below
    cases below with
    | strings lt => exact congrArg (some ∘ some) lt
    | integers lt => exact congrArg (some ∘ some) (compare_lt_iff_lt.mpr lt)
    | ranks rank otherRank lt =>
      have comparable : a.Comparable b :=
        .inl ⟨Value.isNumber_of_rank? rank, Value.isNumber_of_rank? otherRank⟩
      rcases comparable.cases with ⟨m, n, rfl, rfl⟩ | ⟨s, t, rfl, rfl⟩ | ⟨x, y, promoted⟩
      · cases rank
        cases otherRank
        refine congrArg (some ∘ some) (compare_lt_iff_lt.mpr ?_)
        exact lt_of_not_ge fun ge => absurd lt (rankOfInt_mono ge).not_gt
      · cases rank
      · rw [order?_of_floats? promoted, rank, otherRank, Option.map₂_some_some,
          compare_lt_iff_lt.mpr lt]

theorem Value.not_below_self : ¬a.Below a := by
  intro below
  cases below with
  | strings lt => cases Std.ReflCmp.compare_self.symm.trans lt
  | integers lt => exact lt_irrefl _ lt
  | ranks rank sameRank lt =>
    cases rank.symm.trans sameRank
    exact lt_irrefl _ lt

theorem Value.Below.trans (below : a.Below b) (above : b.Below c) : a.Below c := by
  cases below with
  | strings lt =>
    cases above with
    | strings more => exact .strings (Std.TransCmp.lt_trans lt more)
    | ranks rank => cases rank
  | integers lt =>
    cases above with
    | integers more => exact .integers (lt.trans more)
    | ranks rank otherRank more =>
      -- the lesser integer has no higher rank than the greater one
      cases rank
      exact .ranks rfl otherRank ((rankOfInt_mono lt.le).trans_lt more)
  | ranks rank middle lt =>
    cases above with
    | strings => cases middle
    | integers more =>
      cases middle
      exact .ranks rank rfl (lt.trans_le (rankOfInt_mono more.le))
    | ranks sameMiddle otherRank more =>
      cases middle.symm.trans sameMiddle
      exact .ranks rank otherRank (lt.trans more)

end Order

/-! ## Equality -/

theorem float_beq_comm (x y : Float) : (x == y) = (y == x) := by
  rw [Bool.eq_iff_iff, float_beq_iff, float_beq_iff]
  cases floatRank? x <;> cases floatRank? y <;> try exact Iff.rfl
  rw [Option.map₂_some_some, Option.map₂_some_some, Option.some.injEq, Option.some.injEq,
    compare_eq_iff_eq, compare_eq_iff_eq, eq_comm]

namespace Value

mutual

theorem beq_comm : ∀ a b : Value, Value.beq a b = Value.beq b a
  | .list as, b => by
    cases b with
    | list bs =>
      rw [Value.beq, Value.beq]
      exact beqAll_comm as bs
    | _ => rfl
  | .float x, b => by
    cases b with
    | float y => exact float_beq_comm x y
    | _ => rfl
  | .null, b | .bool _, b | .int _, b | .str _, b | .callable _, b => by
    cases b <;> first | rfl | exact BEq.comm

theorem beqAll_comm : ∀ as bs : List Value, Value.beqAll as bs = Value.beqAll bs as
  | [], [] | [], _ :: _ | _ :: _, [] => rfl
  | a :: as, b :: bs => by rw [Value.beqAll, Value.beqAll, beq_comm a b, beqAll_comm as bs]

end

theorem floats?_swap (a b : Value) : floats? b a = (floats? a b).map Prod.swap := by
  cases a <;> cases b <;> rfl

theorem looselyEqual_comm (a b : Value) : a.looselyEqual b = b.looselyEqual a := by
  rw [looselyEqual, looselyEqual, floats?_swap a b]
  cases floats? a b with
  | none => exact beq_comm a b
  | some pair => exact float_beq_comm pair.1 pair.2

end Value

/-! ## The laws of comparisons -/

namespace BinaryOp

variable {a b : Value}

/-- What six operators answer for two values, given whether the first one is less than the second
one, equal to it or greater. -/
structure Answers (a b : Value) (less equal greater : Bool) : Prop where
  lt : lt.apply a b = .ok (.bool less)
  ltEq : ltEq.apply a b = .ok (.bool (less || equal))
  gt : gt.apply a b = .ok (.bool greater)
  gtEq : gtEq.apply a b = .ok (.bool (greater || equal))
  eq : eq.apply a b = .ok (.bool equal)
  notEq : notEq.apply a b = .ok (.bool !equal)

theorem answers_of_order? {ordering : Option Ordering} (ordered : order? a b = some ordering) :
    Answers a b (ordering == some .lt) (ordering == some .eq) (ordering == some .gt) := by
  have compared (op : BinaryOp) (holds : Ordering → Bool) :
      op.comparison holds a b = .ok (.bool (ordering.any holds)) := by
    rw [comparison, ordered]
  have equal : a.looselyEqual b = (ordering == some .eq) := by
    rw [Bool.eq_iff_iff, Value.looselyEqual_iff (order?_isSome_iff.mp (ordered ▸ rfl)), ordered,
      Option.some.injEq, beq_iff_eq]
  constructor
  case eq => rw [apply, equal]
  case notEq => rw [apply, equal]
  all_goals
    refine (compared _ _).trans ?_
    rcases ordering with _ | _ | _ | _ <;> rfl

/-- Of two values that can be ordered one is less, or they are equal; if one of them is not a number
nothing is true of them. The answers with the sides exchanged follow. -/
theorem exists_answers (comparable : a.Comparable b) :
    ∃ less equal greater, Answers a b less equal greater ∧ Answers b a greater equal less ∧
      [less, equal, greater].count true = if a.isNaN ∨ b.isNaN then 0 else 1 := by
  obtain ⟨ordering, ordered⟩ := Option.isSome_iff_exists.mp (order?_isSome_iff.mpr comparable)
  have swapped : order? b a = some (ordering.map Ordering.swap) := by
    rw [order?_swap a b, ordered, Option.map_some]
  have unordered := order?_eq_some_none_iff comparable
  rw [ordered, Option.some.injEq] at unordered
  refine ⟨_, _, _, answers_of_order? ordered, ?_, ?_⟩
  · convert answers_of_order? swapped using 1 <;> rcases ordering with _ | _ | _ | _ <;> rfl
  · simp only [← unordered]
    rcases ordering with _ | _ | _ | _ <;> rfl

theorem apply_of_not_comparable (apart : ¬a.Comparable b) {op : BinaryOp}
    (ordering : op.isOrdering) : op.apply a b = .error (op.mismatch a b) := by
  have unordered : order? a b = none := by
    rwa [← Option.not_isSome_iff_eq_none, order?_isSome_iff]
  cases op <;> first | exact absurd ordering Bool.false_ne_true | rw [apply, comparison, unordered]

theorem exists_apply_error_iff {op : BinaryOp} (ordering : op.isOrdering) :
    (∃ error, op.apply a b = .error error) ↔ ¬a.Comparable b := by
  refine ⟨?_, fun apart => ⟨_, apply_of_not_comparable apart ordering⟩⟩
  rintro ⟨error, fails⟩ comparable
  obtain ⟨less, equal, greater, answers, -⟩ := exists_answers comparable
  cases op with
  | lt => cases fails.symm.trans answers.lt
  | ltEq => cases fails.symm.trans answers.ltEq
  | gt => cases fails.symm.trans answers.gt
  | gtEq => cases fails.symm.trans answers.gtEq
  | _ => exact Bool.false_ne_true ordering

theorem lt_holds_iff : lt.Holds a b ↔ a.Below b := by
  rw [← order?_eq_lt_iff]
  cases ordered : order? a b with
  | none =>
    have apart : ¬a.Comparable b := by
      rw [← order?_isSome_iff, ordered]
      exact Bool.false_ne_true
    rw [Holds, apply_of_not_comparable apart rfl]
    exact iff_of_false nofun nofun
  | some ordering =>
    rw [Holds, (answers_of_order? ordered).lt, Except.ok.injEq, Value.bool.injEq, beq_iff_eq,
      Option.some.injEq]

end BinaryOp

open BinaryOp

theorem Value.Comparable.symm {a b : Value} (comparable : a.Comparable b) : b.Comparable a :=
  comparable.imp And.symm And.symm

/-- The operators agree with each other on two values. -/
structure ComparisonLaws (a b : Value) : Prop where
  /-- An ordering fails exactly if the values are neither two strings nor two numbers. -/
  fails_iff : ∀ op : BinaryOp, op.isOrdering →
    ((∃ error, op.apply a b = .error error) ↔ ¬a.Comparable b)
  /-- All orderings fail together, also with the sides exchanged, and for the same reason. -/
  mismatch : ¬a.Comparable b → ∀ op : BinaryOp, op.isOrdering →
    op.apply a b = .error (.binaryTypeMismatch op.symbol a.typeName b.typeName) ∧
      op.apply b a = .error (.binaryTypeMismatch op.symbol b.typeName a.typeName)
  /-- Otherwise just one of less, equal and greater is true, or none if a value is not a number, and
  that tells all the answers. -/
  agree : a.Comparable b → ∃ less equal greater,
    Answers a b less equal greater ∧ Answers b a greater equal less ∧
      [less, equal, greater].count true = if a.isNaN ∨ b.isNaN then 0 else 1
  /-- Equality never fails, whatever the values, and does not depend on the sides. -/
  equality : ∃ equal,
    BinaryOp.eq.apply a b = .ok (.bool equal) ∧ BinaryOp.eq.apply b a = .ok (.bool equal) ∧
      BinaryOp.notEq.apply a b = .ok (.bool !equal) ∧ BinaryOp.notEq.apply b a = .ok (.bool !equal)

/-- The comparisons of two values agree with each other and with equality, and to be less is a
strict order of all values, integers and floats of any size together. -/
theorem comparison_laws :
    (∀ a b, ComparisonLaws a b) ∧ (∀ a, ¬lt.Holds a a) ∧
      ∀ a b c, lt.Holds a b → lt.Holds b c → lt.Holds a c := by
  refine ⟨fun a b => ⟨fun _ => exists_apply_error_iff, fun apart _ ordering => ?_, exists_answers,
    a.looselyEqual b, rfl, ?_, rfl, ?_⟩, fun a => ?_, fun a b c => ?_⟩
  · exact ⟨apply_of_not_comparable apart ordering,
      apply_of_not_comparable (fun comparable => apart comparable.symm) ordering⟩
  · rw [Value.looselyEqual_comm a b, apply]
  · rw [Value.looselyEqual_comm a b, apply]
  · rw [lt_holds_iff]
    exact Value.not_below_self
  · rw [lt_holds_iff, lt_holds_iff, lt_holds_iff]
    exact Value.Below.trans

/-- Equality is not transitive: two integers can be equal to one float and yet differ. -/
example : BinaryOp.eq.Holds (.int 9007199254740992) (.float 9007199254740992) ∧
    BinaryOp.eq.Holds (.float 9007199254740992) (.int 9007199254740993) ∧
    lt.Holds (.int 9007199254740992) (.int 9007199254740993) :=
  ⟨rfl, rfl, rfl⟩

end ArrowExpr
