import ArrowExpr.Proofs.Callables
import ArrowExpr.Proofs.Comparisons
/-!
# What `min` and `max` pick

Both go once through their arguments and keep the best one so far. Equality is no help in seeing
that what is kept in the end is unbeaten, since it is not transitive, and a value that is not a
number is neither better nor worse than any other. The invariant is about the strict comparison
alone: the best argument so far is the first one, or it beats the first one, and none so far beats
it (`Builtins.unbeaten_of_comparable`).

Results:
1. `Builtins.orderable_cons_iff`: the arguments can be ordered if each is comparable with the first.
2. `Builtins.unbeaten_of_comparable`, `Builtins.unbeaten_of_not_comparable`: how a search ends.
3. `Builtins.min_max_laws`: what that means for `min` and `max`, also when arguments change places.
-/

namespace ArrowExpr

/-! ## Strict comparisons -/

namespace BinaryOp

/-- One of the operators that are false of equal values. -/
def IsStrict (op : BinaryOp) : Prop := op = lt ∨ op = gt

section Strict

variable {op : BinaryOp} {a b c : Value}

theorem gt_holds_iff : gt.Holds a b ↔ lt.Holds b a := by
  by_cases comparable : a.Comparable b
  · obtain ⟨less, equal, greater, answers, swapped, -⟩ := exists_answers comparable
    rw [Holds, Holds, answers.gt, swapped.lt]
  · rw [Holds, Holds, apply_of_not_comparable comparable rfl,
      apply_of_not_comparable (fun swapped => comparable swapped.symm) rfl]
    simp only [reduceCtorEq]

theorem IsStrict.isOrdering (strict : op.IsStrict) : op.isOrdering := by
  rcases strict with rfl | rfl <;> rfl

theorem IsStrict.trans (strict : op.IsStrict) (holds : op.Holds a b) (more : op.Holds b c) :
    op.Holds a c := by
  rcases strict with rfl | rfl
  · rw [lt_holds_iff] at *
    exact holds.trans more
  · rw [gt_holds_iff, lt_holds_iff] at *
    exact more.trans holds

theorem IsStrict.not_holds_self (strict : op.IsStrict) : ¬op.Holds a a := by
  rcases strict with rfl | rfl
  · rw [lt_holds_iff]
    exact Value.not_below_self
  · rw [gt_holds_iff, lt_holds_iff]
    exact Value.not_below_self

theorem IsStrict.apply_of_comparable (strict : op.IsStrict) (comparable : a.Comparable b) :
    ∃ holds, op.apply a b = .ok (.bool holds) := by
  obtain ⟨less, equal, greater, answers, -⟩ := exists_answers comparable
  rcases strict with rfl | rfl
  · exact ⟨less, answers.lt⟩
  · exact ⟨greater, answers.gt⟩

/-- Values that are numbers or strings, neither of which beats the other, are equal. -/
theorem IsStrict.eq_holds (strict : op.IsStrict) (comparable : a.Comparable b)
    (ordered : ¬(a.isNaN ∨ b.isNaN)) (notBelow : ¬op.Holds a b) (notAbove : ¬op.Holds b a) :
    eq.Holds a b := by
  obtain ⟨less, equal, greater, answers, swapped, one⟩ := exists_answers comparable
  rw [if_neg ordered] at one
  have neither : less = false ∧ greater = false := by
    rcases strict with rfl | rfl
    · rw [Holds, answers.lt] at notBelow
      rw [Holds, swapped.lt] at notAbove
      simpa using And.intro notBelow notAbove
    · rw [Holds, answers.gt] at notBelow
      rw [Holds, swapped.gt] at notAbove
      simpa using And.intro notAbove notBelow
  obtain ⟨rfl, rfl⟩ := neither
  rw [Holds, answers.eq]
  cases equal with
  | true => rfl
  | false => cases one

end Strict

end BinaryOp

namespace Value

variable {a b c : Value}

theorem Comparable.isNumber_iff (comparable : a.Comparable b) : a.isNumber ↔ b.isNumber := by
  cases a <;> cases b <;> simp [Comparable, isNumber, isString] at comparable ⊢

theorem Comparable.isString_iff (comparable : a.Comparable b) : a.isString ↔ b.isString := by
  cases a <;> cases b <;> simp [Comparable, isNumber, isString] at comparable ⊢

theorem Comparable.trans (comparable : a.Comparable b) (more : b.Comparable c) :
    a.Comparable c :=
  comparable.imp (fun numbers => ⟨numbers.1, more.isNumber_iff.mp numbers.2⟩)
    (fun strings => ⟨strings.1, more.isString_iff.mp strings.2⟩)

end Value

/-! ## The search -/

namespace Builtins

open BinaryOp

/-- One argument, or several that are all strings or all numbers. -/
def Orderable (arguments : List Value) : Prop :=
  arguments.length = 1 ∨ 2 ≤ arguments.length ∧
    ((∀ a ∈ arguments, a.isString) ∨ ∀ a ∈ arguments, a.isNumber)

theorem orderable_cons_iff {first : Value} {rest : List Value} :
    Orderable (first :: rest) ↔ ∀ a ∈ rest, a.Comparable first := by
  constructor
  · rintro (one | ⟨-, strings | numbers⟩) a there
    · cases List.length_eq_zero_iff.mp (Nat.succ.inj one)
      cases there
    · exact .inr ⟨strings _ (List.mem_cons_of_mem _ there), strings _ List.mem_cons_self⟩
    · exact .inl ⟨numbers _ (List.mem_cons_of_mem _ there), numbers _ List.mem_cons_self⟩
  · intro comparable
    cases rest with
    | nil => exact .inl rfl
    | cons second rest =>
      refine .inr ⟨Nat.le_add_left 2 rest.length, ?_⟩
      rcases comparable second List.mem_cons_self with ⟨-, number⟩ | ⟨-, string⟩
      · refine .inr (List.forall_mem_cons.mpr ⟨number, fun a there => ?_⟩)
        exact (comparable a there).isNumber_iff.mpr number
      · refine .inl (List.forall_mem_cons.mpr ⟨string, fun a there => ?_⟩)
        exact (comparable a there).isString_iff.mpr string

/-- Two arguments of several that can be ordered are comparable. -/
theorem Orderable.comparable {arguments : List Value} (orderable : Orderable arguments)
    (several : 2 ≤ arguments.length) {a b : Value} (here : a ∈ arguments) (there : b ∈ arguments) :
    a.Comparable b := by
  rcases orderable with one | ⟨-, strings | numbers⟩
  · omega
  · exact .inr ⟨strings a here, strings b there⟩
  · exact .inl ⟨numbers a here, numbers b there⟩

theorem Orderable.perm {arguments others : List Value} (perm : arguments.Perm others)
    (orderable : Orderable arguments) : Orderable others := by
  simpa only [Orderable, perm.length_eq, perm.mem_iff] using orderable

section Search

variable {op : BinaryOp}

/-- Values that can be compared have one that none of them beats, and the search finds it. -/
theorem unbeaten_of_comparable (strict : op.IsStrict) {best : Value} {rest : List Value}
    (comparable : ∀ a ∈ rest, a.Comparable best) :
    ∃ result, unbeaten op best rest = .ok result ∧ (result = best ∨ op.Holds result best) ∧
      ∀ a ∈ best :: rest, ¬op.Holds a result := by
  induction rest generalizing best with
  | nil =>
    refine ⟨best, rfl, .inl rfl, fun a there => ?_⟩
    cases List.mem_singleton.mp there
    exact strict.not_holds_self
  | cons candidate rest ih =>
    have first := comparable candidate List.mem_cons_self
    obtain ⟨beats, applied⟩ := strict.apply_of_comparable first
    rw [unbeaten, applied]
    cases beats with
    | true =>
      obtain ⟨result, found, ahead, least⟩ := @ih candidate fun a there =>
        (comparable a (List.mem_cons_of_mem _ there)).trans first.symm
      have beaten : op.Holds result best := by
        rcases ahead with rfl | ahead
        · exact applied
        · exact strict.trans ahead applied
      refine ⟨result, found, .inr beaten, List.forall_mem_cons.mpr ⟨fun above => ?_, least⟩⟩
      exact strict.not_holds_self (strict.trans above beaten)
    | false =>
      obtain ⟨result, found, ahead, least⟩ := @ih best fun a there =>
        comparable a (List.mem_cons_of_mem _ there)
      rw [List.forall_mem_cons] at least
      have notAhead : ¬op.Holds candidate best := by
        rw [Holds, applied]
        exact fun same => Bool.false_ne_true (Value.bool.inj (Except.ok.inj same))
      refine ⟨result, found, ahead, ?_⟩
      rw [List.forall_mem_cons, List.forall_mem_cons]
      refine ⟨least.1, fun above => notAhead ?_, least.2⟩
      rcases ahead with rfl | ahead
      · exact above
      · exact strict.trans above ahead

/-- A value that cannot be compared with the first one ends the search: there are two values that
the operator does not apply to. -/
theorem unbeaten_of_not_comparable (strict : op.IsStrict) {best : Value} {rest : List Value}
    (apart : ¬∀ a ∈ rest, a.Comparable best) :
    ∃ a ∈ best :: rest, ∃ b ∈ best :: rest, ¬a.Comparable b ∧
      unbeaten op best rest = .error (op.mismatch a b) := by
  induction rest generalizing best with
  | nil => exact absurd (fun a there => nomatch there) apart
  | cons candidate rest ih =>
    by_cases first : candidate.Comparable best
    · obtain ⟨beats, applied⟩ := strict.apply_of_comparable first
      have kept : (if beats then candidate else best).Comparable best := by
        cases beats with
        | true => exact first
        | false => exact first.symm.trans first
      obtain ⟨a, here, b, there, different, fails⟩ := ih fun all => apart <| by
        rw [List.forall_mem_cons]
        exact ⟨first, fun a there => (all a there).trans kept⟩
      have sub : ∀ value ∈ (if beats then candidate else best) :: rest,
          value ∈ best :: candidate :: rest := by
        cases beats <;> simp +contextual
      refine ⟨a, sub a here, b, sub b there, different, ?_⟩
      rw [unbeaten, applied]
      exact fails
    · refine ⟨candidate, List.mem_cons_of_mem _ List.mem_cons_self, best, List.mem_cons_self, first,
        ?_⟩
      rw [unbeaten, apply_of_not_comparable first strict.isOrdering]

end Search

/-! ## The two functions -/

/-- A call of the function picks an argument that no argument beats by the operator. -/
structure PicksUnbeaten (function : HostFunction) (op : BinaryOp) (scope : Scope)
    (arguments : List Value) : Prop where
  succeeds_iff : (∃ result, function.evaluate scope arguments = .succeed result) ↔
    Orderable arguments
  empty : arguments = [] → function.evaluate scope arguments =
    .fail (.custom (function.name ++ " expects at least 1 argument"))
  /-- All other arguments have two among them that cannot be compared. -/
  mismatch : arguments ≠ [] → ¬Orderable arguments → ∃ a ∈ arguments, ∃ b ∈ arguments,
    ¬a.Comparable b ∧ function.evaluate scope arguments =
      .fail (.binaryTypeMismatch op.symbol a.typeName b.typeName)
  unbeaten : ∀ result, function.evaluate scope arguments = .succeed result →
    result ∈ arguments ∧ ∀ a ∈ arguments, ¬op.Holds a result
  /-- Up to equality it does not matter in which order numbers or strings are given. -/
  perm : 2 ≤ arguments.length → (∀ a ∈ arguments, ¬a.isNaN) →
    ∀ others result, arguments.Perm others → function.evaluate scope arguments = .succeed result →
      ∃ other, function.evaluate scope others = .succeed other ∧ eq.Holds result other

section Functions

variable {op : BinaryOp} {name : String} {arguments : List Value}

theorem extreme_of_orderable (strict : op.IsStrict) (orderable : Orderable arguments) :
    ∃ result, extreme name op arguments = .ok result ∧ result ∈ arguments ∧
      ∀ a ∈ arguments, ¬op.Holds a result := by
  cases arguments with
  | nil => rcases orderable with one | ⟨several, -⟩ <;> contradiction
  | cons first rest =>
    obtain ⟨result, found, -, least⟩ :=
      unbeaten_of_comparable strict (orderable_cons_iff.mp orderable)
    exact ⟨result, found, @extreme_mem name op _ _ found, least⟩

theorem extreme_of_not_orderable (strict : op.IsStrict) (nonempty : arguments ≠ [])
    (apart : ¬Orderable arguments) : ∃ a ∈ arguments, ∃ b ∈ arguments, ¬a.Comparable b ∧
      extreme name op arguments = .error (op.mismatch a b) := by
  cases arguments with
  | nil => contradiction
  | cons first rest =>
    rw [orderable_cons_iff] at apart
    exact unbeaten_of_not_comparable strict apart

theorem extreme_ok_iff (strict : op.IsStrict) :
    (∃ result, extreme name op arguments = .ok result) ↔ Orderable arguments := by
  refine ⟨fun ⟨result, found⟩ => ?_, fun orderable => ?_⟩
  · by_contra apart
    rcases eq_or_ne arguments [] with rfl | nonempty
    · cases found
    · obtain ⟨a, -, b, -, -, fails⟩ := @extreme_of_not_orderable op name _ strict nonempty apart
      cases fails.symm.trans found
  · obtain ⟨result, found, -⟩ := extreme_of_orderable strict orderable
    exact ⟨result, found⟩

/-- Arguments in another order give an equal result. -/
theorem extreme_perm (strict : op.IsStrict) (several : 2 ≤ arguments.length)
    (ordered : ∀ a ∈ arguments, ¬a.isNaN) {others : List Value} (perm : arguments.Perm others)
    {result : Value} (found : extreme name op arguments = .ok result) :
    ∃ other, extreme name op others = .ok other ∧ eq.Holds result other := by
  have orderable : Orderable arguments := (extreme_ok_iff strict).mp ⟨result, found⟩
  obtain ⟨same, again, here, least⟩ := @extreme_of_orderable op name _ strict orderable
  cases found.symm.trans again
  obtain ⟨other, foundOther, there, leastOther⟩ :=
    @extreme_of_orderable op name _ strict (orderable.perm perm)
  have thereToo : other ∈ arguments := perm.mem_iff.mpr there
  refine ⟨other, foundOther, strict.eq_holds (orderable.comparable several here thereToo) ?_
    (leastOther result (perm.mem_iff.mp here)) (least other thereToo)⟩
  exact not_or.mpr ⟨ordered result here, ordered other thereToo⟩

theorem picksUnbeaten_plain (strict : op.IsStrict) (scope : Scope) :
    PicksUnbeaten (.plain name fun arguments => .done (extreme name op arguments)) op scope
      arguments := by
  have succeeds (values : List Value) (result : Value) :
      Action.done (extreme name op values) = .succeed result ↔
        extreme name op values = .ok result :=
    ⟨Action.done.inj, congrArg Action.done⟩
  constructor
  case succeeds_iff => exact (exists_congr (succeeds _)).trans (extreme_ok_iff strict)
  case empty =>
    rintro rfl
    rfl
  case mismatch =>
    intro nonempty apart
    obtain ⟨a, here, b, there, different, fails⟩ := extreme_of_not_orderable strict nonempty apart
    exact ⟨a, here, b, there, different, congrArg Action.done fails⟩
  case unbeaten =>
    intro result found
    have found := (succeeds _ _).mp found
    obtain ⟨same, again, least⟩ :=
      @extreme_of_orderable op name _ strict ((extreme_ok_iff strict).mp ⟨result, found⟩)
    cases found.symm.trans again
    exact least
  case perm =>
    intro several ordered others result perm found
    obtain ⟨other, foundOther, equal⟩ :=
      extreme_perm strict several ordered perm ((succeeds _ _).mp found)
    exact ⟨other, congrArg Action.done foundOther, equal⟩

end Functions

/-- The results of `min` and `max` are unbeaten arguments. -/
theorem min_max_laws (scope : Scope) (arguments : List Value) :
    PicksUnbeaten min lt scope arguments ∧ PicksUnbeaten max gt scope arguments :=
  ⟨picksUnbeaten_plain (.inl rfl) scope, picksUnbeaten_plain (.inr rfl) scope⟩

end Builtins

end ArrowExpr
