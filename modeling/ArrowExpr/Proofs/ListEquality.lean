import ArrowExpr.Proofs.Comparisons
import ArrowExpr.Proofs.Runs
/-!
# Equality of lists

Equality promotes an integer beside a float, but only if these two are what is compared. Lists are
compared without promotion all the way down. So equality is not a congruence for lists: `1 == 1.0`
holds and `[1] == [1.0]` does not (`not_equality_congruence`). Nothing else is in the way:

1. items of equal lists are equal, and lists of equal items are equal if no integer stands opposite a
   float (`Value.looselyEqual_list_iff`);
2. at any depth: values are equal exactly if they are with promotion everywhere, and no integer
   stands opposite a float inside of them (`Value.looselyEqual_iff_congruent`).

`equality_of_lists` puts this together with what it means for expressions that are wrapped in lists.
-/

namespace ArrowExpr

namespace Value

/-- One of the values is an integer and the other one a float. -/
def mixed : Value → Value → Bool
  | int _, float _ | float _, int _ => true
  | _, _ => false

def isList : Value → Bool
  | list _ => true
  | _ => false

/-- The values are equal if integers are promoted at any depth. -/
inductive Congruent : Value → Value → Prop
  | list {items others : List Value} :
      List.Forall₂ Congruent items others → Congruent (.list items) (.list others)
  | single {a b : Value} : a.isList = false → a.looselyEqual b → Congruent a b

/-- Somewhere inside the two lists, at positions that are the same, an integer stands opposite a
float. -/
inductive MixedInside : Value → Value → Prop
  | item {items others : List Value} {a b : Value} :
      (a, b) ∈ items.zip others → a.mixed b → MixedInside (.list items) (.list others)
  | deeper {items others : List Value} {a b : Value} :
      (a, b) ∈ items.zip others → MixedInside a b → MixedInside (.list items) (.list others)

section Lists

variable {a b : Value} {items others : List Value}

/-- Without promotion the same values are equal, apart from integers beside floats. -/
theorem beq_iff : Value.beq a b ↔ a.looselyEqual b ∧ a.mixed b = false := by
  cases a <;> cases b <;> simp [Value.beq, looselyEqual, floats?, mixed, BEq.beq]

theorem beqAll_iff_forall₂ :
    Value.beqAll items others ↔ List.Forall₂ (fun a b => Value.beq a b) items others := by
  induction items generalizing others with
  | nil => cases others <;> simp [Value.beqAll]
  | cons first rest ih => cases others <;> simp [Value.beqAll, ih]

/-- Lists are equal if their items are, and none of these pairs is mixed. -/
theorem looselyEqual_list_iff :
    (list items).looselyEqual (list others) ↔
      List.Forall₂ (fun a b => a.looselyEqual b) items others ∧
        ∀ pair ∈ items.zip others, pair.1.mixed pair.2 = false := by
  have unpromoted : (list items).looselyEqual (list others) = Value.beqAll items others := rfl
  simp only [unpromoted, beqAll_iff_forall₂, beq_iff, List.forall₂_iff_zip, and_assoc, forall_and,
    Prod.forall]

/-- Values that are equal stay so in lists of their own, unless they are mixed. -/
theorem looselyEqual_singleton (equal : a.looselyEqual b) :
    (list [a]).looselyEqual (list [b]) = !(a.mixed b) := by
  rw [Bool.eq_iff_iff, looselyEqual_list_iff]
  simp [equal]

theorem congruent_list_iff :
    (list items).Congruent (list others) ↔ List.Forall₂ Congruent items others := by
  constructor
  · intro congruent
    cases congruent with
    | list congruent => exact congruent
    | single single => cases single
  · exact .list

theorem not_mixedInside_list_iff :
    ¬(list items).MixedInside (list others) ↔
      ∀ pair ∈ items.zip others, ¬pair.1.MixedInside pair.2 ∧ pair.1.mixed pair.2 = false := by
  constructor
  · intro none pair there
    exact ⟨fun inside => none (.deeper there inside),
      Bool.eq_false_of_not_eq_true fun mixed => none (.item there mixed)⟩
  · intro none inside
    cases inside with
    | item there mixed => exact Bool.false_ne_true ((none _ there).2.symm.trans mixed)
    | deeper there inside => exact (none _ there).1 inside

theorem not_mixedInside_of_single (single : a.isList = false) : ¬a.MixedInside b := by
  intro inside
  cases inside <;> cases single

theorem congruent_iff_of_single (single : a.isList = false) :
    a.Congruent b ↔ a.looselyEqual b := by
  constructor
  · intro congruent
    cases congruent with
    | list => cases single
    | single _ equal => exact equal
  · exact .single single

end Lists

mutual

/-- Values are equal exactly if they are with promotion at any depth, and no integer inside of them
stands opposite a float. -/
theorem looselyEqual_iff_congruent : ∀ a b : Value,
    a.looselyEqual b ↔ a.Congruent b ∧ ¬a.MixedInside b
  | .list items, b => by
    cases b with
    | list others =>
      rw [looselyEqual_list_iff, congruent_list_iff, not_mixedInside_list_iff,
        forall₂_looselyEqual_iff items others, and_assoc, ← forall₂_and]
    | _ => exact iff_of_false Bool.false_ne_true fun both => nomatch both.1
  | .null, _ | .bool _, _ | .int _, _ | .float _, _ | .str _, _ | .callable _, _ => by
    rw [congruent_iff_of_single rfl, and_iff_left (not_mixedInside_of_single rfl)]

theorem forall₂_looselyEqual_iff : ∀ items others : List Value,
    List.Forall₂ (fun a b => a.looselyEqual b) items others ↔
      List.Forall₂ Congruent items others ∧
        ∀ pair ∈ items.zip others, ¬pair.1.MixedInside pair.2
  | [], [] => by simp
  | [], _ :: _ | _ :: _, [] => by simp
  | a :: items, b :: others => by
    rw [List.forall₂_cons, List.forall₂_cons, looselyEqual_iff_congruent a b,
      forall₂_looselyEqual_iff items others, List.zip_cons_cons, List.forall_mem_cons,
      and_and_and_comm]

end

end Value

open BinaryOp

section Expressions

variable {engine : EngineId} {scope : Scope} {depth : ℕ} {world left : World}

theorem yields_singleton {node : Node} {value : Value}
    (ran : Yields (evaluateAt depth engine scope node) world (.ok value) left) :
    Yields (evaluateAt (depth + 1) engine scope (.list [node])) world (.ok (.list [value]))
      left := by
  have items : Yields ([node].mapM (evaluateAt depth engine scope)) world (.ok [value]) left := by
    rw [List.mapM_cons]
    exact ran.bind (EvalM.run_pure left [value])
  exact items.bind (EvalM.run_pure left _)

theorem yields_eq {first second : Node} {a b : Value} {middle : World}
    (ran : Yields (evaluateAt depth engine scope first) world (.ok a) middle)
    (ranToo : Yields (evaluateAt depth engine scope second) middle (.ok b) left) :
    Yields (evaluateAt (depth + 1) engine scope (.binary .eq first second)) world
      (.ok (.bool (a.looselyEqual b))) left := by
  rw [evaluateAt_binary rfl]
  exact ran.bind (ranToo.bind (EvalM.run_ofOutcome left _))

theorem exists_of_yields_eq {first second : Node} {equal : Bool}
    (ran : Yields (evaluateAt (depth + 1) engine scope (.binary .eq first second)) world
      (.ok (.bool equal)) left) :
    ∃ a b middle, Yields (evaluateAt depth engine scope first) world (.ok a) middle ∧
      Yields (evaluateAt depth engine scope second) middle (.ok b) left ∧
      a.looselyEqual b = equal := by
  rw [evaluateAt_binary rfl] at ran
  obtain ⟨a, middle, firstRan, rest⟩ := ran.exists_of_bind
  obtain ⟨b, last, secondRan, applied⟩ := rest.exists_of_bind
  obtain ⟨outcome, rfl⟩ := yields_ofOutcome.mp applied
  cases outcome
  exact ⟨a, b, middle, firstRan, secondRan, rfl⟩

end Expressions

theorem BinaryOp.eq_holds_iff {a b : Value} : eq.Holds a b ↔ a.looselyEqual b := by
  rw [Holds, apply, Except.ok.injEq, Value.bool.injEq]

/-- Equality of lists.

* The items of equal lists are equal.
* Lists of equal items are equal exactly if no integer stands opposite a float.
* All in all equality is what it would be with promotion at any depth, except where inside of the
  values an integer stands opposite a float.
* If `a == b` is true, so is `[a] == [b]`, unless one side is an integer and the other one a float. -/
theorem equality_of_lists (xs ys : List Value) :
    (eq.Holds (.list xs) (.list ys) → List.Forall₂ eq.Holds xs ys) ∧
    (List.Forall₂ eq.Holds xs ys →
      (eq.Holds (.list xs) (.list ys) ↔
        ∀ pair ∈ xs.zip ys, pair.1.mixed pair.2 = false)) ∧
    (∀ a b : Value, eq.Holds a b ↔ a.Congruent b ∧ ¬a.MixedInside b) ∧
    ∀ engine scope depth world left (first second : Node),
      Yields (evaluateAt (depth + 1) engine scope (.binary .eq first second)) world
        (.ok (.bool true)) left →
      ∃ a b middle, Yields (evaluateAt depth engine scope first) world (.ok a) middle ∧
        Yields (evaluateAt depth engine scope second) middle (.ok b) left ∧
        Yields (evaluateAt (depth + 2) engine scope (.binary .eq (.list [first]) (.list [second])))
          world (.ok (.bool !(a.mixed b))) left := by
  have holds : eq.Holds = fun a b => (a.looselyEqual b : Prop) :=
    funext₂ fun _ _ => propext eq_holds_iff
  rw [holds]
  refine ⟨fun equal => (Value.looselyEqual_list_iff.mp equal).1,
    fun equal => Value.looselyEqual_list_iff.trans (and_iff_right equal),
    Value.looselyEqual_iff_congruent, fun engine scope depth world left first second ran => ?_⟩
  obtain ⟨a, b, middle, firstRan, secondRan, equal⟩ := exists_of_yields_eq ran
  refine ⟨a, b, middle, firstRan, secondRan, ?_⟩
  rw [← Value.looselyEqual_singleton equal]
  exact yields_eq (yields_singleton firstRan) (yields_singleton secondRan)

/-- `[[1], "a"]` is equal to a list of equal items. `1 == 1.0` is true and so `[1] == [1.0]` is not. -/
theorem equality_of_lists_one :
    let one := Node.constant (.int 1)
    let float := Node.constant (.float 1)
    eq.Holds (.list [.list [.int 1], .str "a"]) (.list [.list [.int 1], .str "a"]) ∧
      Yields (evaluateAt 2 ⟨0⟩ .empty (.binary .eq one float)) .empty (.ok (.bool true)) .empty ∧
      Yields (evaluateAt 3 ⟨0⟩ .empty (.binary .eq (.list [one]) (.list [float]))) .empty
        (.ok (.bool false)) .empty := by
  intro one float
  obtain ⟨-, ofItems, -, wrapped⟩ :=
    equality_of_lists [.list [.int 1], .str "a"] [.list [.int 1], .str "a"]
  have items : List.Forall₂ eq.Holds [.list [.int 1], .str "a"] [.list [.int 1], .str "a"] :=
    .cons rfl (.cons rfl .nil)
  have ran : Yields (evaluateAt 2 ⟨0⟩ .empty (.binary .eq one float)) .empty (.ok (.bool true))
      .empty := rfl
  obtain ⟨a, b, middle, firstRan, secondRan, ends⟩ := wrapped ⟨0⟩ .empty 1 .empty .empty one float ran
  cases firstRan
  cases secondRan
  exact ⟨(ofItems items).mpr (by decide), ran, ends⟩

/-- Equality is not a congruence for lists. -/
theorem not_equality_congruence :
    ¬∀ xs ys : List Value, eq.Holds (.list xs) (.list ys) ↔ List.Forall₂ eq.Holds xs ys := by
  intro claimed
  have equal := (claimed [.int 1] [.float 1]).mpr (.cons rfl .nil)
  cases equal

end ArrowExpr
