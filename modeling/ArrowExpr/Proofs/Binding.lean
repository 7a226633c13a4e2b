import ArrowExpr.Scope
/-!
# How the arguments of an arrow function are bound

The scope of a call is `Scope.ofList (parameters.zip arguments)`. It binds each parameter to the
argument at the last position of that parameter, and nothing else (`bindsLast_ofList`).
-/

namespace ArrowExpr

/-- The last position of the name among the parameters. -/
def LastAt (parameters : List String) (name : String) (index : Nat) : Prop :=
  parameters[index]? = some name ∧ ∀ after, index < after → parameters[after]? ≠ some name

/-- Each parameter has a last position. -/
theorem exists_lastAt {parameters : List String} {name : String} (parameter : name ∈ parameters) :
    ∃ index, LastAt parameters name index := by
  induction parameters with
  | nil => cases parameter
  | cons first rest ih =>
    by_cases again : name ∈ rest
    · obtain ⟨index, there, noneAfter⟩ := ih again
      refine ⟨index + 1, there, fun after less => ?_⟩
      cases after with
      | zero => cases less
      | succ after => exact noneAfter after (Nat.lt_of_succ_lt_succ less)
    · have same : name = first := (List.mem_cons.mp parameter).resolve_right again
      refine ⟨0, congrArg some same.symm, fun after less there => ?_⟩
      cases after with
      | zero => cases less
      | succ after => exact again (List.mem_of_getElem? there)

namespace Scope

/-- Each parameter is bound to the argument at its last position, and no other name is bound. -/
structure BindsLast (scope : Scope) (parameters : List String) (arguments : List Value) : Prop where
  bound : ∀ name index, LastAt parameters name index →
    ∃ value, arguments[index]? = some value ∧ scope.lookup? name = some value
  others : ∀ name, name ∉ parameters → scope.lookup? name = none

/-- Binding pairs one after the other, from a scope on. -/
def defineAll (scope : Scope) (pairs : List (String × Value)) : Scope :=
  pairs.foldl (fun scope (name, value) => scope.define name value) scope

theorem ofList_eq_defineAll (pairs : List (String × Value)) :
    ofList pairs = empty.defineAll pairs := rfl

/-- The last pair of a name counts, or else what the scope binds it to. -/
theorem lookup?_defineAll (pairs : List (String × Value)) (scope : Scope) (x : String) :
    (scope.defineAll pairs).lookup? x = (pairs.reverse.lookup x).or (scope.lookup? x) := by
  induction pairs generalizing scope with
  | nil => rfl
  | cons pair rest ih =>
    have single : [pair].lookup x = if pair.1 = x then some pair.2 else none := by
      rw [List.lookup_cons, List.lookup_nil]
      by_cases same : pair.1 = x
      · rw [if_pos same, beq_iff_eq.mpr same.symm]
      · rw [if_neg same, beq_eq_false_iff_ne.mpr (Ne.symm same)]
    have later := ih (scope.define pair.1 pair.2)
    rw [lookup?_define] at later
    rw [List.reverse_cons, List.lookup_append, Option.or_assoc, single]
    refine Eq.trans later (congrArg _ ?_)
    split
    · rfl
    · rfl

theorem lookup?_defineAll_of_not_mem {pairs : List (String × Value)} {name : String}
    (absent : name ∉ pairs.map Prod.fst) (scope : Scope) :
    (scope.defineAll pairs).lookup? name = scope.lookup? name := by
  induction pairs generalizing scope with
  | nil => rfl
  | cons pair rest ih =>
    rw [List.map_cons, List.mem_cons, not_or] at absent
    have later := ih absent.2 (scope.define pair.1 pair.2)
    rw [lookup?_define, if_neg (Ne.symm absent.1)] at later
    exact later

theorem lookup?_defineAll_of_last {parameters : List String} {name : String} {index : Nat}
    (last : LastAt parameters name index) {arguments : List Value} {value : Value}
    (argument : arguments[index]? = some value) (scope : Scope) :
    (scope.defineAll (parameters.zip arguments)).lookup? name = some value := by
  obtain ⟨there, noneAfter⟩ := last
  induction parameters generalizing index arguments scope with
  | nil => simp at there
  | cons parameter rest ih =>
    cases arguments with
    | nil => simp at argument
    | cons first others =>
      cases index with
      | zero =>
        -- the first pair counts, since the name does not come again
        have absent : name ∉ (rest.zip others).map Prod.fst := by
          intro present
          obtain ⟨pair, found, rfl⟩ := List.mem_map.mp present
          obtain ⟨after, again⟩ := List.mem_iff_getElem?.mp (List.of_mem_zip found).1
          exact noneAfter (after + 1) (Nat.succ_pos after) again
        have same : parameter = name := Option.some.inj there
        have kept := lookup?_defineAll_of_not_mem absent (scope.define parameter first)
        rw [lookup?_define, if_pos same] at kept
        exact kept.trans argument
      | succ index =>
        have inRest : rest[index]? = some name := there
        have argumentInRest : others[index]? = some value := argument
        refine ih argumentInRest (scope.define parameter first) inRest fun after less => ?_
        exact noneAfter (after + 1) (Nat.succ_lt_succ less)

theorem bindsLast_ofList {parameters : List String} {arguments : List Value}
    (enough : parameters.length ≤ arguments.length) :
    (ofList (parameters.zip arguments)).BindsLast parameters arguments := by
  rw [ofList_eq_defineAll]
  constructor
  · intro name index last
    have inside : index < parameters.length := (List.getElem?_eq_some_iff.mp last.1).1
    have argument := List.getElem?_eq_getElem (Nat.lt_of_lt_of_le inside enough)
    exact ⟨_, argument, lookup?_defineAll_of_last last argument empty⟩
  · intro name absent
    have unbound : name ∉ (parameters.zip arguments).map Prod.fst := by
      rw [List.map_fst_zip enough]
      exact absent
    rw [lookup?_defineAll_of_not_mem unbound, lookup?_empty]

namespace BindsLast

variable {scope : Scope} {parameters : List String} {arguments : List Value}

/-- Every parameter is bound. -/
theorem contains (binds : scope.BindsLast parameters arguments) {name : String}
    (parameter : name ∈ parameters) : scope.contains name := by
  obtain ⟨index, last⟩ := exists_lastAt parameter
  obtain ⟨value, _, bound⟩ := binds.bound name index last
  rw [contains_eq_isSome, bound]
  rfl

/-- Whatever is bound is one of the arguments. -/
theorem mem_of_lookup? (binds : scope.BindsLast parameters arguments) {name : String}
    {value : Value} (found : scope.lookup? name = some value) : value ∈ arguments := by
  by_cases parameter : name ∈ parameters
  · obtain ⟨index, last⟩ := exists_lastAt parameter
    obtain ⟨argument, there, bound⟩ := binds.bound name index last
    have same : value = argument := Option.some.inj (found.symm.trans bound)
    exact same ▸ List.mem_of_getElem? there
  · rw [binds.others name parameter] at found
    cases found

end BindsLast

/-- Arguments beyond the parameters are not bound at all. -/
theorem ofList_zip_take (parameters : List String) (arguments : List Value) :
    ofList (parameters.zip (arguments.take parameters.length)) =
      ofList (parameters.zip arguments) := by
  have same : parameters.zip (arguments.take parameters.length) = parameters.zip arguments := by
    induction parameters generalizing arguments with
    | nil => rfl
    | cons parameter rest ih =>
      cases arguments with
      | nil => rfl
      | cons first others => exact congrArg (List.cons (parameter, first)) (ih others)
  rw [same]

end Scope

end ArrowExpr
