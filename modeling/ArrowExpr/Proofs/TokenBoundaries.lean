import ArrowExpr.Proofs.CodeTokens
import ArrowExpr.Proofs.Writing
/-!
# Token boundaries in generated code

An operator is written directly in front of its operand. In a target with `--` this joins the minus
of a negation and that of a negative number, and nothing else (`lexes_compile_iff`): the code of the
negation of `-1` is `(--1)`.
-/

namespace ArrowExpr

open Target

namespace Node

/-- The node is the second one or a part of it. -/
inductive Within (node : Node) : Node → Prop where
  | self : Within node node
  | operand {operand : Node} {op : UnaryOp} : Within node operand → Within node (unary op operand)
  | left {left right : Node} {op : BinaryOp} : Within node left →
      Within node (binary op left right)
  | right {left right : Node} {op : BinaryOp} : Within node right →
      Within node (binary op left right)
  | argument {argument : Node} {function : String} {arguments : List Node} :
      argument ∈ arguments → Within node argument → Within node (call function arguments)
  | item {item : Node} {items : List Node} : item ∈ items → Within node item →
      Within node (list items)
  | body {body : Node} {parameters : List String} : Within node body →
      Within node (arrow parameters (some body))

/-- The node has no negation of a negative number. -/
def NoDoubleMinus (node : Node) : Prop :=
  ∀ l, (unary .neg (constant l)).Within node → l.isNegative = false

theorem mem_separatedTokens {items : List (List (List Char))} {item : List (List Char)}
    (there : item ∈ items) : item ⊆ separatedTokens items := by
  cases items with
  | nil => cases there
  | cons first rest =>
    intro token inside
    rw [separatedTokens, List.mem_append]
    rcases List.mem_cons.mp there with rfl | later
    · exact .inl inside
    · exact .inr (List.mem_flatMap.mpr ⟨item, later, List.mem_cons_of_mem _ inside⟩)

/-- A negation of a negative number makes a `--`. -/
theorem doubleMinus_mem_tokens {l : Literal} {node : Node}
    (within : (unary .neg (constant l)).Within node) (negative : l.isNegative) :
    ['-', '-'] ∈ node.tokens true := by
  induction within with
  | self => simp [tokens, unaryTokens, isNegative, negative]
  | @operand operand op _ ih =>
    rw [tokens, unaryTokens]
    split
    · simp
    · simp [ih]
  | left _ ih => simp [tokens, ih]
  | right _ ih => simp [tokens, ih]
  | @argument argument function arguments there _ ih =>
    have inside := mem_separatedTokens (List.mem_map_of_mem there) ih
    simp [tokens, tokensAll_eq_map, inside]
  | @item item items there _ ih =>
    have inside := mem_separatedTokens (List.mem_map_of_mem there) ih
    simp [tokens, tokensAll_eq_map, inside]
  | body _ ih => simp [tokens, arrowTokens, ih]

/-- Without such a negation the tokens are those of any other target. -/
theorem tokens_eq_of_noDoubleMinus {registry : Registry} {node : Node}
    (plain : node.Plain registry) (none : node.NoDoubleMinus) :
    node.tokens true = node.tokens false := by
  induction plain with
  | constant => rfl
  | name => rfl
  | @unary op operand _ ih =>
    have equal := ih fun l within => none l (.operand within)
    have apart : (operand.isNegative && op == .neg) = false := by
      cases operand with
      | constant l =>
        rw [Bool.and_eq_false_iff, beq_eq_false_iff_ne, or_iff_not_imp_right]
        intro isNeg
        rw [Classical.not_not.mp isNeg] at none
        exact none l .self
      | _ => rfl
    rw [tokens, tokens, equal, unaryTokens, Bool.true_and, apart]
    rfl
  | binary _ _ ihLeft ihRight =>
    rw [tokens, tokens, ihLeft fun l within => none l (.left within),
      ihRight fun l within => none l (.right within)]
  | @call function arguments _ _ _ ih =>
    have equal : arguments.map (tokens true) = arguments.map (tokens false) :=
      List.map_congr_left fun argument there =>
        ih argument there fun l within => none l (.argument there within)
    rw [tokens, tokens, tokensAll_eq_map, tokensAll_eq_map, equal]
  | @list items _ ih =>
    have equal : items.map (tokens true) = items.map (tokens false) :=
      List.map_congr_left fun item there =>
        ih item there fun l within => none l (.item there within)
    rw [tokens, tokens, tokensAll_eq_map, tokensAll_eq_map, equal]
  | @arrow parameters body _ _ ih =>
    cases body with
    | none => rfl
    | some body =>
      have equal : body.tokens true = body.tokens false := ih fun l within => none l (.body within)
      rw [tokens, tokens, equal]

end Node

theorem Target.Lexes.isToken {stepping : Bool} {text : List Char} {tokens : List (List Char)}
    (lexes : Lexes stepping text tokens) : ∀ token ∈ tokens, IsToken stepping token := by
  induction lexes with
  | done => simp
  | blank _ ih => exact ih
  | token longest _ ih => exact List.forall_mem_cons.mpr ⟨longest.isToken, ih⟩

theorem Target.not_isToken_doubleMinus : ¬IsToken false ['-', '-'] := by
  intro isToken
  cases isToken with
  | word word =>
    obtain ⟨first, rest, same, starts⟩ := word.start
    cases same
    cases starts
  | symbol symbol => exact absurd symbol (by decide)

/-- A target with `--` reads the tokens of a node as they are written exactly if the node has no
negation of a negative number. -/
theorem lexes_compile_iff (engine : EngineId) (world : World) {node : Node}
    (plain : node.Plain (world.registry engine)) :
    Lexes true (engine.compile node world).toList (node.tokens false) ↔ node.NoDoubleMinus := by
  rw [engine.compile_eq_code]
  constructor
  · intro written l within
    refine Bool.eq_false_of_not_eq_true fun negative => not_isToken_doubleMinus ?_
    -- longest match reads a `--`, which is none of the tokens that were written
    have doubled := Node.doubleMinus_mem_tokens within negative
    rw [(Node.lexes_code plain).unique written] at doubled
    exact (Node.lexes_code plain).isToken _ doubled
  · intro none
    rw [← Node.tokens_eq_of_noDoubleMinus plain none]
    exact Node.lexes_code plain

/-- The negation of `-1` is not read as it is written. -/
theorem not_lexes_compile_double_minus :
    let engine : EngineId := ⟨0⟩
    let world : World := (Builder.empty.build .empty).2
    let node : Node := .unary .neg (.constant (.int (-1)))
    engine.compile node world = "(--1)" ∧
      ¬Lexes true (engine.compile node world).toList (node.tokens false) := by
  intro engine world node
  refine ⟨rfl, fun lexes => ?_⟩
  have none := (lexes_compile_iff engine world (.unary .constant)).mp lexes
  have negative := none (.int (-1)) .self
  cases negative

end ArrowExpr
