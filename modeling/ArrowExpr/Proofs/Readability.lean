import ArrowExpr.Proofs.CodeTokens
import ArrowExpr.Proofs.Writing
/-!
# Different expressions have different code

The first tokens of a node tell its form (`Node.formOf_tokens`), and then the tokens tell its parts
one after the other (`Node.tellsApart`). Since longest match splits a text in one way, the code of a
node tells the node, up to missing bodies of arrow functions, which are written as null
(`compile_eq_iff`).
-/

namespace ArrowExpr

open Target

namespace Node

/-! ## Definitions -/

mutual

/-- The node with null for every missing body. -/
def filled : Node → Node
  | constant l => constant l
  | name x => name x
  | unary op operand => unary op (filled operand)
  | binary op left right => binary op (filled left) (filled right)
  | call function arguments => call function (filledAll arguments)
  | list items => list (filledAll items)
  | arrow parameters none => arrow parameters (some (constant .null))
  | arrow parameters (some body) => arrow parameters (some (filled body))

/-- Several nodes with null for every missing body. -/
def filledAll : List Node → List Node
  | [] => []
  | node :: rest => filled node :: filledAll rest

end

theorem filledAll_eq_map (nodes : List Node) : filledAll nodes = nodes.map filled := by
  induction nodes with
  | nil => rfl
  | cons node rest ih => rw [filledAll, ih, List.map_cons]

theorem filled_arrow (parameters : List String) (body : Option Node) :
    (arrow parameters body).filled = arrow parameters (some (returned body).filled) := by
  cases body <;> rfl

/-- The forms that the first two tokens tell apart. -/
inductive Form where
  | literal
  | variable
  | operator
  | list
  | function
deriving DecidableEq

/-- The form of a node. -/
def form : Node → Form
  | constant _ => .literal
  | name _ => .variable
  | unary .. => .operator
  | binary .. => .operator
  | call .. => .function
  | list _ => .list
  | arrow .. => .function

/-- The form that tokens start with. -/
def formOf (tokens : List (List Char)) : Form :=
  if tokens.head? = some ['('] then .operator
  else if tokens.head? = some ['['] then .list
  else if tokens.head?.bind List.head? = some '$' then .variable
  else if tokens[1]? = some ['('] then .function
  else .literal

/-- Tokens that do not go on with what stands in front of them. -/
def Closed (tokens : List (List Char)) : Prop :=
  tokens.head? ≠ some ['('] ∧ tokens.head? ≠ some ['\x7b']

variable {registry : Registry}

theorem formOf_literal (l : Literal) {rest : List (List Char)} (closed : Closed rest) :
    formOf (l.tokens ++ rest) = .literal := by
  by_cases negative : l.isNegative
  · obtain ⟨word, text, isWord⟩ := Literal.code_of_isNegative negative
    obtain ⟨first, others, rfl, starts⟩ := isWord.start
    have notBracket : first ≠ '(' := by
      rintro rfl
      cases starts
    simp [formOf, Literal.tokens, negative, text, notBracket]
  · obtain ⟨first, others, text, _⟩ := Literal.exists_code_eq_cons l
    have outside := Literal.not_mem_of_code_eq_cons text
    simp only [List.mem_cons, List.not_mem_nil, or_false, not_or] at outside
    have notBracket := closed.1
    rw [List.head?_eq_getElem?] at notBracket
    simp [formOf, Literal.tokens, negative, text, outside, notBracket]

theorem formOf_tokens {node : Node} (plain : node.Plain registry) {rest : List (List Char)}
    (closed : Closed rest) : formOf (node.tokens false ++ rest) = node.form := by
  cases plain with
  | constant => exact formOf_literal _ closed
  | name => simp [tokens, variableCode, formOf, form]
  | unary => simp [tokens, formOf, form]
  | binary => simp [tokens, formOf, form]
  | call identifier =>
    obtain ⟨first, rest, same, starts⟩ := identifier.start
    have notSymbol : first ≠ '(' ∧ first ≠ '[' ∧ first ≠ '$' := by
      refine ⟨?_, ?_, ?_⟩ <;> rintro rfl <;> cases starts
    simp [tokens, same, formOf, form, notSymbol]
  | list => simp [tokens, formOf, form]
  | arrow => simp [tokens_arrow, arrowTokens, formOf, form]

/-! ## What the first tokens tell -/

/-- What the tokens of a node start with. Only a negative number starts with a minus. -/
theorem exists_head?_tokens {node : Node} (plain : node.Plain registry) :
    ∃ token, (node.tokens false).head? = some token ∧
      token ∉ [[')'], [']'], ['+'], ['!']] ∧
      (token = ['-'] → ∃ l, node = constant l ∧ l.isNegative) := by
  have ofWord {word : List Char} (isWord : IsWord word) :
      word ∉ [[')'], [']'], ['+'], ['!']] ∧ word ≠ ['-'] := by
    simp only [List.mem_cons, List.not_mem_nil, or_false, not_or]
    refine ⟨⟨?_, ?_, ?_, ?_⟩, ?_⟩ <;> exact isWord.ne_singleton rfl
  cases plain with
  | @constant l =>
    by_cases negative : l.isNegative
    · have head : ((constant l).tokens false).head? = some ['-'] := by
        simp [tokens, Literal.tokens, negative]
      exact ⟨['-'], head, by decide, fun _ => ⟨l, rfl, negative⟩⟩
    · refine ⟨l.code.toList, by simp [tokens, Literal.tokens, negative], ?_⟩
      rcases Literal.code_of_not_isNegative (Bool.eq_false_of_not_eq_true negative) with
        isWord | ⟨text, quoted, _⟩
      · obtain ⟨notSymbol, notMinus⟩ := ofWord isWord
        exact ⟨notSymbol, fun minus => absurd minus notMinus⟩
      · simp [quoted]
  | @name x => exact ⟨_, rfl, by simp [variableCode], by simp [variableCode]⟩
  | unary => exact ⟨['('], rfl, by decide, by simp⟩
  | binary => exact ⟨['('], rfl, by decide, by simp⟩
  | call identifier =>
    obtain ⟨notSymbol, notMinus⟩ := ofWord (.identifier identifier)
    exact ⟨_, rfl, notSymbol, fun minus => absurd minus notMinus⟩
  | list => exact ⟨['['], rfl, by decide, by simp⟩
  | arrow =>
    rw [tokens_arrow]
    exact ⟨_, rfl, by decide, fun minus => absurd minus (by decide)⟩

/-- Behind a word at the start of a node stands a bracket, if nothing else follows the node. -/
theorem second_token {node : Node} (plain : node.Plain registry) {word second : List Char}
    {rest more : List (List Char)} (isWord : IsWord word)
    (same : node.tokens false ++ [')'] :: rest = word :: second :: more) :
    second = ['('] ∨ second = [')'] := by
  cases plain with
  | @constant l =>
    by_cases negative : l.isNegative
    · simp only [tokens, Literal.tokens, if_pos negative] at same
      exact absurd (List.cons.inj same).1.symm (isWord.ne_singleton rfl)
    · simp only [tokens, Literal.tokens, if_neg negative] at same
      exact .inr (List.cons.inj (List.cons.inj same).2).1.symm
  | name => exact .inr (List.cons.inj (List.cons.inj same).2).1.symm
  | unary => exact absurd (List.cons.inj same).1.symm (isWord.ne_singleton rfl)
  | binary => exact absurd (List.cons.inj same).1.symm (isWord.ne_singleton rfl)
  | call => exact .inl (List.cons.inj (List.cons.inj same).2).1.symm
  | list => exact absurd (List.cons.inj same).1.symm (isWord.ne_singleton rfl)
  | arrow =>
    rw [tokens_arrow] at same
    exact .inl (List.cons.inj (List.cons.inj same).2).1.symm

/-! ## The tokens tell the node -/

/-- The tokens of the node tell it, with what follows, from every other node. -/
def TellsApart (registry : Registry) (node : Node) : Prop :=
  ∀ {other : Node} {rest after : List (List Char)}, other.Plain registry → Closed rest →
    Closed after → node.tokens false ++ rest = other.tokens false ++ after →
    node.filled = other.filled ∧ rest = after

theorem closed_of_mem {token : List Char} {rest : List (List Char)}
    (closing : token ∈ [[')'], [']'], [','], [';']]) : Closed (token :: rest) := by
  have outside : ∀ token ∈ [[')'], [']'], [','], [';']], token ≠ ['('] ∧ token ≠ ['\x7b'] := by
    decide
  obtain ⟨notOpen, notBody⟩ := outside token closing
  exact ⟨fun head => notOpen (Option.some.inj head), fun head => notBody (Option.some.inj head)⟩

theorem closed_later {nodes : List Node} {close : List Char} {rest : List (List Char)}
    (closing : close ∈ [[')'], [']']]) :
    Closed (nodes.flatMap (fun node => [','] :: node.tokens false) ++ close :: rest) := by
  cases nodes with
  | nil => exact closed_of_mem (List.mem_of_mem_take (i := 2) closing)
  | cons => exact closed_of_mem (by decide)

theorem later_inj {nodes others : List Node} {close : List Char}
    (closing : close ∈ [[')'], [']']]) (tells : ∀ node ∈ nodes, TellsApart registry node)
    (plain : ∀ other ∈ others, other.Plain registry) {rest after : List (List Char)}
    (same : nodes.flatMap (fun node => [','] :: node.tokens false) ++ close :: rest =
      others.flatMap (fun other => [','] :: other.tokens false) ++ close :: after) :
    nodes.map filled = others.map filled ∧ rest = after := by
  have notComma : close ≠ [','] := by
    rintro rfl
    exact absurd closing (by decide)
  induction nodes generalizing others with
  | nil =>
    cases others with
    | nil => exact ⟨rfl, (List.cons.inj same).2⟩
    | cons => exact absurd (List.cons.inj same).1 notComma
  | cons node nodes ih =>
    cases others with
    | nil => exact absurd (List.cons.inj same).1.symm notComma
    | cons other others =>
      rw [List.forall_mem_cons] at tells plain
      simp only [List.flatMap_cons, List.cons_append, List.append_assoc, List.cons.injEq,
        true_and] at same
      obtain ⟨first, later⟩ := tells.1 plain.1 (closed_later closing) (closed_later closing) same
      obtain ⟨others, equal⟩ := ih tells.2 plain.2 later
      exact ⟨by rw [List.map_cons, List.map_cons, first, others], equal⟩

/-- Items between brackets are told one after the other. -/
theorem separated_inj {nodes others : List Node} {close : List Char}
    (closing : close ∈ [[')'], [']']]) (plain : ∀ node ∈ nodes, node.Plain registry)
    (tells : ∀ node ∈ nodes, TellsApart registry node)
    (plain' : ∀ other ∈ others, other.Plain registry) {rest after : List (List Char)}
    (same : separatedTokens (tokensAll false nodes) ++ close :: rest =
      separatedTokens (tokensAll false others) ++ close :: after) :
    filledAll nodes = filledAll others ∧ rest = after := by
  rw [tokensAll_eq_map, tokensAll_eq_map] at same
  rw [filledAll_eq_map, filledAll_eq_map]
  -- the list that ends first ends at a bracket, and no item starts with one
  have notFirst {node : Node} (isPlain : node.Plain registry) {more rest : List (List Char)} :
      node.tokens false ++ more ≠ close :: rest := by
    obtain ⟨token, head, notClose, _⟩ := exists_head?_tokens isPlain
    obtain ⟨others, tokens⟩ := List.head?_eq_some_iff.mp head
    rw [tokens]
    intro equal
    rw [(List.cons.inj equal).1] at notClose
    exact notClose (List.mem_append_left [['+'], ['!']] closing)
  cases nodes with
  | nil =>
    cases others with
    | nil => exact ⟨rfl, (List.cons.inj same).2⟩
    | cons other others =>
      simp only [List.map_cons, separatedTokens, List.append_assoc] at same
      exact absurd same.symm (notFirst (plain' other List.mem_cons_self))
  | cons node nodes =>
    cases others with
    | nil =>
      simp only [List.map_cons, separatedTokens, List.append_assoc] at same
      exact absurd same (notFirst (plain node List.mem_cons_self))
    | cons other others =>
      rw [List.forall_mem_cons] at tells plain'
      simp only [List.map_cons, separatedTokens, List.append_assoc, List.flatMap_map] at same
      obtain ⟨first, later⟩ := tells.1 plain'.1 (closed_later closing) (closed_later closing) same
      obtain ⟨others, equal⟩ := later_inj closing tells.2 plain'.2 later
      exact ⟨by rw [List.map_cons, List.map_cons, first, others], equal⟩

theorem tokens_unary (op : UnaryOp) (operand : Node) (rest : List (List Char)) :
    (unary op operand).tokens false ++ rest =
      ['('] :: op.code.toList :: (operand.tokens false ++ [')'] :: rest) := by
  simp [tokens, unaryTokens]

theorem tokens_binary (op : BinaryOp) (left right : Node) (rest : List (List Char)) :
    (binary op left right).tokens false ++ rest =
      ['('] :: (left.tokens false ++ op.code.toList :: (right.tokens false ++ [')'] :: rest)) := by
  simp [tokens]

theorem closed_operator (op : BinaryOp) (rest : List (List Char)) :
    Closed (op.code.toList :: rest) := by
  have outside : ∀ op ∈ BinaryOp.all, op.code.toList ≠ ['('] ∧ op.code.toList ≠ ['\x7b'] := by
    decide
  obtain ⟨notOpen, notBody⟩ := outside op op.mem_all
  exact ⟨fun head => notOpen (Option.some.inj head), fun head => notBody (Option.some.inj head)⟩

theorem binaryCode_inj {op other : BinaryOp} (same : op.code.toList = other.code.toList) :
    op = other := by
  have all : ∀ op ∈ BinaryOp.all, ∀ other ∈ BinaryOp.all,
      op.code.toList = other.code.toList → op = other := by decide
  exact all op op.mem_all other other.mem_all same

theorem unaryCode_inj {op other : UnaryOp} (same : op.code.toList = other.code.toList) :
    op = other := by
  have all : ∀ op ∈ UnaryOp.all, ∀ other ∈ UnaryOp.all,
      op.code.toList = other.code.toList → op = other := by decide
  exact all op op.mem_all other other.mem_all same

/-- A sign in front of an operand is not the minus of a number in front of an operator: behind the
number there would be a bracket. -/
theorem unary_ne_binary {op : UnaryOp} {operand : Node} (plain : operand.Plain registry)
    {op' : BinaryOp} {left right : Node} (plainLeft : left.Plain registry)
    {rest after : List (List Char)} :
    (unary op operand).tokens false ++ rest ≠ (binary op' left right).tokens false ++ after := by
  intro same
  rw [tokens_unary, tokens_binary] at same
  have inner := (List.cons.inj same).2
  obtain ⟨token, head, notSign, negative⟩ := exists_head?_tokens plainLeft
  obtain ⟨others, first⟩ := List.head?_eq_some_iff.mp head
  have sign : token = op.code.toList := by
    rw [first] at inner
    exact (List.cons.inj inner).1.symm
  -- so the left operand starts with a minus, and only a negative number does
  have minus : token = ['-'] := by
    cases op with
    | neg => exact sign
    | pos => exact absurd (sign ▸ by decide) notSign
    | not => exact absurd (sign ▸ by decide) notSign
  obtain ⟨l, rfl, isNegative⟩ := negative minus
  obtain ⟨word, text, isWord⟩ := Literal.code_of_isNegative isNegative
  have parts : (constant l).tokens false = [['-'], word] := by
    rw [tokens, Literal.tokens, if_pos isNegative, text]
    rfl
  rw [parts] at inner
  have behind := second_token plain isWord (List.cons.inj inner).2
  have notBracket : ∀ op ∈ BinaryOp.all, op.code.toList ≠ ['('] ∧ op.code.toList ≠ [')'] := by
    decide
  obtain ⟨notOpen, notClose⟩ := notBracket op' op'.mem_all
  exact behind.elim notOpen notClose

theorem literal_ne_minus {l : Literal} (notNegative : l.isNegative = false) :
    l.code.toList ≠ ['-'] := by
  intro minus
  rcases Literal.code_of_not_isNegative notNegative with isWord | ⟨text, quoted, _⟩
  · exact isWord.ne_singleton rfl minus
  · rw [minus] at quoted
    cases quoted

theorem literal_inj {l other : Literal} {rest after : List (List Char)}
    (same : l.tokens ++ rest = other.tokens ++ after) : l = other ∧ rest = after := by
  suffices texts : l.code.toList = other.code.toList ∧ rest = after from
    ⟨Literal.code_injective (String.toList_inj.mp texts.1), texts.2⟩
  unfold Literal.tokens at same
  split at same
  next negative =>
    split at same
    next negative' =>
      obtain ⟨word, text, _⟩ := Literal.code_of_isNegative negative
      obtain ⟨word', text', _⟩ := Literal.code_of_isNegative negative'
      rw [text, text'] at same
      obtain ⟨words, equal⟩ := List.cons.inj (List.cons.inj same).2
      rw [text, text']
      exact ⟨congrArg _ words, equal⟩
    next notNegative =>
      exact absurd (List.cons.inj same).1.symm
        (literal_ne_minus (Bool.eq_false_of_not_eq_true notNegative))
  next notNegative =>
    split at same
    next =>
      exact absurd (List.cons.inj same).1
        (literal_ne_minus (Bool.eq_false_of_not_eq_true notNegative))
    next => exact List.cons.inj same

theorem form_eq {node other : Node} (plain : node.Plain registry) (plain' : other.Plain registry)
    {rest after : List (List Char)} (closed : Closed rest) (closed' : Closed after)
    (same : node.tokens false ++ rest = other.tokens false ++ after) : node.form = other.form := by
  rw [← formOf_tokens plain closed, same, formOf_tokens plain' closed']

theorem tellsApart_literal (l : Literal) : TellsApart registry (constant l) := by
  intro other rest after plain' closed closed' same
  have forms := form_eq .constant plain' closed closed' same
  cases plain' with
  | constant =>
    obtain ⟨rfl, equal⟩ := literal_inj same
    exact ⟨rfl, equal⟩
  | _ => cases forms

theorem tellsApart_name {x : String} (identifier : IsIdentifier x.toList) :
    TellsApart registry (name x) := by
  intro other rest after plain' closed closed' same
  have forms := form_eq (.name identifier) plain' closed closed' same
  cases plain' with
  | name =>
    obtain ⟨names, equal⟩ := List.cons.inj same
    rw [variableCode, variableCode, String.toList_append, String.toList_append,
      List.append_cancel_left_eq, String.toList_inj] at names
    exact ⟨congrArg name names, equal⟩
  | _ => cases forms

theorem tellsApart_unary {op : UnaryOp} {operand : Node} (plain : operand.Plain registry)
    (tells : TellsApart registry operand) : TellsApart registry (unary op operand) := by
  intro other rest after plain' closed closed' same
  have forms := form_eq (.unary plain) plain' closed closed' same
  cases plain' with
  | @unary op' operand' plainOperand =>
    rw [tokens_unary, tokens_unary] at same
    obtain ⟨signs, inner⟩ := List.cons.inj (List.cons.inj same).2
    obtain ⟨operands, closing⟩ := tells plainOperand (closed_of_mem (by decide))
      (closed_of_mem (by decide)) inner
    rw [filled, filled, operands, unaryCode_inj signs]
    exact ⟨rfl, (List.cons.inj closing).2⟩
  | binary plainLeft => exact absurd same (unary_ne_binary plain plainLeft)
  | _ => cases forms

theorem tellsApart_binary {op : BinaryOp} {left right : Node} (plain : left.Plain registry)
    (plainRight : right.Plain registry) (tells : TellsApart registry left)
    (tellsRight : TellsApart registry right) : TellsApart registry (binary op left right) := by
  intro other rest after plain' closed closed' same
  have forms := form_eq (.binary plain plainRight) plain' closed closed' same
  cases plain' with
  | unary plainOperand => exact absurd same.symm (unary_ne_binary plainOperand plain)
  | @binary op' left' right' plainLeft' plainRight' =>
    rw [tokens_binary, tokens_binary] at same
    obtain ⟨lefts, behind⟩ := tells plainLeft' (closed_operator op _) (closed_operator op' _)
      (List.cons.inj same).2
    obtain ⟨operators, inner⟩ := List.cons.inj behind
    obtain ⟨rights, closing⟩ := tellsRight plainRight' (closed_of_mem (by decide))
      (closed_of_mem (by decide)) inner
    rw [filled, filled, lefts, rights, binaryCode_inj operators]
    exact ⟨rfl, (List.cons.inj closing).2⟩
  | _ => cases forms

theorem tellsApart_list {items : List Node} (plain : ∀ item ∈ items, item.Plain registry)
    (tells : ∀ item ∈ items, TellsApart registry item) : TellsApart registry (list items) := by
  intro other rest after plain' closed closed' same
  have forms := form_eq (.list plain) plain' closed closed' same
  cases plain' with
  | @list items' plainItems =>
    simp only [tokens, List.cons_append, List.append_assoc, List.nil_append] at same
    obtain ⟨equal, rests⟩ := separated_inj (by decide) plain tells plainItems
      (List.cons.inj same).2
    rw [filled, filled, equal]
    exact ⟨rfl, rests⟩
  | _ => cases forms

/-! ### Calls and arrow functions -/

/-- The tokens of an arrow function are those of a call with the parameters, and its body. -/
theorem tokens_arrow_append (parameters : List String) (body : Option Node)
    (rest : List (List Char)) :
    (arrow parameters body).tokens false ++ rest =
      "function".toList :: ['('] :: (separatedTokens (tokensAll false (parameters.map name)) ++
        [')'] :: ['\x7b'] :: "return".toList ::
          ((returned body).tokens false ++ [';'] :: ['\x7d'] :: rest)) := by
  rw [tokens_arrow, tokensAll_eq_map, List.map_map]
  simp [arrowTokens, Function.comp_def, tokens]

theorem tokens_call_append (function : String) (arguments : List Node) (rest : List (List Char)) :
    (call function arguments).tokens false ++ rest =
      function.toList :: ['('] ::
        (separatedTokens (tokensAll false arguments) ++ [')'] :: rest) := by
  simp [tokens]

theorem plain_names {parameters : List String}
    (identifiers : ∀ parameter ∈ parameters, IsIdentifier parameter.toList) :
    ∀ node ∈ parameters.map name, node.Plain registry := by
  intro node there
  obtain ⟨parameter, isParameter, rfl⟩ := List.mem_map.mp there
  exact .name (identifiers parameter isParameter)

theorem tellsApart_names {parameters : List String}
    (identifiers : ∀ parameter ∈ parameters, IsIdentifier parameter.toList) :
    ∀ node ∈ parameters.map name, TellsApart registry node := by
  intro node there
  obtain ⟨parameter, isParameter, rfl⟩ := List.mem_map.mp there
  exact tellsApart_name (identifiers parameter isParameter)

theorem names_inj {parameters others : List String}
    (same : filledAll (parameters.map name) = filledAll (others.map name)) :
    parameters = others := by
  have kept (names : List String) : filledAll (names.map name) = names.map name := by
    induction names with
    | nil => rfl
    | cons first rest ih => rw [List.map_cons, filledAll, ih, filled]
  rw [kept, kept] at same
  exact List.map_injective_iff.mpr (fun _ _ equal => Node.name.inj equal) same

theorem tellsApart_call {function : String} {arguments : List Node}
    (identifier : IsIdentifier function.toList) (plainAt : registry.PlainAt function)
    (plain : ∀ argument ∈ arguments, argument.Plain registry)
    (tells : ∀ argument ∈ arguments, TellsApart registry argument) :
    TellsApart registry (call function arguments) := by
  intro other rest after plain' closed closed' same
  have forms := form_eq (.call identifier plainAt plain) plain' closed closed' same
  cases plain' with
  | @call function' arguments' _ _ plainArguments =>
    rw [tokens_call_append, tokens_call_append] at same
    obtain ⟨names, inner⟩ := List.cons.inj same
    obtain ⟨equal, rests⟩ := separated_inj (by decide) plain tells plainArguments
      (List.cons.inj inner).2
    rw [filled, filled, equal, String.toList_inj.mp names]
    exact ⟨rfl, rests⟩
  | arrow identifiers =>
    -- an arrow function goes on behind its parameters, a call does not
    rw [tokens_call_append, tokens_arrow_append] at same
    obtain ⟨_, rests⟩ := separated_inj (by decide) plain tells (plain_names identifiers)
      (List.cons.inj (List.cons.inj same).2).2
    rw [rests] at closed
    exact absurd rfl closed.2
  | _ => cases forms

theorem tellsApart_arrow {parameters : List String} {body : Option Node}
    (identifiers : ∀ parameter ∈ parameters, IsIdentifier parameter.toList)
    (plain : (returned body).Plain registry) (tells : TellsApart registry (returned body)) :
    TellsApart registry (arrow parameters body) := by
  intro other rest after plain' closed closed' same
  have forms := form_eq (.arrow identifiers plain) plain' closed closed' same
  have names : ∀ node ∈ parameters.map name, node.Plain registry := plain_names identifiers
  cases plain' with
  | call identifier plainAt plainArguments =>
    rw [tokens_arrow_append, tokens_call_append] at same
    obtain ⟨_, rests⟩ := separated_inj (by decide) names (tellsApart_names identifiers)
      plainArguments (List.cons.inj (List.cons.inj same).2).2
    rw [← rests] at closed'
    exact absurd rfl closed'.2
  | arrow identifiers' plainBody =>
    rw [tokens_arrow_append, tokens_arrow_append] at same
    obtain ⟨parameters, bodies⟩ := separated_inj (by decide) names (tellsApart_names identifiers)
      (plain_names identifiers') (List.cons.inj (List.cons.inj same).2).2
    have inner := (List.cons.inj (List.cons.inj bodies).2).2
    obtain ⟨equal, rests⟩ := tells plainBody (closed_of_mem (by decide))
      (closed_of_mem (by decide)) inner
    rw [filled_arrow, filled_arrow, names_inj parameters, equal]
    exact ⟨rfl, (List.cons.inj (List.cons.inj rests).2).2⟩
  | _ => cases forms

/-- The tokens of a node tell it from every other one. -/
theorem tellsApart {node : Node} (plain : node.Plain registry) : TellsApart registry node := by
  induction plain with
  | constant => exact tellsApart_literal _
  | name identifier => exact tellsApart_name identifier
  | unary plain tells => exact tellsApart_unary plain tells
  | binary plain plainRight tells tellsRight =>
    exact tellsApart_binary plain plainRight tells tellsRight
  | call identifier plainAt plain tells => exact tellsApart_call identifier plainAt plain tells
  | list plain tells => exact tellsApart_list plain tells
  | arrow identifiers plain tells => exact tellsApart_arrow identifiers plain tells

mutual

/-- Missing bodies are written as null. -/
theorem code_filled (registry : Registry) :
    (node : Node) → node.filled.code registry = node.code registry
  | constant _ => rfl
  | name _ => rfl
  | unary op operand => by rw [filled, code, code, code_filled registry operand]
  | binary op left right => by
    rw [filled, code, code, code_filled registry left, code_filled registry right]
  | call function arguments => by
    rw [filled, code, code, codeAll_filledAll registry arguments]
  | list items => by rw [filled, code, code, codeAll_filledAll registry items]
  | arrow _ none => rfl
  | arrow parameters (some body) => by rw [filled, code, code, code_filled registry body]

theorem codeAll_filledAll (registry : Registry) :
    (nodes : List Node) → codeAll registry (filledAll nodes) = codeAll registry nodes
  | [] => rfl
  | first :: rest => by
    rw [filledAll, codeAll, codeAll, code_filled registry first, codeAll_filledAll registry rest]

end

end Node

/-- Two expressions compile to the same text exactly if they are the same tree, with null for every
missing body. A `Float` is its bits, with one not-a-number, so this says that of float constants. -/
theorem compile_eq_iff (engine : EngineId) (world : World) {a b : Node}
    (plain : a.Plain (world.registry engine)) (plain' : b.Plain (world.registry engine)) :
    engine.compile a world = engine.compile b world ↔ a.filled = b.filled := by
  rw [engine.compile_eq_code, engine.compile_eq_code]
  constructor
  · intro same
    have lexes : Lexes false _ _ := Node.lexes_code plain
    rw [same] at lexes
    have tokens := lexes.unique (Node.lexes_code plain')
    have closed : Node.Closed [] := ⟨nofun, nofun⟩
    refine (Node.tellsApart plain plain' closed closed ?_).1
    rw [tokens]
  · intro same
    rw [← Node.code_filled, same, Node.code_filled]

/-- The call of a builtin with an arrow function, with and without its body. -/
theorem compile_eq_iff_missing_body :
    let engine : EngineId := ⟨0⟩
    let world : World := (Builder.empty.build .empty).2
    let a : Node := .call "max" [.arrow ["x"] none, .unary .neg (.constant (.int (-1)))]
    let b : Node :=
      .call "max" [.arrow ["x"] (some (.constant .null)), .unary .neg (.constant (.int (-1)))]
    a.Plain (world.registry engine) ∧ b.Plain (world.registry engine) ∧
      engine.compile a world = engine.compile b world := by
  intro engine world a b
  have identifier : IsIdentifier "max".toList := ⟨⟨'m', _, rfl, rfl⟩, by decide⟩
  have parameter : ∀ x ∈ ["x"], IsIdentifier x.toList := by
    intro x there
    rw [List.mem_singleton.mp there]
    exact ⟨⟨'x', _, rfl, rfl⟩, by decide⟩
  have plainAt : (world.registry engine).PlainAt "max" := by
    intro function found
    have registered : (world.registry engine).find? "max" = some Builtins.max := rfl
    rw [registered] at found
    exact ⟨_, (Option.some.inj found).symm⟩
  have plain (body : Option Node) (isNull : Node.returned body = .constant .null) :
      (Node.call "max" [.arrow ["x"] body, .unary .neg (.constant (.int (-1)))]).Plain
        (world.registry engine) := by
    refine .call identifier plainAt fun argument there => ?_
    rcases List.mem_pair.mp there with rfl | rfl
    · exact .arrow parameter (isNull ▸ .constant)
    · exact .unary .constant
  have plainA := plain none rfl
  have plainB := plain (some (.constant .null)) rfl
  exact ⟨plainA, plainB, (compile_eq_iff engine world plainA plainB).mpr rfl⟩

end ArrowExpr
