import ArrowExpr.Proofs.LiteralCode
/-!
# The tokens of generated code

The tokens of a node follow its structure (`Node.tokens`). Longest match splits the code of a node
into them (`Node.lexes_code`), if names are identifiers and calls are written plainly.

In a target with `--` there is one exception, which is part of the definition: the minus of a
negation and the minus of a negative literal make one token.
-/

namespace ArrowExpr

open Target

/-! ## Definitions -/

/-- Calls of the name are plain: it is not registered, or stands for a function that is written by
its name. -/
def Registry.PlainAt (registry : Registry) (name : String) : Prop :=
  ∀ function, registry.find? name = some function →
    ∃ evaluate, function = HostFunction.plain name evaluate

/-- The items with a comma between them. -/
def separatedTokens : List (List (List Char)) → List (List Char)
  | [] => []
  | first :: rest => first ++ rest.flatMap ([','] :: ·)

namespace Node

/-- What an arrow function returns: its body, or null. -/
def returned (body : Option Node) : Node := body.getD (constant .null)

/-- All names are identifiers, and all calls are plain. -/
inductive Plain (registry : Registry) : Node → Prop where
  | constant {l : Literal} : Plain registry (constant l)
  | name {x : String} : IsIdentifier x.toList → Plain registry (name x)
  | unary {op : UnaryOp} {operand : Node} : Plain registry operand →
      Plain registry (unary op operand)
  | binary {op : BinaryOp} {left right : Node} : Plain registry left → Plain registry right →
      Plain registry (binary op left right)
  | call {function : String} {arguments : List Node} : IsIdentifier function.toList →
      registry.PlainAt function → (∀ argument ∈ arguments, Plain registry argument) →
      Plain registry (call function arguments)
  | list {items : List Node} : (∀ item ∈ items, Plain registry item) →
      Plain registry (list items)
  | arrow {parameters : List String} {body : Option Node} :
      (∀ parameter ∈ parameters, IsIdentifier parameter.toList) →
      Plain registry (returned body) → Plain registry (arrow parameters body)

/-- A negative number. -/
def isNegative : Node → Bool
  | constant l => l.isNegative
  | _ => false

/-- The tokens of an operator and its operand. In a stepping target the minus of a negation and that
of a negative number are one token. -/
def unaryTokens (stepping : Bool) (op : UnaryOp) (negative : Bool) (operand : List (List Char)) :
    List (List Char) :=
  if stepping && negative && op == .neg then ['-', '-'] :: operand.drop 1
  else op.code.toList :: operand

/-- The tokens of an arrow function, from the tokens of what it returns. -/
def arrowTokens (parameters : List String) (returned : List (List Char)) : List (List Char) :=
  "function".toList :: ['('] ::
    (separatedTokens (parameters.map fun parameter => [(variableCode parameter).toList]) ++
      [')'] :: ['\x7b'] :: "return".toList :: (returned ++ [[';'], ['\x7d']]))

mutual

/-- The tokens that the code of a node is made of. A target without `--` reads them as they are
written. -/
def tokens (stepping : Bool) : Node → List (List Char)
  | constant l => l.tokens
  | name x => [(variableCode x).toList]
  | unary op operand =>
    ['('] :: (unaryTokens stepping op operand.isNegative (tokens stepping operand) ++ [[')']])
  | binary op left right =>
    ['('] :: (tokens stepping left ++ op.code.toList :: (tokens stepping right ++ [[')']]))
  | call function arguments =>
    function.toList :: ['('] :: (separatedTokens (tokensAll stepping arguments) ++ [[')']])
  | list items => ['['] :: (separatedTokens (tokensAll stepping items) ++ [[']']])
  | arrow parameters none => arrowTokens parameters Literal.null.tokens
  | arrow parameters (some body) => arrowTokens parameters (tokens stepping body)

/-- The tokens of several nodes. -/
def tokensAll (stepping : Bool) : List Node → List (List (List Char))
  | [] => []
  | node :: rest => tokens stepping node :: tokensAll stepping rest

end

theorem tokensAll_eq_map (stepping : Bool) (nodes : List Node) :
    tokensAll stepping nodes = nodes.map (tokens stepping) := by
  induction nodes with
  | nil => rfl
  | cons node rest ih => rw [tokensAll, ih, List.map_cons]

theorem tokens_arrow (stepping : Bool) (parameters : List String) (body : Option Node) :
    (arrow parameters body).tokens stepping =
      arrowTokens parameters ((returned body).tokens stepping) := by
  cases body <;> rfl

theorem code_arrow (registry : Registry) (parameters : List String) (body : Option Node) :
    (arrow parameters body).code registry =
      arrowCode parameters ((returned body).code registry) := by
  cases body <;> rfl

end Node

theorem Registry.PlainAt.callCode_eq {registry : Registry} {name : String}
    (plain : registry.PlainAt name) (arguments : List String) :
    registry.callCode name arguments = HostFunction.plainCode name arguments := by
  unfold Registry.callCode
  cases found : registry.find? name with
  | none => rfl
  | some function =>
    obtain ⟨evaluate, rfl⟩ := plain function found
    rfl

/-! ## Pieces of text -/

/-- In front of a delimiter, longest match splits the text into the tokens. -/
def Reads (stepping : Bool) (text : List Char) (tokens : List (List Char)) : Prop :=
  ∀ rest more, (∀ c, rest.head? = some c → c ∈ delimiters) → Lexes stepping rest more →
    Lexes stepping (text ++ rest) (tokens ++ more)

variable {stepping : Bool}

theorem reads_word {word : List Char} (isWord : IsWord word) : Reads stepping word [word] :=
  fun _ _ ends lexes => .token (longest_of_word isWord ends) lexes

theorem reads_string {text : List Char} (ends : IsStringEnd text) :
    Reads stepping ('"' :: text) ['"' :: text] :=
  fun _ _ _ lexes => .token (longest_of_string ends) lexes

/-- The symbols that no other symbol starts with. -/
def brackets : List Char := ['(', ')', '[', ']', '\x7b', '\x7d', ',', ';']

/-- Brackets and punctuation end wherever they stand. -/
theorem lexes_bracket (bracket : Char) {rest : List Char} {more : List (List Char)}
    (isBracket : bracket ∈ brackets) (lexes : Lexes stepping rest more) :
    Lexes stepping (bracket :: rest) ([bracket] :: more) := by
  have alone : ∀ bracket ∈ brackets, [bracket] ∈ symbols stepping ∧
      ∀ other ∈ symbols stepping, other.head? = some bracket → other = [bracket] :=
    List.all_iff_forall_prop.mp (by cases stepping <;> decide)
  obtain ⟨symbol, only⟩ := alone bracket isBracket
  refine .token (longest_of_symbol symbol fun c _ other otherSymbol longer => ?_) lexes
  obtain ⟨after, rfl⟩ := longer
  have same := only _ otherSymbol rfl
  cases same

/-- An operator ends at a blank. -/
theorem lexes_operator {operator rest : List Char} {more : List (List Char)}
    (symbol : operator ∈ symbols stepping) (lexes : Lexes stepping rest more) :
    Lexes stepping (operator ++ ' ' :: rest) (operator :: more) := by
  refine .token (longest_of_symbol symbol fun c here other otherSymbol longer => ?_) (.blank lexes)
  have noBlank : ∀ stepping, ∀ other ∈ symbols stepping, ' ' ∉ other := by decide
  cases Option.some.inj here
  exact noBlank stepping other otherSymbol (longer.subset (by simp))

theorem symbol_code_mem (op : BinaryOp) : op.code.toList ∈ symbols stepping := by
  have all : ∀ stepping, ∀ op ∈ BinaryOp.all, op.code.toList ∈ symbols stepping := by decide
  exact all stepping op op.mem_all

theorem delimited_later {α : Type} {text : α → List Char} {items : List α} {rest : List Char}
    (ends : ∀ c, rest.head? = some c → c ∈ delimiters) :
    ∀ c, (items.flatMap (fun item => [',', ' '] ++ text item) ++ rest).head? = some c →
      c ∈ delimiters := by
  intro c here
  cases items with
  | nil => exact ends c here
  | cons item others =>
    cases Option.some.inj here
    decide

theorem reads_later {α : Type} {text : α → List Char} {tokens : α → List (List Char)}
    {items : List α} (reads : ∀ item ∈ items, Reads stepping (text item) (tokens item)) :
    Reads stepping (items.flatMap fun item => [',', ' '] ++ text item)
      (items.flatMap fun item => [','] :: tokens item) := by
  intro rest more ends lexes
  induction items with
  | nil => exact lexes
  | cons item others ih =>
    rw [List.forall_mem_cons] at reads
    have later := reads.1 _ _ (delimited_later ends) (ih reads.2)
    simp only [List.flatMap_cons, List.append_assoc, List.cons_append, List.nil_append]
    exact lexes_bracket ',' (by decide) (.blank later)

/-- Items with a comma and a blank between them. -/
theorem reads_separated {α : Type} {text : α → List Char} {tokens : α → List (List Char)}
    {items : List α} (reads : ∀ item ∈ items, Reads stepping (text item) (tokens item)) :
    Reads stepping ([',', ' '].intercalate (items.map text))
      (separatedTokens (items.map tokens)) := by
  intro rest more ends lexes
  cases items with
  | nil => exact lexes
  | cons item others =>
    rw [List.forall_mem_cons] at reads
    have later := reads.1 _ _ (delimited_later ends) (reads_later reads.2 rest more ends lexes)
    rw [List.map_cons, List.map_cons, intercalate_eq_flatMap, separatedTokens, List.flatMap_map,
      List.flatMap_map, List.append_assoc, List.append_assoc]
    exact later

/-! ## The code of a node -/

namespace Node

variable {registry : Registry}

/-- What code starts with, apart from the minus of a number. -/
def startsCode (c : Char) : Bool := startsWord c || c == '"' || c == '(' || c == '['

/-- A sign in front of code is a token, if the code does not start with a minus. -/
theorem lexes_sign {sign first : Char} {rest : List Char} {more : List (List Char)}
    (symbol : [sign] ∈ symbols stepping) (starts : startsCode first)
    (lexes : Lexes stepping (first :: rest) more) :
    Lexes stepping (sign :: first :: rest) ([sign] :: more) := by
  -- no symbol goes on with a character that code starts with
  have seconds : ∀ stepping, ∀ other ∈ symbols stepping,
      (other.drop 1).any startsCode = false := by
    decide
  refine .token (longest_of_symbol symbol fun c here other otherSymbol longer => ?_) lexes
  cases Option.some.inj here
  obtain ⟨after, rfl⟩ := longer
  have notStart := seconds stepping _ otherSymbol
  simp [starts] at notStart

theorem lexes_minus {word rest : List Char} {more : List (List Char)} (isWord : IsWord word)
    (lexes : Lexes stepping (word ++ rest) more) :
    Lexes stepping ('-' :: (word ++ rest)) (['-'] :: more) := by
  obtain ⟨first, others, rfl, starts⟩ := isWord.start
  have minus : ∀ stepping, ['-'] ∈ symbols stepping := by decide
  exact lexes_sign (minus stepping) (by simp [startsCode, starts]) lexes

theorem reads_literal (l : Literal) : Reads stepping l.code.toList l.tokens := by
  unfold Literal.tokens
  split
  next negative =>
    obtain ⟨word, text, isWord⟩ := Literal.code_of_isNegative negative
    rw [text]
    intro rest more ends lexes
    exact lexes_minus isWord (reads_word isWord rest more ends lexes)
  next notNegative =>
    rcases Literal.code_of_not_isNegative (Bool.eq_false_of_not_eq_true notNegative) with
      isWord | ⟨text, quoted, isEnd⟩
    · exact reads_word isWord
    · rw [quoted]
      exact reads_string isEnd

/-- What code starts with that is not a negative number. -/
theorem exists_head?_code {node : Node} (plain : node.Plain registry)
    (notNegative : node.isNegative = false) :
    ∃ first, (node.code registry).toList.head? = some first ∧ startsCode first := by
  cases plain with
  | @constant l =>
    rcases Literal.code_of_not_isNegative notNegative with isWord | ⟨text, quoted, _⟩
    · obtain ⟨first, rest, same, starts⟩ := isWord.start
      exact ⟨first, congrArg List.head? same, by simp [startsCode, starts]⟩
    · exact ⟨'"', congrArg List.head? quoted, rfl⟩
  | name => exact ⟨'$', by simp [code, variableCode], rfl⟩
  | unary => exact ⟨'(', by simp [code], rfl⟩
  | binary => exact ⟨'(', by simp [code], rfl⟩
  | call identifier plainAt =>
    obtain ⟨first, rest, same, starts⟩ := identifier.start
    refine ⟨first, ?_, by simp [startsCode, startsWord, inIdentifier_of_starts starts]⟩
    simp [code, plainAt.callCode_eq, HostFunction.plainCode, same]
  | list => exact ⟨'[', by simp [code], rfl⟩
  | arrow => exact ⟨'f', by simp [code_arrow, arrowCode, functionCode], rfl⟩

/-- The sign of a unary operator. -/
theorem exists_code_eq (op : UnaryOp) :
    ∃ sign, op.code.toList = [sign] ∧ ∀ stepping, [sign] ∈ symbols stepping := by
  cases op with
  | neg => exact ⟨'-', by decide, by decide⟩
  | pos => exact ⟨'+', by decide, by decide⟩
  | not => exact ⟨'!', by decide, by decide⟩

/-- Only a negation makes one token with the minus of its operand. -/
theorem lexes_sign_minus {op : UnaryOp} (apart : stepping = false ∨ op ≠ .neg) {rest : List Char}
    {more : List (List Char)} (lexes : Lexes stepping ('-' :: rest) more) :
    Lexes stepping (op.code.toList ++ '-' :: rest) (op.code.toList :: more) := by
  have alone : ∀ stepping, ∀ op ∈ UnaryOp.all, stepping = false ∨ op ≠ .neg →
      op.code.toList ∈ symbols stepping ∧
        ∀ other ∈ symbols stepping, ¬op.code.toList ++ ['-'] <+: other := by decide
  obtain ⟨symbol, only⟩ := alone stepping op op.mem_all apart
  refine .token (longest_of_symbol symbol fun c here => ?_) lexes
  cases Option.some.inj here
  exact only

theorem lexes_double_minus {rest : List Char} {more : List (List Char)}
    (lexes : Lexes true rest more) : Lexes true ('-' :: '-' :: rest) (['-', '-'] :: more) := by
  have short : ∀ other ∈ symbols true, other.length ≤ 2 := by decide
  have symbol : ['-', '-'] ∈ symbols true := by decide
  refine .token (longest_of_symbol symbol fun c _ other otherSymbol longer => ?_) lexes
  exact absurd (short other otherSymbol) (Nat.not_le.mpr longer.length_le)

theorem lexes_unary (op : UnaryOp) {operand : Node} (plain : operand.Plain registry)
    (reads : Reads stepping (operand.code registry).toList (operand.tokens stepping))
    {rest : List Char} {more : List (List Char)}
    (ends : ∀ c, rest.head? = some c → c ∈ delimiters) (lexes : Lexes stepping rest more) :
    Lexes stepping (op.code.toList ++ ((operand.code registry).toList ++ rest))
      (unaryTokens stepping op operand.isNegative (operand.tokens stepping) ++ more) := by
  have inner := reads rest more ends lexes
  -- only a negative number starts with a character that an operator could go on with
  cases negative : operand.isNegative with
  | false =>
    obtain ⟨first, head, starts⟩ := exists_head?_code plain negative
    obtain ⟨others, same⟩ := List.head?_eq_some_iff.mp head
    obtain ⟨sign, isSign, symbol⟩ := exists_code_eq op
    have none : unaryTokens stepping op false (operand.tokens stepping) =
        [sign] :: operand.tokens stepping := by simp [unaryTokens, isSign]
    rw [same] at inner
    rw [same, none, isSign]
    exact lexes_sign (symbol stepping) starts inner
  | true =>
    cases operand with
    | constant l =>
      obtain ⟨word, text, isWord⟩ := Literal.code_of_isNegative negative
      by_cases fused : stepping = true ∧ op = .neg
      · obtain ⟨rfl, rfl⟩ := fused
        have literal : l.isNegative = true := negative
        have parts : (constant l).tokens true = [['-'], word] := by
          rw [Node.tokens, Literal.tokens, if_pos literal, text]
          rfl
        rw [parts, code, text]
        exact lexes_double_minus (reads_word isWord rest more ends lexes)
      · have apart : stepping = false ∨ op ≠ .neg := by
          simpa [Classical.or_iff_not_imp_left] using fused
        have none : unaryTokens stepping op true ((constant l).tokens stepping) =
            op.code.toList :: (constant l).tokens stepping := by
          rcases apart with steady | notNeg
          · simp [unaryTokens, steady]
          · simp [unaryTokens, notNeg]
        rw [code, text] at inner
        rw [code, text, none]
        exact lexes_sign_minus apart inner
    | _ => cases negative

/-- Longest match splits the code of a node into its tokens. -/
theorem reads_code {node : Node} (plain : node.Plain registry) :
    Reads stepping (node.code registry).toList (node.tokens stepping) := by
  have closing : ∀ bracket ∈ [')', ']', ';'], ∀ (rest : List Char) (c : Char),
      (bracket :: rest).head? = some c → c ∈ delimiters := by
    simp +contextual [delimiters]
  -- the text is read from its end: each piece is put in front of what is read already
  induction plain with
  | constant => exact reads_literal _
  | name identifier =>
    rw [code, tokens, variableCode, String.toList_append]
    exact reads_word (.dollar identifier)
  | @unary op operand plain ih =>
    intro rest more ends lexes
    have closed := lexes_bracket ')' (by decide) lexes
    have inner := lexes_unary op plain ih (closing ')' (by decide) rest) closed
    have opened := lexes_bracket '(' (by decide) inner
    simpa [code, tokens] using opened
  | @binary op left right _ _ ihLeft ihRight =>
    intro rest more ends lexes
    have closed := lexes_bracket ')' (by decide) lexes
    have afterOp := ihRight _ _ (closing ')' (by decide) rest) closed
    have operator := lexes_operator (symbol_code_mem op) afterOp
    have afterLeft := ihLeft _ _ (by simp [delimiters]) (.blank operator)
    have opened := lexes_bracket '(' (by decide) afterLeft
    simpa [code, tokens] using opened
  | @call function arguments identifier plainAt _ ih =>
    intro rest more ends lexes
    have closed := lexes_bracket ')' (by decide) lexes
    have inner := reads_separated ih _ _ (closing ')' (by decide) rest) closed
    have opened := lexes_bracket '(' (by decide) inner
    have named := reads_word (.identifier identifier) _ _ (by simp [delimiters]) opened
    simpa [code, tokens, plainAt.callCode_eq, HostFunction.plainCode, codeAll_eq_map,
      tokensAll_eq_map, Function.comp_def] using named
  | @list items _ ih =>
    intro rest more ends lexes
    have closed := lexes_bracket ']' (by decide) lexes
    have inner := reads_separated ih _ _ (closing ']' (by decide) rest) closed
    have opened := lexes_bracket '[' (by decide) inner
    simpa [code, tokens, codeAll_eq_map, tokensAll_eq_map, Function.comp_def] using opened
  | @arrow parameters body identifiers _ ih =>
    intro rest more ends lexes
    have keyword : ∀ word ∈ ["function".toList, "return".toList], IsWord word := by
      intro word there
      rcases List.mem_pair.mp there with rfl | rfl
      · exact .identifier ⟨⟨'f', _, rfl, rfl⟩, by decide⟩
      · exact .identifier ⟨⟨'r', _, rfl, rfl⟩, by decide⟩
    have binders : ∀ parameter ∈ parameters,
        Reads stepping (variableCode parameter).toList [(variableCode parameter).toList] := by
      intro parameter there
      rw [variableCode, String.toList_append]
      exact reads_word (.dollar (identifiers parameter there))
    have last := lexes_bracket '\x7d' (by decide) lexes
    have ended := lexes_bracket ';' (by decide) (.blank last)
    have inner := ih _ _ (closing ';' (by decide) _) ended
    have returns := reads_word (keyword "return".toList (by simp)) _ _ (by simp [delimiters])
      (.blank inner)
    have body := lexes_bracket '\x7b' (by decide) (.blank returns)
    have closed := lexes_bracket ')' (by decide) (.blank body)
    have bound := reads_separated binders _ _ (closing ')' (by decide) _) closed
    have opened := lexes_bracket '(' (by decide) bound
    have named := reads_word (keyword "function".toList (by simp)) _ _ (by simp [delimiters])
      (.blank opened)
    have keywords : "function".toList = ['f', 'u', 'n', 'c', 't', 'i', 'o', 'n'] ∧
        "return".toList = ['r', 'e', 't', 'u', 'r', 'n'] := by decide
    rw [code_arrow, tokens_arrow]
    simpa [arrowCode, functionCode, arrowTokens, keywords, Function.comp_def] using named

theorem lexes_code {node : Node} (plain : node.Plain registry) :
    Lexes stepping (node.code registry).toList (node.tokens stepping) := by
  have lexes : Lexes stepping _ _ := reads_code plain [] [] nofun .done
  rwa [List.append_nil, List.append_nil] at lexes

end Node

end ArrowExpr
