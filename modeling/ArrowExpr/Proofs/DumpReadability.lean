import ArrowExpr.Proofs.LiteralText
/-!
# Different expressions have different dumps

The dump of a node tells its form by what stands at its start (`Dump.formOf_dump`), and then its
parts one after the other (`Dump.tellsApart`): names must not be taken for literals or operators,
and strings end at their closing quote. So the dump tells the node (`dump_eq_iff`).
-/

namespace ArrowExpr

open Target

/-! ## Definitions -/

namespace Dump

/-- What ends a word in a dump. -/
def delimiters : List Char := [' ', ',', '(', ')', '[', ']', '\x7b', '\x7d', '"']

/-- What words are made of. -/
def inWord (c : Char) : Bool := !delimiters.contains c

/-- What names start with. -/
def startsName (c : Char) : Bool := inWord c && !c.isDigit && c != '-' && c != '+'

/-- The words that stand for literals. -/
def keywords : List String := ["null", "true", "false", "NaN", "inf"]

/-- The words that are no names. -/
def reserved : List String := keywords ++ ["and", "or", "not"]

/-- A name that is read as such: one word that does not start like a number, and is not reserved.
Identifiers are such names, whatever letters they are made of. -/
structure IsName (name : String) : Prop where
  start : ∃ first rest, name.toList = first :: rest ∧ startsName first
  inside : ∀ c ∈ name.toList, inWord c
  free : name ∉ reserved

end Dump

/-- All names are read as names in a dump. -/
inductive Node.Named : Node → Prop where
  | constant {l : Literal} : Named (constant l)
  | name {x : String} : Dump.IsName x → Named (name x)
  | unary {op : UnaryOp} {operand : Node} : Named operand → Named (unary op operand)
  | binary {op : BinaryOp} {left right : Node} : Named left → Named right →
      Named (binary op left right)
  | call {function : String} {arguments : List Node} : Dump.IsName function →
      (∀ argument ∈ arguments, Named argument) → Named (call function arguments)
  | list {items : List Node} : (∀ item ∈ items, Named item) → Named (list items)
  | arrow {parameters : List String} {body : Option Node} :
      (∀ parameter ∈ parameters, Dump.IsName parameter) → (∀ inner ∈ body, Named inner) →
      Named (arrow parameters body)

namespace Dump

/-- The forms that the start of a dump tells apart. -/
inductive Form where
  | string
  | word
  | unary
  | binary
  | call
  | list
  | arrow
deriving DecidableEq

/-- The form of a node. -/
def form : Node → Form
  | .constant (.str _) => .string
  | .constant _ => .word
  | .name _ => .word
  | .unary .. => .unary
  | .binary .. => .binary
  | .call .. => .call
  | .list _ => .list
  | .arrow .. => .arrow

/-- The signs of unary operators. -/
def signs : List (List Char) := UnaryOp.all.map (·.symbol.toList)

/-- The form that a text starts with. Behind an opening bracket, the first word and what ends it tell
operators and parameters apart. -/
def formOf : List Char → Form
  | '"' :: _ => .string
  | '[' :: _ => .list
  | '(' :: inner =>
    if inner.takeWhile inWord ∈ signs then .unary
    else if (inner.dropWhile inWord).head? ∈ [some ')', some ','] then .arrow
    else .binary
  | text => if (text.dropWhile inWord).head? = some '(' then .call else .word

/-- What follows a node in a dump. -/
def closers : List Char := [' ', ',', ')', ']', '\x7d']

/-- A node does not go on with the text. -/
def Closed (rest : List Char) : Prop := ∀ c, rest.head? = some c → c ∈ closers

/-- A word that stands for a literal. -/
inductive IsConstant : List Char → Prop where
  | keyword (word : String) : word ∈ keywords → IsConstant word.toList
  | number {text : List Char} : IsNumber text → IsConstant text
  | minus {text : List Char} : IsConstant text → IsConstant ('-' :: text)

/-- The text of what is read tells it, with what follows, from everything else that is legible. -/
def TellsApart {α : Type} (text : α → String) (legible : α → Prop) (a : α) : Prop :=
  ∀ {b : α} {rest after : List Char}, legible b → Closed rest → Closed after →
    (text a).toList ++ rest = (text b).toList ++ after → a = b ∧ rest = after

end Dump

/-! ## Literals -/

namespace Dump

theorem inWord_of_isDigit {c : Char} (digit : c.isDigit) : inWord c := by
  have outside : ∀ d ∈ delimiters, d.isDigit = false := List.all_iff_forall_prop.mp (by decide)
  have notThere : c ∉ delimiters := fun there =>
    Bool.noConfusion (digit.symm.trans (outside c there))
  simp [inWord, notThere]

theorem IsConstant.inside {text : List Char} (constant : IsConstant text) :
    ∀ c ∈ text, inWord c := by
  induction constant with
  | keyword word isKeyword =>
    have all : ∀ word ∈ keywords, word.toList.all inWord := by decide
    exact List.all_eq_true.mp (all word isKeyword)
  | number isNumber =>
    intro c there
    rcases isNumber.chars c there with digit | sign
    · exact inWord_of_isDigit digit
    · have all : ∀ c ∈ ['.', 'e', 'E', '+', '-'], inWord c := List.all_iff_forall_prop.mp (by decide)
      exact all c sign
  | minus _ ih => exact List.forall_mem_cons.mpr ⟨rfl, ih⟩

theorem IsConstant.ne_nil {text : List Char} (constant : IsConstant text) : text ≠ [] := by
  cases constant with
  | keyword word isKeyword =>
    have all : ∀ word ∈ keywords, word.toList ≠ [] := by decide
    exact all word isKeyword
  | number isNumber =>
    obtain ⟨first, rest, rfl, _⟩ := isNumber.start
    exact List.cons_ne_nil first rest
  | minus => exact List.cons_ne_nil _ _

theorem IsConstant.not_mem_signs {text : List Char} (constant : IsConstant text) :
    text ∉ signs := by
  cases constant with
  | keyword word isKeyword =>
    have all : ∀ word ∈ keywords, word.toList ∉ signs := by decide
    exact all word isKeyword
  | number isNumber =>
    obtain ⟨first, rest, rfl, digit⟩ := isNumber.start
    intro there
    have all : ∀ sign ∈ signs, sign.head?.all (!·.isDigit) := by decide
    have notDigit := all _ there
    rw [List.head?_cons, Option.all_some, digit] at notDigit
    cases notDigit
  | @minus inner constant =>
    intro there
    have all : ∀ sign ∈ signs, sign.head? = some '-' → sign.tail = [] := by decide
    exact constant.ne_nil (all _ there rfl)

theorem IsName.of_isIdentifier {name : String} (identifier : IsIdentifier name.toList)
    (free : name ∉ reserved) : IsName name := by
  have outside : ∀ c ∈ delimiters, inIdentifier c = false := List.all_iff_forall_prop.mp (by decide)
  have inside {c : Char} (inName : inIdentifier c) : inWord c := by
    have notThere : c ∉ delimiters := fun there =>
      Bool.noConfusion (inName.symm.trans (outside c there))
    simp [inWord, notThere]
  obtain ⟨first, rest, text, starts⟩ := identifier.start
  have notDigit : first.isDigit = false := by
    rw [Bool.eq_false_iff]
    intro digit
    exact Bool.noConfusion (starts.symm.trans (not_startsIdentifier_of_isDigit digit))
  have notSign : first ≠ '-' ∧ first ≠ '+' := by
    constructor <;> rintro rfl <;> cases starts
  refine ⟨⟨first, rest, text, ?_⟩, fun c there => ?_, free⟩
  · simp [startsName, inside (inIdentifier_of_starts starts), notDigit, notSign]
  · exact inside (List.all_eq_true.mp identifier.inside c there)

/-- No name is the text of a literal. -/
theorem IsName.not_isConstant {name : String} (isName : IsName name) :
    ¬IsConstant name.toList := by
  obtain ⟨first, rest, text, starts⟩ := isName.start
  intro constant
  generalize same : name.toList = word at constant
  cases constant with
  | keyword word isKeyword =>
    rw [String.toList_inj] at same
    exact isName.free (same ▸ List.mem_append_left _ isKeyword)
  | number isNumber =>
    obtain ⟨first', rest', rfl, digit⟩ := isNumber.start
    rw [text] at same
    rw [(List.cons.inj same).1, startsName, digit] at starts
    simp at starts
  | minus =>
    rw [text] at same
    rw [(List.cons.inj same).1] at starts
    exact absurd starts (by decide)

theorem IsName.not_mem_signs {name : String} (isName : IsName name) : name.toList ∉ signs := by
  obtain ⟨first, rest, text, starts⟩ := isName.start
  intro there
  have all : ∀ sign ∈ signs, sign.head?.any startsName → sign = "not".toList := by decide
  have isNot := all _ there (by rw [text, List.head?_cons, Option.any_some, starts])
  exact isName.free (String.toList_inj.mp isNot ▸ by decide)

end Dump

theorem FloatStyle.faithful_debug : FloatStyle.debug.Faithful where
  regular :=
    { number := NumberStyle.regular_debug
      notANumber := ⟨⟨'N', ['a', 'N'], rfl, rfl⟩, by decide⟩
      infinity := ⟨⟨'i', ['n', 'f'], rfl, rfl⟩, by decide⟩
      distinct := by decide }
  shortest := ⟨.up, rfl⟩
  pointed := rfl
  notANumber := rfl
  infinity := by decide

namespace Literal

theorem text_eq_write (l : Literal) : l.text = l.write .debug escape := by
  cases l with
  | bool b => cases b <;> rfl
  | _ => rfl

theorem readEscape_escape (c : Char) (rest : List Char) :
    Quoted.readEscape (escape c ++ rest) = some (c, rest) := by
  unfold escape
  split
  · rfl
  · rfl
  · rfl
  · rfl
  next notBackslash =>
    unfold Quoted.readEscape
    split <;> simp_all

theorem escape_readable : Quoted.Readable escape := by
  refine .of_readEscape readEscape_escape fun c => ?_
  unfold escape
  split <;> simp_all

theorem text_injective {l other : Literal} (same : l.text = other.text) : l = other := by
  rw [text_eq_write, text_eq_write] at same
  exact write_injective FloatStyle.faithful_debug escape_readable same

/-- A literal that is not a string is dumped as one word. -/
theorem isConstant_text {l : Literal} (notString : ∀ s, l ≠ str s) :
    Dump.IsConstant l.text.toList := by
  cases l with
  | null => exact .keyword "null" (by decide)
  | bool b =>
    cases b with
    | true => exact .keyword "true" (by decide)
    | false => exact .keyword "false" (by decide)
  | int n =>
    by_cases negative : n.toInt < 0
    · rw [text, toList_repr_of_neg negative]
      exact .minus (.number (.plain (.whole (isDigits_toDigits _))))
    · rw [text, toList_repr_of_nonneg (Int.not_lt.mp negative)]
      exact .number (.plain (.whole (isDigits_toDigits _)))
  | float x =>
    have unsigned : Dump.IsConstant (FloatStyle.debug.unsigned x.toModel.unpack) := by
      cases numeric : FloatStyle.isNumeric x.toModel.unpack with
      | true =>
        exact .number (FloatStyle.isNumber_unsigned NumberStyle.regular_debug numeric)
      | false =>
        cases unpacked : x.toModel.unpack with
        | notANumber => exact .keyword "NaN" (by decide)
        | infinity => exact .keyword "inf" (by decide)
        | _ =>
          rw [unpacked] at numeric
          cases numeric
    rw [text, FloatStyle.toList_write]
    cases FloatStyle.signOf x.toModel.unpack with
    | negative => exact .minus unsigned
    | positive => exact unsigned
  | str s => exact absurd rfl (notString s)

end Literal

/-! ## The texts of nodes -/

namespace Dump

open Node

theorem dump_unary (op : UnaryOp) (operand : Node) (rest : List Char) :
    (unary op operand).dump.toList ++ rest =
      '(' :: (op.symbol.toList ++ ' ' :: (operand.dump.toList ++ ')' :: rest)) := by
  simp [dump]

theorem dump_binary (op : BinaryOp) (left right : Node) (rest : List Char) :
    (binary op left right).dump.toList ++ rest =
      '(' :: (left.dump.toList ++
        ' ' :: (op.symbol.toList ++ ' ' :: (right.dump.toList ++ ')' :: rest))) := by
  simp [dump]

theorem dump_call (function : String) (arguments : List Node) (rest : List Char) :
    (call function arguments).dump.toList ++ rest =
      function.toList ++
        '(' :: ((commaSeparated (arguments.map dump)).toList ++ ')' :: rest) := by
  simp [dump, dumpAll_eq_map]

theorem dump_list (items : List Node) (rest : List Char) :
    (list items).dump.toList ++ rest =
      '[' :: ((commaSeparated (items.map dump)).toList ++ ']' :: rest) := by
  simp [dump, dumpAll_eq_map]

/-- The text of a body, if there is one. -/
def bodyText (body : Option Node) : List Char := body.elim [] (·.dump.toList)

theorem dump_arrow (parameters : List String) (body : Option Node) (rest : List Char) :
    (arrow parameters body).dump.toList ++ rest =
      '(' :: ((commaSeparated (parameters.map id)).toList ++
        ')' :: (" -> \x7b".toList ++ (bodyText body ++ '\x7d' :: rest))) := by
  cases body <;> simp [dump, bodyText]

theorem dump_string (s : String) (rest : List Char) :
    (constant (.str s)).dump.toList ++ rest =
      '"' :: (Quoted.escaped Literal.escape s.toList ++ '"' :: rest) := by
  simp [dump, Literal.text, Quoted.write]

/-! ## What the start of a dump tells -/

theorem closed_cons {c : Char} (closer : c ∈ closers) (rest : List Char) : Closed (c :: rest) := by
  intro d here
  rw [← Option.some.inj here]
  exact closer

theorem Closed.stops {rest : List Char} (closed : Closed rest) : Stops inWord rest := by
  intro c here
  have all : ∀ c ∈ closers, inWord c = false := List.all_iff_forall_prop.mp (by decide)
  exact all c (closed c here)

/-- Two words in front of what ends them are the same. -/
theorem word_inj {word other rest after : List Char} (inside : ∀ c ∈ word, inWord c)
    (inside' : ∀ c ∈ other, inWord c) (stops : Stops inWord rest) (stops' : Stops inWord after)
    (same : word ++ rest = other ++ after) : word = other ∧ rest = after := by
  obtain ⟨before, behind⟩ := span_append inside rest stops
  obtain ⟨before', behind'⟩ := span_append inside' after stops'
  rw [same] at before behind
  exact ⟨before.symm.trans before', behind.symm.trans behind'⟩

theorem formOf_word {word rest : List Char} (nonempty : word ≠ [])
    (inside : ∀ c ∈ word, inWord c) (stops : Stops inWord rest) :
    formOf (word ++ rest) = if rest.head? = some '(' then .call else .word := by
  obtain ⟨_, behind⟩ := span_append inside rest stops
  obtain ⟨first, others, rfl⟩ := List.exists_cons_of_ne_nil nonempty
  have isWord := inside first List.mem_cons_self
  have notDelimiter : first ≠ '"' ∧ first ≠ '[' ∧ first ≠ '(' := by
    refine ⟨?_, ?_, ?_⟩ <;> rintro rfl <;> exact absurd isWord (by decide)
  rw [formOf.eq_def]
  split
  next same => exact absurd (List.cons.inj same).1 notDelimiter.1
  next same => exact absurd (List.cons.inj same).1 notDelimiter.2.1
  next same => exact absurd (List.cons.inj same).1 notDelimiter.2.2
  next => rw [behind]

theorem formOf_closed_word {word rest : List Char} (nonempty : word ≠ [])
    (inside : ∀ c ∈ word, inWord c) (closed : Closed rest) : formOf (word ++ rest) = .word := by
  rw [formOf_word nonempty inside closed.stops, if_neg]
  intro call
  exact absurd (closed '(' call) (by decide)

theorem IsName.ne_nil {name : String} (isName : IsName name) : name.toList ≠ [] := by
  obtain ⟨first, rest, text, _⟩ := isName.start
  rw [text]
  exact List.cons_ne_nil first rest

theorem form_constant {l : Literal} (notString : ∀ s, l ≠ .str s) : form (constant l) = .word := by
  cases l with
  | str s => exact absurd rfl (notString s)
  | _ => rfl

/-- Behind an opening bracket, the first word and what ends it tell the form. -/
theorem formOf_bracket {word : List Char} (inside : ∀ c ∈ word, inWord c) {c : Char}
    (delimiter : inWord c = false) (rest : List Char) :
    formOf ('(' :: (word ++ c :: rest)) =
      if word ∈ signs then .unary else if c ∈ [')', ','] then .arrow else .binary := by
  obtain ⟨before, behind⟩ := span_append inside (c :: rest) (stops_cons delimiter rest)
  rw [formOf, before, behind, List.head?_cons]
  simp only [List.mem_cons, List.not_mem_nil, Option.some.injEq]

theorem form_mem_of_constant {node : Node} {l : Literal} (same : form node = form (constant l)) :
    form node ∈ [.string, .word] := by
  rw [same]
  cases l <;> simp [form]

/-- In front of a blank, a node starts with a word that is no sign, and no parameter ends there. -/
theorem starts_operand {node : Node} (named : node.Named) (rest : List Char) :
    ∃ word c tail, node.dump.toList ++ ' ' :: rest = word ++ c :: tail ∧
      (∀ c ∈ word, inWord c) ∧ word ∉ signs ∧ inWord c = false ∧ c ∉ [')', ','] := by
  cases named with
  | @constant l =>
    by_cases isString : ∃ s, l = .str s
    · obtain ⟨s, rfl⟩ := isString
      exact ⟨[], '"', _, dump_string s _, nofun, by decide, by decide, by decide⟩
    · have isConstant := Literal.isConstant_text fun s same => isString ⟨s, same⟩
      exact ⟨_, ' ', rest, rfl, isConstant.inside, isConstant.not_mem_signs, by decide, by decide⟩
  | name isName =>
    exact ⟨_, ' ', rest, rfl, isName.inside, isName.not_mem_signs, by decide, by decide⟩
  | unary => exact ⟨[], '(', _, dump_unary .., nofun, by decide, by decide, by decide⟩
  | binary => exact ⟨[], '(', _, dump_binary .., nofun, by decide, by decide, by decide⟩
  | call isName =>
    exact ⟨_, '(', _, dump_call .., isName.inside, isName.not_mem_signs, by decide, by decide⟩
  | list => exact ⟨[], '[', _, dump_list .., nofun, by decide, by decide, by decide⟩
  | arrow => exact ⟨[], '(', _, dump_arrow .., nofun, by decide, by decide, by decide⟩

/-- Parameters start with the first of them, if there is one, and then a comma or a bracket. -/
theorem starts_parameters {parameters : List String}
    (names : ∀ parameter ∈ parameters, IsName parameter) (rest : List Char) :
    ∃ word c tail, (commaSeparated (parameters.map id)).toList ++ ')' :: rest = word ++ c :: tail ∧
      (∀ c ∈ word, inWord c) ∧ word ∉ signs ∧ inWord c = false ∧ c ∈ [')', ','] := by
  cases parameters with
  | nil => exact ⟨[], ')', rest, rfl, nofun, by decide, by decide, by decide⟩
  | cons first others =>
    have isName := names first List.mem_cons_self
    rw [toList_commaSeparated, List.map_id, List.map_cons, intercalate_eq_flatMap,
      List.append_assoc]
    cases others with
    | nil =>
      exact ⟨_, ')', rest, rfl, isName.inside, isName.not_mem_signs, by decide, by decide⟩
    | cons => exact ⟨_, ',', _, rfl, isName.inside, isName.not_mem_signs, by decide, by decide⟩

theorem unarySymbol_inside (op : UnaryOp) : ∀ c ∈ op.symbol.toList, inWord c := by
  have all : ∀ op ∈ UnaryOp.all, op.symbol.toList.all inWord := by decide
  exact List.all_eq_true.mp (all op op.mem_all)

theorem binarySymbol_inside (op : BinaryOp) : ∀ c ∈ op.symbol.toList, inWord c := by
  have all : ∀ op ∈ BinaryOp.all, op.symbol.toList.all inWord := by decide
  exact List.all_eq_true.mp (all op op.mem_all)

theorem formOf_dump {node : Node} (named : node.Named) {rest : List Char} (closed : Closed rest) :
    formOf (node.dump.toList ++ rest) = form node := by
  cases named with
  | @constant l =>
    by_cases isString : ∃ s, l = .str s
    · obtain ⟨s, rfl⟩ := isString
      rw [dump_string, formOf, form]
    · have notString : ∀ s, l ≠ .str s := fun s same => isString ⟨s, same⟩
      have isConstant := Literal.isConstant_text notString
      rw [form_constant notString]
      exact formOf_closed_word isConstant.ne_nil isConstant.inside closed
  | name isName => exact formOf_closed_word isName.ne_nil isName.inside closed
  | @unary op =>
    rw [dump_unary, formOf_bracket (unarySymbol_inside op) (by decide), if_pos, form]
    exact List.mem_map_of_mem op.mem_all
  | binary named =>
    obtain ⟨word, c, tail, text, inside, notSign, delimiter, notParameter⟩ :=
      starts_operand named _
    rw [dump_binary, text, formOf_bracket inside delimiter, if_neg notSign, if_neg notParameter,
      form]
  | call isName =>
    rw [dump_call, formOf_word isName.ne_nil isName.inside (stops_cons (by decide) _)]
    rfl
  | list => rw [dump_list, formOf, form]
  | arrow names =>
    obtain ⟨word, c, tail, text, inside, notSign, delimiter, parameter⟩ :=
      starts_parameters names _
    rw [dump_arrow, text, formOf_bracket inside delimiter, if_neg notSign, if_pos parameter, form]

/-! ## The text tells the node -/

section

variable {α : Type} {text : α → String} {legible : α → Prop}

theorem closed_later {items : List α} {close : Char} (closer : close ∈ closers)
    (rest : List Char) :
    Closed (items.flatMap (fun item => [',', ' '] ++ (text item).toList) ++ close :: rest) := by
  cases items with
  | nil => exact closed_cons closer rest
  | cons => exact closed_cons (by decide) _

theorem later_inj {items others : List α} {close : Char} (closer : close ∈ closers)
    (notComma : close ≠ ',') (tells : ∀ item ∈ items, TellsApart text legible item)
    (legibles : ∀ other ∈ others, legible other) {rest after : List Char}
    (same : items.flatMap (fun item => [',', ' '] ++ (text item).toList) ++ close :: rest =
      others.flatMap (fun other => [',', ' '] ++ (text other).toList) ++ close :: after) :
    items = others ∧ rest = after := by
  induction items generalizing others with
  | nil =>
    cases others with
    | nil => exact ⟨rfl, (List.cons.inj same).2⟩
    | cons => exact absurd (List.cons.inj same).1 notComma
  | cons item items ih =>
    cases others with
    | nil => exact absurd (List.cons.inj same).1.symm notComma
    | cons other others =>
      rw [List.forall_mem_cons] at tells legibles
      simp only [List.flatMap_cons, List.append_assoc, List.cons_append, List.nil_append,
        List.cons.injEq, true_and] at same
      obtain ⟨rfl, later⟩ :=
        tells.1 legibles.1 (closed_later closer _) (closed_later closer _) same
      obtain ⟨rfl, equal⟩ := ih tells.2 legibles.2 later
      exact ⟨rfl, equal⟩

/-- Items between brackets are told one after the other, if none of them starts like the closing
bracket. -/
theorem separated_inj {items others : List α} {close : Char} (closer : close ∈ closers)
    (notComma : close ≠ ',')
    (notClose : ∀ a more rest, legible a → (text a).toList ++ more ≠ close :: rest)
    (legibles : ∀ item ∈ items, legible item) (tells : ∀ item ∈ items, TellsApart text legible item)
    (legibles' : ∀ other ∈ others, legible other) {rest after : List Char}
    (same : (commaSeparated (items.map text)).toList ++ close :: rest =
      (commaSeparated (others.map text)).toList ++ close :: after) :
    items = others ∧ rest = after := by
  rw [toList_commaSeparated, toList_commaSeparated] at same
  cases items with
  | nil =>
    cases others with
    | nil => exact ⟨rfl, (List.cons.inj same).2⟩
    | cons other others =>
      rw [List.map_cons, List.map_cons, intercalate_eq_flatMap, List.append_assoc] at same
      exact absurd same.symm (notClose other _ _ (legibles' other List.mem_cons_self))
  | cons item items =>
    cases others with
    | nil =>
      rw [List.map_cons, List.map_cons, intercalate_eq_flatMap, List.append_assoc] at same
      exact absurd same (notClose item _ _ (legibles item List.mem_cons_self))
    | cons other others =>
      rw [List.forall_mem_cons] at tells legibles'
      simp only [List.map_cons, intercalate_eq_flatMap, List.append_assoc, List.flatMap_map] at same
      obtain ⟨rfl, later⟩ :=
        tells.1 legibles'.1 (closed_later closer _) (closed_later closer _) same
      obtain ⟨rfl, equal⟩ := later_inj closer notComma tells.2 legibles'.2 later
      exact ⟨rfl, equal⟩

end

theorem word_ne_closer {word : List Char} (nonempty : word ≠ []) (inside : ∀ c ∈ word, inWord c)
    {close : Char} (closer : close ∈ closers) (more rest : List Char) :
    word ++ more ≠ close :: rest := by
  obtain ⟨first, others, rfl⟩ := List.exists_cons_of_ne_nil nonempty
  intro same
  have isWord := inside first List.mem_cons_self
  rw [(List.cons.inj same).1, (closed_cons closer []).stops close rfl] at isWord
  cases isWord

/-- No node starts like what follows one. -/
theorem dump_ne_closer {node : Node} (named : node.Named) {close : Char} (closer : close ∈ closers)
    (more rest : List Char) : node.dump.toList ++ more ≠ close :: rest := by
  have ofOpening {c : Char} (opening : c ∉ closers) (tail : List Char) :
      c :: tail ≠ close :: rest := by
    intro same
    exact opening ((List.cons.inj same).1 ▸ closer)
  cases named with
  | @constant l =>
    by_cases isString : ∃ s, l = .str s
    · obtain ⟨s, rfl⟩ := isString
      exact dump_string s more ▸ ofOpening (by decide) _
    · have isConstant := Literal.isConstant_text fun s same => isString ⟨s, same⟩
      exact word_ne_closer isConstant.ne_nil isConstant.inside closer more rest
  | name isName => exact word_ne_closer isName.ne_nil isName.inside closer more rest
  | unary => exact dump_unary .. ▸ ofOpening (by decide) _
  | binary => exact dump_binary .. ▸ ofOpening (by decide) _
  | call isName => exact dump_call .. ▸ word_ne_closer isName.ne_nil isName.inside closer _ rest
  | list => exact dump_list .. ▸ ofOpening (by decide) _
  | arrow => exact dump_arrow .. ▸ ofOpening (by decide) _

theorem form_eq {node other : Node} (named : node.Named) (named' : other.Named)
    {rest after : List Char} (closed : Closed rest) (closed' : Closed after)
    (same : node.dump.toList ++ rest = other.dump.toList ++ after) : form node = form other := by
  rw [← formOf_dump named closed, same, formOf_dump named' closed']

theorem tellsApart_string (s : String) : TellsApart dump Node.Named (constant (.str s)) := by
  intro other rest after named' closed closed' same
  have forms := form_eq .constant named' closed closed' same
  cases named' with
  | @constant l =>
    cases l with
    | str t =>
      rw [dump_string, dump_string] at same
      obtain ⟨texts, equal⟩ :=
        Quoted.escaped_inj Literal.escape_readable (List.cons.inj same).2
      rw [String.toList_inj.mp texts]
      exact ⟨rfl, equal⟩
    | _ => cases forms
  | _ => cases forms

theorem tellsApart_constant {l : Literal} (notString : ∀ s, l ≠ .str s) :
    TellsApart dump Node.Named (constant l) := by
  intro other rest after named' closed closed' same
  have forms := form_eq .constant named' closed closed' same
  have isConstant := Literal.isConstant_text notString
  rw [form_constant notString] at forms
  cases named' with
  | @constant l' =>
    have notString' : ∀ s, l' ≠ .str s := by
      rintro s rfl
      cases forms
    obtain ⟨texts, equal⟩ := word_inj isConstant.inside (Literal.isConstant_text notString').inside
      closed.stops closed'.stops same
    rw [Literal.text_injective (String.toList_inj.mp texts)]
    exact ⟨rfl, equal⟩
  | name isName =>
    obtain ⟨texts, _⟩ := word_inj isConstant.inside isName.inside closed.stops closed'.stops same
    exact absurd (texts ▸ isConstant) isName.not_isConstant
  | _ => cases forms

theorem name_inj {x y : String} (isName : IsName x) (isName' : IsName y) {rest after : List Char}
    (closed : Closed rest) (closed' : Closed after) (same : x.toList ++ rest = y.toList ++ after) :
    x = y ∧ rest = after := by
  obtain ⟨texts, equal⟩ := word_inj isName.inside isName'.inside closed.stops closed'.stops same
  exact ⟨String.toList_inj.mp texts, equal⟩

theorem tellsApart_name {x : String} (isName : IsName x) :
    TellsApart dump Node.Named (name x) := by
  intro other rest after named' closed closed' same
  have forms := form_eq (.name isName) named' closed closed' same
  cases named' with
  | @constant l =>
    have notString : ∀ s, l ≠ .str s := by
      rintro s rfl
      cases forms
    have isConstant := Literal.isConstant_text notString
    obtain ⟨texts, _⟩ := word_inj isName.inside isConstant.inside closed.stops closed'.stops same
    exact absurd (texts ▸ isConstant) isName.not_isConstant
  | name isName' =>
    obtain ⟨rfl, equal⟩ := name_inj isName isName' closed closed' same
    exact ⟨rfl, equal⟩
  | _ => cases forms

theorem unarySymbol_inj {op other : UnaryOp} (same : op.symbol.toList = other.symbol.toList) :
    op = other := by
  have all : ∀ op ∈ UnaryOp.all, ∀ other ∈ UnaryOp.all,
      op.symbol.toList = other.symbol.toList → op = other := by decide
  exact all op op.mem_all other other.mem_all same

theorem binarySymbol_inj {op other : BinaryOp} (same : op.symbol.toList = other.symbol.toList) :
    op = other := by
  have all : ∀ op ∈ BinaryOp.all, ∀ other ∈ BinaryOp.all,
      op.symbol.toList = other.symbol.toList → op = other := by decide
  exact all op op.mem_all other other.mem_all same

theorem tellsApart_unary {op : UnaryOp} {operand : Node} (named : operand.Named)
    (tells : TellsApart dump Node.Named operand) : TellsApart dump Node.Named (unary op operand) := by
  intro other rest after named' closed closed' same
  have forms := form_eq (.unary named) named' closed closed' same
  cases named' with
  | @unary op' operand' namedOperand =>
    rw [dump_unary, dump_unary] at same
    obtain ⟨symbols, inner⟩ := word_inj (unarySymbol_inside op) (unarySymbol_inside op')
      (stops_cons (by decide) _) (stops_cons (by decide) _) (List.cons.inj same).2
    obtain ⟨rfl, closing⟩ := tells namedOperand (closed_cons (by decide) _)
      (closed_cons (by decide) _) (List.cons.inj inner).2
    rw [unarySymbol_inj symbols]
    exact ⟨rfl, (List.cons.inj closing).2⟩
  | constant => exact absurd (form_mem_of_constant forms) (by rw [form]; decide)
  | _ => cases forms

theorem tellsApart_binary {op : BinaryOp} {left right : Node} (named : left.Named)
    (namedRight : right.Named) (tells : TellsApart dump Node.Named left)
    (tellsRight : TellsApart dump Node.Named right) :
    TellsApart dump Node.Named (binary op left right) := by
  intro other rest after named' closed closed' same
  have forms := form_eq (.binary named namedRight) named' closed closed' same
  cases named' with
  | @binary op' left' right' namedLeft' namedRight' =>
    rw [dump_binary, dump_binary] at same
    obtain ⟨rfl, behind⟩ := tells namedLeft' (closed_cons (by decide) _)
      (closed_cons (by decide) _) (List.cons.inj same).2
    obtain ⟨symbols, inner⟩ := word_inj (binarySymbol_inside op) (binarySymbol_inside op')
      (stops_cons (by decide) _) (stops_cons (by decide) _) (List.cons.inj behind).2
    obtain ⟨rfl, closing⟩ := tellsRight namedRight' (closed_cons (by decide) _)
      (closed_cons (by decide) _) (List.cons.inj inner).2
    rw [binarySymbol_inj symbols]
    exact ⟨rfl, (List.cons.inj closing).2⟩
  | constant => exact absurd (form_mem_of_constant forms) (by rw [form]; decide)
  | _ => cases forms

theorem tellsApart_list {items : List Node} (named : ∀ item ∈ items, item.Named)
    (tells : ∀ item ∈ items, TellsApart dump Node.Named item) :
    TellsApart dump Node.Named (list items) := by
  intro other rest after named' closed closed' same
  have forms := form_eq (.list named) named' closed closed' same
  cases named' with
  | list namedItems =>
    rw [dump_list, dump_list] at same
    obtain ⟨rfl, equal⟩ := separated_inj (by decide) (by decide)
      (fun a more rest named => dump_ne_closer named (by decide) more rest) named tells namedItems
      (List.cons.inj same).2
    exact ⟨rfl, equal⟩
  | constant => exact absurd (form_mem_of_constant forms) (by rw [form]; decide)
  | _ => cases forms

theorem tellsApart_call {function : String} {arguments : List Node} (isName : IsName function)
    (named : ∀ argument ∈ arguments, argument.Named)
    (tells : ∀ argument ∈ arguments, TellsApart dump Node.Named argument) :
    TellsApart dump Node.Named (call function arguments) := by
  intro other rest after named' closed closed' same
  have forms := form_eq (.call isName named) named' closed closed' same
  cases named' with
  | call isName' namedArguments =>
    rw [dump_call, dump_call] at same
    obtain ⟨names, inner⟩ := word_inj isName.inside isName'.inside (stops_cons (by decide) _)
      (stops_cons (by decide) _) same
    obtain ⟨rfl, equal⟩ := separated_inj (by decide) (by decide)
      (fun a more rest named => dump_ne_closer named (by decide) more rest) named tells
      namedArguments (List.cons.inj inner).2
    rw [String.toList_inj.mp names]
    exact ⟨rfl, equal⟩
  | constant => exact absurd (form_mem_of_constant forms) (by rw [form]; decide)
  | _ => cases forms

/-- The body of an arrow function is told from a missing one by what it starts with. -/
theorem body_inj {body body' : Option Node} (named : ∀ inner ∈ body, inner.Named)
    (tells : ∀ inner ∈ body, TellsApart dump Node.Named inner)
    (named' : ∀ inner ∈ body', inner.Named) {rest after : List Char}
    (same : bodyText body ++ '\x7d' :: rest = bodyText body' ++ '\x7d' :: after) :
    body = body' ∧ rest = after := by
  cases body with
  | none =>
    cases body' with
    | none => exact ⟨rfl, (List.cons.inj same).2⟩
    | some inner => exact absurd same.symm (dump_ne_closer (named' inner rfl) (by decide) _ _)
  | some inner =>
    cases body' with
    | none => exact absurd same (dump_ne_closer (named inner rfl) (by decide) _ _)
    | some inner' =>
      obtain ⟨rfl, closing⟩ := tells inner rfl (named' inner' rfl) (closed_cons (by decide) _)
        (closed_cons (by decide) _) same
      exact ⟨rfl, (List.cons.inj closing).2⟩

theorem tellsApart_arrow {parameters : List String} {body : Option Node}
    (names : ∀ parameter ∈ parameters, IsName parameter) (named : ∀ inner ∈ body, inner.Named)
    (tells : ∀ inner ∈ body, TellsApart dump Node.Named inner) :
    TellsApart dump Node.Named (arrow parameters body) := by
  intro other rest after named' closed closed' same
  have forms := form_eq (.arrow names named) named' closed closed' same
  cases named' with
  | arrow names' namedBody =>
    rw [dump_arrow, dump_arrow] at same
    obtain ⟨rfl, behind⟩ := separated_inj (by decide) (by decide)
      (fun _ more rest (isName : IsName _) =>
        word_ne_closer isName.ne_nil isName.inside (by decide) more rest)
      names (fun _ there _ _ _ isName' => name_inj (names _ there) isName') names'
      (List.cons.inj same).2
    obtain ⟨rfl, equal⟩ := body_inj named tells namedBody (List.append_cancel_left behind)
    exact ⟨rfl, equal⟩
  | constant => exact absurd (form_mem_of_constant forms) (by rw [form]; decide)
  | _ => cases forms

/-- The dump of a node tells it from every other one. -/
theorem tellsApart {node : Node} (named : node.Named) : TellsApart dump Node.Named node := by
  induction named with
  | @constant l =>
    by_cases isString : ∃ s, l = .str s
    · obtain ⟨s, rfl⟩ := isString
      exact tellsApart_string s
    · exact tellsApart_constant fun s same => isString ⟨s, same⟩
  | name isName => exact tellsApart_name isName
  | unary named tells => exact tellsApart_unary named tells
  | binary named namedRight tells tellsRight =>
    exact tellsApart_binary named namedRight tells tellsRight
  | call isName named tells => exact tellsApart_call isName named tells
  | list named tells => exact tellsApart_list named tells
  | arrow names named tells => exact tellsApart_arrow names named tells

end Dump

/-- Two expressions have the same dump exactly if they are the same tree. A `Float` is its bits, with
one not-a-number, so this says that of float constants. -/
theorem dump_eq_iff {a b : Node} (named : a.Named) (named' : b.Named) : a.dump = b.dump ↔ a = b := by
  constructor
  · intro same
    have closed : Dump.Closed [] := nofun
    refine (Dump.tellsApart named named' closed closed ?_).1
    rw [same]
  · rintro rfl
    rfl

/-- `f((x) -> {}, (- 1))` and `f((x) -> {null}, -1)` are the dumps of different calls. -/
theorem dump_eq_iff_missing_body :
    let a : Node := .call "f" [.arrow ["x"] none, .unary .neg (.constant (.int 1))]
    let b : Node := .call "f" [.arrow ["x"] (some (.constant .null)), .constant (.int (-1))]
    a.Named ∧ b.Named ∧ a.dump ≠ b.dump := by
  intro a b
  have function : Dump.IsName "f" := .of_isIdentifier ⟨⟨'f', _, rfl, rfl⟩, by decide⟩ (by decide)
  have parameter : ∀ x ∈ ["x"], Dump.IsName x := by
    intro x there
    rw [List.mem_singleton.mp there]
    exact .of_isIdentifier ⟨⟨'x', _, rfl, rfl⟩, by decide⟩ (by decide)
  have namedA : a.Named := by
    refine .call function fun argument there => ?_
    rcases List.mem_pair.mp there with rfl | rfl
    · exact .arrow parameter nofun
    · exact .unary .constant
  have namedB : b.Named := by
    refine .call function fun argument there => ?_
    rcases List.mem_pair.mp there with rfl | rfl
    · exact .arrow parameter fun inner body => Option.some.inj body ▸ .constant
    · exact .constant
  refine ⟨namedA, namedB, fun same => ?_⟩
  have arguments := (Node.call.inj ((dump_eq_iff namedA namedB).mp same)).2
  cases (Node.arrow.inj (List.cons.inj arguments).1).2

end ArrowExpr
