import ArrowExpr.Target.Code
import Mathlib
/-!
# Tokens of the target code

Target code is read by longest match: blanks are skipped, and each token is the longest one that the
text starts with (`Longest`, `Lexes`). A text can be read in one way only (`Lexes.unique`).

A target may know the operators `--` and `++` (`symbols true`) or not (`symbols false`).
-/

namespace ArrowExpr

namespace Target

/-! ## Definitions -/

/-- What an identifier starts with. -/
def startsIdentifier (c : Char) : Bool := c.isAlpha || c == '_'

/-- What follows in an identifier. -/
def inIdentifier (c : Char) : Bool := c.isAlphanum || c == '_'

/-- A letter or `_`, then letters, digits and `_`. -/
structure IsIdentifier (text : List Char) : Prop where
  start : ∃ first rest, text = first :: rest ∧ startsIdentifier first
  inside : text.all inIdentifier

/-- At least one digit. -/
structure IsDigits (text : List Char) : Prop where
  some : text ≠ []
  digits : ∀ c ∈ text, c.isDigit

/-- Digits, with or without a fraction. -/
inductive IsMantissa : List Char → Prop where
  | whole {digits : List Char} : IsDigits digits → IsMantissa digits
  | fraction {whole digits : List Char} : IsDigits whole → IsDigits digits →
      IsMantissa (whole ++ '.' :: digits)

/-- The letter of an exponent. -/
def isMark (c : Char) : Bool := c == 'e' || c == 'E'

/-- An unsigned number, with or without an exponent. -/
inductive IsNumber : List Char → Prop where
  | plain {mantissa : List Char} : IsMantissa mantissa → IsNumber mantissa
  | scaled {mantissa digits sign : List Char} {mark : Char} : IsMantissa mantissa →
      isMark mark → sign ∈ [[], ['-'], ['+']] → IsDigits digits →
      IsNumber (mantissa ++ mark :: (sign ++ digits))

/-- What follows the first quote of a string literal, up to the quote that closes it. -/
inductive IsStringEnd : List Char → Prop where
  | close : IsStringEnd ['"']
  | plain {c : Char} {rest : List Char} : c ≠ '"' → c ≠ '\\' → IsStringEnd rest →
      IsStringEnd (c :: rest)
  | escape {c : Char} {rest : List Char} : IsStringEnd rest → IsStringEnd ('\\' :: c :: rest)

/-- Brackets, punctuation and operators; `--` and `++` are operators of a stepping target only. -/
def symbols (stepping : Bool) : List (List Char) :=
  (if stepping then ["--", "++"] else []).map String.toList ++
    ["(", ")", "[", "]", "\x7b", "\x7d", ",", ";", ".", "+", "-", "*", "/", "%", "!", "==", "!=",
      "<", "<=", ">", ">=", "&&", "||"].map String.toList

/-- The tokens without quotes and symbols. -/
inductive IsWord : List Char → Prop where
  | dollar {name : List Char} : IsIdentifier name → IsWord ('$' :: name)
  | identifier {name : List Char} : IsIdentifier name → IsWord name
  | number {text : List Char} : IsNumber text → IsWord text

/-- The tokens of the target. -/
inductive IsToken (stepping : Bool) : List Char → Prop where
  | word {text : List Char} : IsWord text → IsToken stepping text
  | string {rest : List Char} : IsStringEnd rest → IsToken stepping ('"' :: rest)
  | symbol {text : List Char} : text ∈ symbols stepping → IsToken stepping text

/-- The text is the token and then the rest, and starts with no longer token. -/
structure Longest (stepping : Bool) (text token rest : List Char) : Prop where
  isToken : IsToken stepping token
  split : text = token ++ rest
  longest : ∀ other, IsToken stepping other → other <+: text → other.length ≤ token.length

/-- Longest match splits the text into the tokens. -/
inductive Lexes (stepping : Bool) : List Char → List (List Char) → Prop where
  | done : Lexes stepping [] []
  | blank {rest : List Char} {tokens : List (List Char)} : Lexes stepping rest tokens →
      Lexes stepping (' ' :: rest) tokens
  | token {text token rest : List Char} {tokens : List (List Char)} :
      Longest stepping text token rest → Lexes stepping rest tokens →
      Lexes stepping text (token :: tokens)

/-! ## The characters of tokens -/

/-- What ends a word or a number in generated code. -/
def delimiters : List Char := [' ', '(', ')', ']', ',', ';']

/-- What words start with. -/
def startsWord (c : Char) : Bool := inIdentifier c || c == '$'

theorem inIdentifier_of_isDigit {c : Char} (digit : c.isDigit) : inIdentifier c := by
  simp [inIdentifier, Char.isAlphanum, digit]

theorem inIdentifier_of_starts {c : Char} (starts : startsIdentifier c) : inIdentifier c := by
  rw [startsIdentifier, Bool.or_eq_true] at starts
  rcases starts with alpha | underscore
  · simp [inIdentifier, Char.isAlphanum, alpha]
  · simp [inIdentifier, underscore]

theorem not_startsIdentifier_of_isDigit {c : Char} (digit : c.isDigit) :
    startsIdentifier c = false := by
  have code : 48 ≤ c.toNat ∧ c.toNat ≤ 57 := Char.isDigit_iff_toNat.mp digit
  have notUnderscore : c ≠ '_' := by
    rintro rfl
    exact absurd code (by decide)
  have notAlpha : c.isAlpha = false := by
    rw [Bool.eq_false_iff]
    intro alpha
    have letters : (65 ≤ c.toNat ∧ c.toNat ≤ 90) ∨ (97 ≤ c.toNat ∧ c.toNat ≤ 122) := by
      simpa [Char.isAlpha, Char.isUpper, Char.isLower, UInt32.le_iff_toNat_le] using alpha
    omega
  rw [startsIdentifier, notAlpha, beq_false_of_ne notUnderscore]
  rfl

theorem not_inIdentifier_of_delimiter : ∀ c ∈ delimiters, inIdentifier c = false :=
  List.all_iff_forall_prop.mp (by decide)

/-- Some of the digits, with zeros among them, are digits. -/
theorem IsDigits.of_mem {digits part : List Char} (isDigits : IsDigits digits) (some : part ≠ [])
    (inside : ∀ c ∈ part, c ∈ digits ∨ c = '0') : IsDigits part := by
  refine ⟨some, fun c there => ?_⟩
  rcases inside c there with digit | rfl
  · exact isDigits.digits c digit
  · rfl

theorem IsMantissa.chars {text : List Char} (mantissa : IsMantissa text) :
    ∀ c ∈ text, c.isDigit ∨ c = '.' := by
  intro c there
  cases mantissa with
  | whole whole => exact .inl (whole.digits c there)
  | fraction whole fraction =>
    rcases List.mem_append.mp there with before | point
    · exact .inl (whole.digits c before)
    · rcases List.mem_cons.mp point with here | after
      · exact .inr here
      · exact .inl (fraction.digits c after)

theorem IsMantissa.start {text : List Char} (mantissa : IsMantissa text) :
    ∃ first rest, text = first :: rest ∧ first.isDigit := by
  cases mantissa with
  | whole whole =>
    obtain ⟨first, rest, rfl⟩ := List.exists_cons_of_ne_nil whole.some
    exact ⟨first, rest, rfl, whole.digits first List.mem_cons_self⟩
  | fraction whole =>
    obtain ⟨first, rest, rfl⟩ := List.exists_cons_of_ne_nil whole.some
    exact ⟨first, _, rfl, whole.digits first List.mem_cons_self⟩

theorem IsNumber.start {text : List Char} (number : IsNumber text) :
    ∃ first rest, text = first :: rest ∧ first.isDigit := by
  cases number with
  | plain mantissa => exact mantissa.start
  | scaled mantissa =>
    obtain ⟨first, rest, rfl, digit⟩ := mantissa.start
    exact ⟨first, _, rfl, digit⟩

theorem IsNumber.not_isIdentifier {text : List Char} (number : IsNumber text) :
    ¬IsIdentifier text := by
  intro identifier
  obtain ⟨first, rest, rfl, digit⟩ := number.start
  obtain ⟨_, _, same, starts⟩ := identifier.start
  rw [← (List.cons.inj same).1, not_startsIdentifier_of_isDigit digit] at starts
  cases starts

theorem IsNumber.chars {text : List Char} (number : IsNumber text) :
    ∀ c ∈ text, c.isDigit ∨ c ∈ ['.', 'e', 'E', '+', '-'] := by
  intro c there
  have ofMantissa {text : List Char} (mantissa : IsMantissa text) (inside : c ∈ text) :
      c.isDigit ∨ c ∈ ['.', 'e', 'E', '+', '-'] :=
    (mantissa.chars c inside).imp_right fun point => by simp [point]
  cases number with
  | plain mantissa => exact ofMantissa mantissa there
  | @scaled _ digits sign mark mantissa marks isSign exponent =>
    simp only [List.mem_append, List.mem_cons] at there
    rcases there with before | rfl | inSign | after
    · exact ofMantissa mantissa before
    · rw [isMark, Bool.or_eq_true, beq_iff_eq, beq_iff_eq] at marks
      rcases marks with rfl | rfl <;> simp
    · simp only [List.mem_cons, List.not_mem_nil, or_false] at isSign
      rcases isSign with rfl | rfl | rfl <;> simp_all
    · exact .inl (exponent.digits c after)

theorem IsWord.start {text : List Char} (word : IsWord text) :
    ∃ first rest, text = first :: rest ∧ startsWord first := by
  cases word with
  | dollar => exact ⟨'$', _, rfl, rfl⟩
  | identifier name =>
    obtain ⟨first, rest, rfl, starts⟩ := name.start
    exact ⟨first, rest, rfl, by simp [startsWord, inIdentifier_of_starts starts]⟩
  | number number =>
    obtain ⟨first, rest, rfl, digit⟩ := number.start
    exact ⟨first, rest, rfl, by simp [startsWord, inIdentifier_of_isDigit digit]⟩

/-- A word is no symbol of one character. -/
theorem IsWord.ne_singleton {text : List Char} (word : IsWord text) {c : Char}
    (outside : startsWord c = false) : text ≠ [c] := by
  rintro rfl
  obtain ⟨first, rest, same, starts⟩ := word.start
  rw [← (List.cons.inj same).1, outside] at starts
  cases starts

/-- A word goes on until its delimiter. -/
theorem IsWord.not_mem_of_delimiter {text : List Char} (word : IsWord text) {c : Char}
    (delimiter : c ∈ delimiters) : c ∉ text := by
  have outside := not_inIdentifier_of_delimiter c delimiter
  intro there
  cases word with
  | @dollar name identifier =>
    rcases List.mem_cons.mp there with rfl | inName
    · exact absurd delimiter (by decide)
    · exact absurd (List.all_eq_true.mp identifier.inside c inName) (by simp [outside])
  | identifier identifier =>
    exact absurd (List.all_eq_true.mp identifier.inside c there) (by simp [outside])
  | number number =>
    rcases number.chars c there with digit | sign
    · exact absurd (inIdentifier_of_isDigit digit) (by simp [outside])
    · have apart : ∀ c ∈ delimiters, c ∉ ['.', 'e', 'E', '+', '-'] :=
        List.all_iff_forall_prop.mp (by decide)
      exact apart c delimiter sign

/-- Symbols are told from other tokens, and from blanks, by their first character. -/
theorem start_of_mem_symbols {stepping : Bool} {text : List Char}
    (symbol : text ∈ symbols stepping) :
    ∃ first rest, text = first :: rest ∧ startsWord first = false ∧ first ≠ '"' ∧ first ≠ ' ' := by
  -- the table is finite, so this is checked symbol by symbol
  have all : ∀ stepping, ∀ text ∈ symbols stepping, text ≠ [] ∧
      startsWord text.head! = false ∧ text.head! ≠ '"' ∧ text.head! ≠ ' ' := by decide
  obtain ⟨some, start⟩ := all stepping text symbol
  obtain ⟨first, rest, rfl⟩ := List.exists_cons_of_ne_nil some
  exact ⟨first, rest, rfl, start⟩

/-- No string literal is the start of another one. -/
theorem IsStringEnd.eq_of_append {text other : List Char} (ends : IsStringEnd text)
    (otherEnds : IsStringEnd other) {rest after : List Char}
    (same : text ++ rest = other ++ after) : text = other := by
  induction ends generalizing other with
  | close =>
    cases otherEnds with
    | close => rfl
    | plain notQuote => exact absurd (List.cons.inj same).1.symm notQuote
    | escape => exact absurd (List.cons.inj same).1 (by decide)
  | plain notQuote notEscape _ ih =>
    cases otherEnds with
    | close => exact absurd (List.cons.inj same).1 notQuote
    | plain _ _ rest =>
      obtain ⟨rfl, more⟩ := List.cons.inj same
      rw [ih rest more]
    | escape => exact absurd (List.cons.inj same).1 notEscape
  | escape _ ih =>
    cases otherEnds with
    | close => exact absurd (List.cons.inj same).1 (by decide)
    | plain _ notEscape => exact absurd (List.cons.inj same).1.symm notEscape
    | escape rest =>
      obtain ⟨rfl, more⟩ := List.cons.inj (List.cons.inj same).2
      rw [ih rest more]

/-! ## Longest tokens -/

/-- A longer start of the text has the token and one more character. -/
theorem exists_more_of_longer {token rest other : List Char} (starts : other <+: token ++ rest)
    (longer : token.length < other.length) :
    ∃ next more, other = token ++ next :: more ∧ rest.head? = some next := by
  obtain ⟨after, same⟩ := starts
  rcases List.append_eq_append_iff.mp same with ⟨more, shorter, _⟩ | ⟨more, there, split⟩
  · rw [shorter, List.length_append] at longer
    exact absurd longer (by omega)
  · cases more with
    | nil => simp [there] at longer
    | cons next more => exact ⟨next, more, there, by simp [split]⟩

theorem longest_of_word {stepping : Bool} {token rest : List Char} (word : IsWord token)
    (ends : ∀ c, rest.head? = some c → c ∈ delimiters) :
    Longest stepping (token ++ rest) token rest := by
  refine ⟨.word word, rfl, fun other isToken starts => Nat.le_of_not_lt fun longer => ?_⟩
  obtain ⟨next, more, rfl, here⟩ := exists_more_of_longer starts longer
  obtain ⟨first, others, rfl, start⟩ := word.start
  -- a longer word has the delimiter inside, and the other tokens do not start like a word
  cases isToken with
  | word otherWord => exact otherWord.not_mem_of_delimiter (ends next here) (by simp)
  | string => exact absurd start (by decide)
  | symbol symbol =>
    obtain ⟨_, _, same, notWord, _⟩ := start_of_mem_symbols symbol
    rw [← (List.cons.inj same).1, start] at notWord
    cases notWord

theorem longest_of_string {stepping : Bool} {text rest : List Char} (ends : IsStringEnd text) :
    Longest stepping ('"' :: text ++ rest) ('"' :: text) rest := by
  refine ⟨.string ends, rfl, fun other isToken starts => ?_⟩
  obtain ⟨after, same⟩ := starts
  cases isToken with
  | word word =>
    obtain ⟨first, others, rfl, start⟩ := word.start
    rw [(List.cons.inj same).1] at start
    exact absurd start (by decide)
  | string otherEnds =>
    have equal := ends.eq_of_append otherEnds (List.cons.inj same).2.symm
    exact Nat.le_of_eq (by rw [equal])
  | symbol symbol =>
    obtain ⟨first, others, rfl, _, notQuote, _⟩ := start_of_mem_symbols symbol
    exact absurd (List.cons.inj same).1 notQuote

/-- A symbol is longest if no symbol goes on with the character behind it. -/
theorem longest_of_symbol {stepping : Bool} {token rest : List Char}
    (symbol : token ∈ symbols stepping)
    (ends : ∀ c, rest.head? = some c → ∀ other ∈ symbols stepping, ¬token ++ [c] <+: other) :
    Longest stepping (token ++ rest) token rest := by
  refine ⟨.symbol symbol, rfl, fun other isToken starts => Nat.le_of_not_lt fun longer => ?_⟩
  obtain ⟨next, more, rfl, here⟩ := exists_more_of_longer starts longer
  obtain ⟨first, others, rfl, notWord, notQuote, _⟩ := start_of_mem_symbols symbol
  cases isToken with
  | word word =>
    obtain ⟨_, _, same, start⟩ := word.start
    rw [← (List.cons.inj same).1, notWord] at start
    cases start
  | string => exact notQuote rfl
  | symbol otherSymbol =>
    exact ends next here _ otherSymbol ⟨more, by simp⟩

theorem IsToken.ne_nil {stepping : Bool} {token : List Char} (isToken : IsToken stepping token) :
    ∃ first rest, token = first :: rest ∧ first ≠ ' ' := by
  cases isToken with
  | word word =>
    obtain ⟨first, rest, rfl, start⟩ := word.start
    refine ⟨first, rest, rfl, ?_⟩
    rintro rfl
    exact absurd start (by decide)
  | string => exact ⟨'"', _, rfl, by decide⟩
  | symbol symbol =>
    obtain ⟨first, rest, rfl, _, _, notBlank⟩ := start_of_mem_symbols symbol
    exact ⟨first, rest, rfl, notBlank⟩

theorem Longest.unique {stepping : Bool} {text token other rest after : List Char}
    (longest : Longest stepping text token rest) (same : Longest stepping text other after) :
    token = other ∧ rest = after := by
  have shorter := longest.longest other same.isToken ⟨after, same.split.symm⟩
  have longer := same.longest token longest.isToken ⟨rest, longest.split.symm⟩
  exact List.append_inj (longest.split.symm.trans same.split) (Nat.le_antisymm longer shorter)

/-- Longest match splits a text in one way only. -/
theorem Lexes.unique {stepping : Bool} {text : List Char} {tokens others : List (List Char)}
    (lexes : Lexes stepping text tokens) (same : Lexes stepping text others) : tokens = others := by
  induction lexes generalizing others with
  | done =>
    cases same with
    | done => rfl
    | token longest =>
      obtain ⟨first, rest, rfl, _⟩ := longest.isToken.ne_nil
      cases longest.split
  | blank _ ih =>
    cases same with
    | blank rest => exact ih rest
    | token longest =>
      obtain ⟨first, rest, rfl, notBlank⟩ := longest.isToken.ne_nil
      exact absurd (List.cons.inj longest.split).1.symm notBlank
  | token longest _ ih =>
    cases same with
    | done =>
      obtain ⟨first, rest, rfl, _⟩ := longest.isToken.ne_nil
      cases longest.split
    | blank =>
      obtain ⟨first, rest, rfl, notBlank⟩ := longest.isToken.ne_nil
      exact absurd (List.cons.inj longest.split).1.symm notBlank
    | token other rest =>
      obtain ⟨rfl, rfl⟩ := longest.unique other
      rw [ih rest]

end Target

end ArrowExpr
