import ArrowExpr.Proofs.LiteralText
import ArrowExpr.Target.Code
/-!
# The target code of literals

A literal is written as one token (`Literal.code_of_not_isNegative`), or as a minus and a number
(`Literal.code_of_isNegative`), and different literals are written differently
(`Literal.code_injective`).
-/

namespace ArrowExpr

open Target

namespace Literal

theorem code_eq_write (l : Literal) : l.code = l.write .target codeEscape := by
  cases l with
  | bool b => cases b <;> rfl
  | _ => rfl

/-! ## Strings -/

theorem readEscape_codeEscape (c : Char) (rest : List Char) :
    Quoted.readEscape (codeEscape c ++ rest) = some (c, rest) := by
  unfold codeEscape
  split
  · rfl
  · rfl
  · rfl
  · rfl
  · rfl
  next notBackslash =>
    unfold Quoted.readEscape
    split <;> simp_all

theorem codeEscape_readable : Quoted.Readable codeEscape := by
  refine .of_readEscape readEscape_codeEscape fun c => ?_
  unfold codeEscape
  split <;> simp_all

theorem isStringEnd_escaped (text : List Char) :
    IsStringEnd (Quoted.escaped codeEscape text ++ ['"']) := by
  induction text with
  | nil => exact .close
  | cons c text ih =>
    rw [Quoted.escaped, List.flatMap_cons, List.append_assoc]
    unfold codeEscape
    split
    · exact .escape ih
    · exact .escape ih
    · exact .escape ih
    · exact .escape ih
    · exact .escape ih
    next notQuote _ notBackslash => exact .plain notQuote notBackslash ih

/-! ## Numbers -/

theorem faithful_target : FloatStyle.target.Faithful where
  regular :=
    { number := NumberStyle.regular_debug
      notANumber := ⟨⟨'N', ['A', 'N'], rfl, rfl⟩, by decide⟩
      infinity := ⟨⟨'I', ['N', 'F'], rfl, rfl⟩, by decide⟩
      distinct := by decide }
  shortest := ⟨.up, rfl⟩
  pointed := rfl
  notANumber := rfl
  infinity := by decide

/-- The literal is a number with a minus: a negative integer or a float with its sign set. -/
def isNegative : Literal → Bool
  | int n => n.toInt < 0
  | float x =>
    match FloatStyle.signOf x.toModel.unpack with
    | .negative => true
    | .positive => false
  | _ => false

/-- The tokens of a literal: a minus of its own and then the number, or all in one. -/
def tokens (l : Literal) : List (List Char) :=
  if l.isNegative then [['-'], l.code.toList.drop 1] else [l.code.toList]

/-- A negative literal is written as a minus and a word. -/
theorem code_of_isNegative {l : Literal} (negative : l.isNegative) :
    ∃ word, l.code.toList = '-' :: word ∧ IsWord word := by
  cases l with
  | int n =>
    have less : n.toInt < 0 := by simpa [isNegative] using negative
    exact ⟨_, toList_repr_of_neg less, .number (.plain (.whole (isDigits_toDigits _)))⟩
  | float x =>
    refine ⟨_, ?_, FloatStyle.isWord_unsigned faithful_target.regular x.toModel.unpack⟩
    rw [code, FloatStyle.toList_write]
    rw [isNegative] at negative
    split at negative
    next sign => rw [sign, FloatStyle.signed]
    next => cases negative
  | _ => cases negative

/-- A literal that is not negative is written as a word or a string. -/
theorem code_of_not_isNegative {l : Literal} (notNegative : l.isNegative = false) :
    IsWord l.code.toList ∨ ∃ text, l.code.toList = '"' :: text ∧ IsStringEnd text := by
  cases l with
  | null => exact .inl (.identifier ⟨⟨'n', _, rfl, rfl⟩, by decide⟩)
  | bool b =>
    cases b with
    | true => exact .inl (.identifier ⟨⟨'t', _, rfl, rfl⟩, by decide⟩)
    | false => exact .inl (.identifier ⟨⟨'f', _, rfl, rfl⟩, by decide⟩)
  | int n =>
    have nonneg : 0 ≤ n.toInt := by simpa [isNegative] using notNegative
    rw [code, toList_repr_of_nonneg nonneg]
    exact .inl (.number (.plain (.whole (isDigits_toDigits _))))
  | float x =>
    rw [code, FloatStyle.toList_write]
    rw [isNegative] at notNegative
    split at notNegative
    next => cases notNegative
    next sign =>
      rw [sign]
      exact .inl (FloatStyle.isWord_unsigned faithful_target.regular x.toModel.unpack)
  | str s => exact .inr ⟨_, String.toList_ofList, isStringEnd_escaped s.toList⟩

/-! ## Different literals -/

theorem exists_code_eq_cons (l : Literal) :
    ∃ first rest, l.code.toList = first :: rest ∧
      l.lead? = if startsNumber first then none else some first :=
  code_eq_write l ▸ exists_write_eq_cons faithful_target codeEscape l

/-- No literal starts like a bracket or a variable. -/
theorem not_mem_of_code_eq_cons {l : Literal} {first : Char} {rest : List Char}
    (text : l.code.toList = first :: rest) : first ∉ ['(', '[', '$'] := by
  obtain ⟨first', rest', text', lead⟩ := exists_code_eq_cons l
  rw [text] at text'
  obtain ⟨rfl, rfl⟩ := List.cons.inj text'
  intro there
  have notNumber : ∀ c ∈ ['(', '[', '$'], startsNumber c = false :=
    List.all_iff_forall_prop.mp (by decide)
  rw [notNumber first there, if_neg Bool.false_ne_true] at lead
  have leads : ∀ c, l.lead? = some c → c ∈ ['n', 't', 'f', '"'] := by
    intro c here
    unfold lead? at here
    split at here <;> cases here <;> decide
  have apart : ∀ c ∈ ['(', '[', '$'], c ∉ ['n', 't', 'f', '"'] :=
    List.all_iff_forall_prop.mp (by decide)
  exact apart first there (leads first lead)

/-- Different literals are written differently. -/
theorem code_injective {l other : Literal} (same : l.code = other.code) : l = other := by
  rw [code_eq_write, code_eq_write] at same
  exact write_injective faithful_target codeEscape_readable same

end Literal

end ArrowExpr
