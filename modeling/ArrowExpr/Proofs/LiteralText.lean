import ArrowExpr.Proofs.FloatText
import ArrowExpr.Syntax.Dump
/-!
# Literals as text

Target code and the dump write literals alike, up to the names of special floats and the escapes of
strings (`Literal.write`). In both, different literals are written differently
(`Literal.write_injective`).
-/

namespace ArrowExpr

open Target

/-! ## Strings -/

namespace Quoted

/-- A table of escapes that can be undone one character after the other. -/
structure Readable (escape : Char → List Char) : Prop where
  inj : ∀ {c d : Char} {rest after : List Char}, escape c ++ rest = escape d ++ after →
    c = d ∧ rest = after
  notQuote : ∀ {c : Char} {rest after : List Char}, escape c ++ rest ≠ '"' :: after

/-- Reads one escaped character back: `\0` and `\t` are names, and a backslash in front of any other
character stands for that character. -/
def readEscape : List Char → Option (Char × List Char)
  | '\\' :: '0' :: rest => some ('\x00', rest)
  | '\\' :: 't' :: rest => some ('\t', rest)
  | '\\' :: c :: rest => some (c, rest)
  | c :: rest => some (c, rest)
  | [] => none

theorem Readable.of_readEscape {escape : Char → List Char}
    (reads : ∀ c rest, readEscape (escape c ++ rest) = some (c, rest))
    (notQuote : ∀ c, (escape c).head? ≠ some '"') : Readable escape where
  inj {c d rest after} same := by
    have read := congrArg readEscape same
    rw [reads, reads] at read
    exact Prod.mk.inj (Option.some.inj read)
  notQuote {c rest after} same := by
    cases escaped : escape c with
    | nil =>
      -- nothing cannot be read back
      have read := reads c []
      rw [escaped] at read
      cases read
    | cons first others =>
      rw [escaped] at same
      exact notQuote c (by rw [escaped, List.head?_cons, (List.cons.inj same).1])

/-- Strings are told apart between quotes. -/
theorem escaped_inj {escape : Char → List Char} (readable : Readable escape)
    {text other rest after : List Char}
    (same : escaped escape text ++ '"' :: rest = escaped escape other ++ '"' :: after) :
    text = other ∧ rest = after := by
  induction text generalizing other with
  | nil =>
    cases other with
    | nil => exact ⟨rfl, (List.cons.inj same).2⟩
    | cons d others =>
      rw [escaped, escaped, List.flatMap_cons, List.append_assoc] at same
      exact absurd same.symm readable.notQuote
  | cons c text ih =>
    cases other with
    | nil =>
      rw [escaped, escaped, List.flatMap_cons, List.append_assoc] at same
      exact absurd same readable.notQuote
    | cons d others =>
      rw [escaped, escaped, List.flatMap_cons, List.flatMap_cons, List.append_assoc,
        List.append_assoc] at same
      obtain ⟨rfl, more⟩ := readable.inj same
      obtain ⟨rfl, equal⟩ := ih more
      exact ⟨rfl, equal⟩

theorem write_injective {escape : Char → List Char} (readable : Readable escape)
    {text other : String} (same : write escape text = write escape other) : text = other := by
  have quoted := (List.cons.inj (String.ofList_injective same)).2
  exact String.toList_inj.mp (escaped_inj readable quoted).1

end Quoted

/-! ## Floats -/

/-- What makes a style tell floats apart, from one another and from other literals. -/
structure FloatStyle.Faithful (style : FloatStyle) : Prop where
  regular : style.Regular
  shortest : ∃ tie, style.digits = .shortest tie
  pointed : style.number.wholeEnd = ['.', '0']
  notANumber : style.notANumber.head? = some 'N'
  infinity : style.infinity.head? ∈ [some 'I', some 'i']

namespace Literal

/-- The text of a literal, with the given floats and escapes. -/
def write (style : FloatStyle) (escape : Char → List Char) : Literal → String
  | null => "null"
  | bool true => "true"
  | bool false => "false"
  | int n => n.toInt.repr
  | float x => style.write x
  | str s => Quoted.write escape s

/-! ## Integers -/

theorem toList_repr_of_nonneg {n : Int} (nonneg : 0 ≤ n) :
    n.repr.toList = Nat.toDigits 10 n.toNat := by
  rw [Int.repr_eq_if, if_pos nonneg, Nat.toList_repr]

theorem toList_repr_of_neg {n : Int} (negative : n < 0) :
    n.repr.toList = '-' :: Nat.toDigits 10 (-n).toNat := by
  rw [Int.repr_eq_if, if_neg (Int.not_le.mpr negative), String.toList_append, Nat.toList_repr]
  rfl

theorem repr_chars (n : Int) : ∀ c ∈ n.repr.toList, c.isDigit ∨ c = '-' := by
  intro c there
  by_cases negative : n < 0
  · rw [toList_repr_of_neg negative] at there
    rcases List.mem_cons.mp there with minus | digit
    · exact .inr minus
    · exact .inl ((isDigits_toDigits _).digits c digit)
  · rw [toList_repr_of_nonneg (Int.not_lt.mp negative)] at there
    exact .inl ((isDigits_toDigits _).digits c there)

/-! ## Different literals -/

variable {style : FloatStyle} {escape : Char → List Char}

/-- The first character of a literal that is not a number. -/
def lead? : Literal → Option Char
  | null => some 'n'
  | bool true => some 't'
  | bool false => some 'f'
  | int _ => none
  | float _ => none
  | str _ => some '"'

/-- Whether the text of a number starts so. -/
def startsNumber (c : Char) : Bool := c.isDigit || c == '-' || c == 'N' || c == 'I' || c == 'i'

theorem startsNumber_unsigned (faithful : style.Faithful) (x : Float.Model.UnpackedFloat) :
    ∃ first rest, style.unsigned x = first :: rest ∧ startsNumber first := by
  cases numeric : FloatStyle.isNumeric x with
  | true =>
    obtain ⟨first, rest, same, digit⟩ :=
      (FloatStyle.isNumber_unsigned faithful.regular.number numeric).start
    exact ⟨first, rest, same, by simp [startsNumber, digit]⟩
  | false =>
    cases x with
    | notANumber =>
      obtain ⟨rest, same⟩ := List.head?_eq_some_iff.mp faithful.notANumber
      exact ⟨'N', rest, same, rfl⟩
    | infinity =>
      have named := faithful.infinity
      simp only [List.mem_cons, List.not_mem_nil, or_false] at named
      rcases named with upper | lower
      · obtain ⟨rest, same⟩ := List.head?_eq_some_iff.mp upper
        exact ⟨'I', rest, same, rfl⟩
      · obtain ⟨rest, same⟩ := List.head?_eq_some_iff.mp lower
        exact ⟨'i', rest, same, rfl⟩
    | _ => cases numeric

/-- The first character tells the literals apart that are not numbers. -/
theorem exists_write_eq_cons (faithful : style.Faithful) (escape : Char → List Char)
    (l : Literal) :
    ∃ first rest, (l.write style escape).toList = first :: rest ∧
      l.lead? = if startsNumber first then none else some first := by
  cases l with
  | null => exact ⟨'n', ['u', 'l', 'l'], by rw [write]; rfl, rfl⟩
  | bool b =>
    cases b with
    | true => exact ⟨'t', ['r', 'u', 'e'], by rw [write]; rfl, rfl⟩
    | false => exact ⟨'f', ['a', 'l', 's', 'e'], by rw [write]; rfl, rfl⟩
  | int n =>
    by_cases negative : n.toInt < 0
    · exact ⟨'-', _, toList_repr_of_neg negative, rfl⟩
    · have isDigits := isDigits_toDigits n.toInt.toNat
      obtain ⟨first, rest, same⟩ := List.exists_cons_of_ne_nil isDigits.some
      refine ⟨first, rest, (toList_repr_of_nonneg (Int.not_lt.mp negative)).trans same, ?_⟩
      have digit := isDigits.digits first (same ▸ List.mem_cons_self)
      simp [startsNumber, digit, lead?]
  | float x =>
    rw [write, FloatStyle.toList_write]
    cases FloatStyle.signOf x.toModel.unpack with
    | negative => exact ⟨'-', _, rfl, rfl⟩
    | positive =>
      obtain ⟨first, rest, same, starts⟩ := startsNumber_unsigned faithful x.toModel.unpack
      exact ⟨first, rest, same, by rw [if_pos starts, lead?]⟩
  | str s => exact ⟨'"', _, String.toList_ofList, rfl⟩

/-- What is in the text of a float and not in that of an integer. -/
theorem exists_not_integer (faithful : style.Faithful) (x : Float) :
    ∃ c ∈ (style.write x).toList, c.isDigit = false ∧ c ≠ '-' := by
  suffices unsigned : ∃ c ∈ style.unsigned x.toModel.unpack, c.isDigit = false ∧ c ≠ '-' by
    obtain ⟨c, there, outside⟩ := unsigned
    refine ⟨c, ?_, outside⟩
    rw [FloatStyle.toList_write]
    cases FloatStyle.signOf x.toModel.unpack with
    | negative => exact List.mem_cons_of_mem _ there
    | positive => exact there
  cases x.toModel.unpack with
  | notANumber => exact ⟨'N', List.mem_of_mem_head? faithful.notANumber, by decide⟩
  | infinity =>
    have named := faithful.infinity
    simp only [List.mem_cons, List.not_mem_nil, or_false] at named
    rcases named with upper | lower
    · exact ⟨'I', List.mem_of_mem_head? upper, by decide⟩
    · exact ⟨'i', List.mem_of_mem_head? lower, by decide⟩
  | zero =>
    have there : '.' ∈ '0' :: style.number.wholeEnd := by simp [faithful.pointed]
    exact ⟨'.', there, by decide⟩
  | finite sign mantissa exponent positive =>
    obtain ⟨c, there, special⟩ :=
      NumberStyle.exists_point_or_mark style.number faithful.pointed _ _
    refine ⟨c, there, ?_⟩
    have marks := faithful.regular.number.mark
    rw [isMark, Bool.or_eq_true, beq_iff_eq, beq_iff_eq] at marks
    rcases special with rfl | rfl
    · decide
    · rcases marks with lower | upper
      · rw [lower]
        decide
      · rw [upper]
        decide

theorem write_int_ne_write_float (faithful : style.Faithful) (n : Int64) (x : Float) :
    (int n).write style escape ≠ (float x).write style escape := by
  intro same
  obtain ⟨c, there, notDigit, notMinus⟩ := exists_not_integer faithful x
  have inInteger : c ∈ n.toInt.repr.toList := congrArg String.toList same ▸ there
  rcases repr_chars n.toInt c inInteger with digit | minus
  · exact Bool.noConfusion (digit.symm.trans notDigit)
  · exact notMinus minus

/-- Different literals are written differently. -/
theorem write_injective (faithful : style.Faithful) (readable : Quoted.Readable escape)
    {l other : Literal} (same : l.write style escape = other.write style escape) : l = other := by
  -- only two numbers, or two strings, can start alike without being the same literal
  have leads : l.lead? = other.lead? := by
    obtain ⟨first, rest, text, lead⟩ := exists_write_eq_cons faithful escape l
    obtain ⟨first', rest', text', lead'⟩ := exists_write_eq_cons faithful escape other
    rw [same, text'] at text
    rw [lead, lead', (List.cons.inj text).1]
  cases l with
  | null =>
    cases other with
    | null => rfl
    | bool b => cases b <;> cases leads
    | _ => cases leads
  | bool a =>
    cases other with
    | bool b =>
      cases a with
      | true =>
        cases b with
        | true => rfl
        | false => cases leads
      | false =>
        cases b with
        | true => cases leads
        | false => rfl
    | _ => cases a <;> cases leads
  | int n =>
    cases other with
    | int m => rw [Int64.toInt_inj.mp (Int.repr_injective same)]
    | float x => exact absurd same (write_int_ne_write_float faithful n x)
    | bool b => cases b <;> cases leads
    | _ => cases leads
  | float x =>
    cases other with
    | float y =>
      obtain ⟨tie, shortest⟩ := faithful.shortest
      rw [FloatStyle.write_injective faithful.regular shortest same]
    | int n => exact absurd same.symm (write_int_ne_write_float faithful n x)
    | bool b => cases b <;> cases leads
    | _ => cases leads
  | str s =>
    cases other with
    | str t => rw [Quoted.write_injective readable same]
    | bool b => cases b <;> cases leads
    | _ => cases leads

end Literal

end ArrowExpr
