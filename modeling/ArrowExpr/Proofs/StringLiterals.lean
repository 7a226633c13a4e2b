import ArrowExpr.Engine
import Mathlib.Data.List.Chain
/-!
# How the target reads string literals

In the target's double quotes a backslash stands in front of a tab, a quote, a dollar sign, a
backslash or the digits of an octal code, a quote ends the literal and a dollar sign starts an
interpolation (`readLiteral`).

Whatever string was written, the target reads a string, up to the quote that ends the literal, and
never an interpolation (`readFrom_escaped`). It is the string that was written exactly if there is
no NUL in front of an octal digit (`readLiteral_string_iff`): a NUL is written `\0`, and a digit
behind it becomes part of the code.
-/

namespace ArrowExpr

namespace Target

/-! ## The rules of the target -/

/-- What the target makes of a text that starts with a string literal. -/
inductive LiteralReading where
  /-- The literal is this string, and this follows its closing quote. -/
  | string (text rest : List Char)
  /-- A variable is interpolated. -/
  | interpolated
  /-- There is no literal, or no quote that closes it. -/
  | unclosed
deriving DecidableEq

/-- A character in front of what is read. -/
def LiteralReading.cons (c : Char) : LiteralReading → LiteralReading
  | string text rest => string (c :: text) rest
  | other => other

/-- The digits of octal numbers. -/
def isOctal (c : Char) : Bool := '0' ≤ c && c ≤ '7'

/-- The octal digits that a text starts with, up to a count. -/
def octalDigits : Nat → List Char → List Char
  | count + 1, c :: rest => if isOctal c then c :: octalDigits count rest else []
  | _, _ => []

/-- The character with an octal code. -/
def ofOctal (digits : List Char) : Char := Char.ofNat (Nat.ofDigitChars 8 digits 0)

/-- The character that a backslash in front of the text stands for, and what follows. One to three
octal digits, as many as are there, are a code; a backslash that escapes nothing is itself. -/
def readEscaped : List Char → Char × List Char
  | 't' :: rest => ('\t', rest)
  | '"' :: rest => ('"', rest)
  | '$' :: rest => ('$', rest)
  | '\\' :: rest => ('\\', rest)
  | text =>
    match octalDigits 3 text with
    | [] => ('\\', text)
    | digits => (ofOctal digits, text.drop digits.length)

theorem length_readEscaped (text : List Char) : (readEscaped text).2.length ≤ text.length := by
  unfold readEscaped
  split
  · simp
  · simp
  · simp
  · simp
  · split
    · simp
    · simp

/-- Reads a string literal from behind its first quote. -/
def readFrom : List Char → LiteralReading
  | [] => .unclosed
  | c :: rest =>
    if c = '"' then .string [] rest
    else if c = '$' then .interpolated
    else if c = '\\' then (readFrom (readEscaped rest).2).cons (readEscaped rest).1
    else (readFrom rest).cons c
termination_by text => text.length
decreasing_by
  · have := length_readEscaped rest
    simp only [List.length_cons]
    omega
  · simp

/-- Reads the string literal that a text starts with. -/
def readLiteral : List Char → LiteralReading
  | '"' :: rest => readFrom rest
  | _ => .unclosed

/-! ## What is read in place of a string -/

/-- What the target reads in place of a string: the code of a NUL takes in up to two octal digits
that follow. -/
def seen : List Char → List Char
  | [] => []
  | c :: rest =>
    if c = '\x00' then
      ofOctal ('0' :: octalDigits 2 rest) :: seen (rest.drop (octalDigits 2 rest).length)
    else c :: seen rest
termination_by text => text.length

/-- No NUL stands directly in front of an octal digit. -/
def NulsApart (text : List Char) : Prop :=
  text.IsChain fun c next => c = '\x00' → isOctal next = false

end Target

open Target Quoted

namespace Literal

/-! ## Escapes in front of octal digits -/

theorem codeEscape_of_isOctal {c : Char} (octal : isOctal c) : codeEscape c = [c] := by
  unfold codeEscape
  split
  · cases octal
  · cases octal
  · cases octal
  · cases octal
  · cases octal
  · rfl

/-- No other character is escaped to something that starts with an octal digit. -/
theorem exists_codeEscape_eq_cons {c : Char} (notOctal : isOctal c = false) :
    ∃ first rest, codeEscape c = first :: rest ∧ isOctal first = false := by
  unfold codeEscape
  split
  · exact ⟨_, _, rfl, rfl⟩
  · exact ⟨_, _, rfl, rfl⟩
  · exact ⟨_, _, rfl, rfl⟩
  · exact ⟨_, _, rfl, rfl⟩
  · exact ⟨_, _, rfl, rfl⟩
  · exact ⟨_, _, rfl, notOctal⟩

/-- The octal digits that a string starts with stay as they are when it is written. -/
theorem octalDigits_escaped (count : Nat) (text rest : List Char) :
    octalDigits count (escaped codeEscape text ++ '"' :: rest) = octalDigits count text ∧
      (escaped codeEscape text ++ '"' :: rest).drop (octalDigits count text).length =
        escaped codeEscape (text.drop (octalDigits count text).length) ++ '"' :: rest := by
  induction count generalizing text with
  | zero => exact ⟨rfl, rfl⟩
  | succ count ih =>
    cases text with
    | nil => exact ⟨rfl, rfl⟩
    | cons c text =>
      rw [escaped, List.flatMap_cons, List.append_assoc]
      cases octal : isOctal c with
      | true =>
        obtain ⟨digits, after⟩ := ih text
        rw [codeEscape_of_isOctal octal]
        simp only [List.cons_append, List.nil_append, octalDigits, if_pos octal, List.length_cons,
          List.drop_succ_cons]
        exact ⟨congrArg (c :: ·) digits, after⟩
      | false =>
        obtain ⟨first, others, same, notOctal⟩ := exists_codeEscape_eq_cons octal
        simp [same, octalDigits, notOctal, octal, escaped]

/-! ## Reading what was written -/

theorem readFrom_backslash (text : List Char) :
    readFrom ('\\' :: text) = (readFrom (readEscaped text).2).cons (readEscaped text).1 := by
  rw [readFrom, if_neg (by decide), if_neg (by decide), if_pos rfl]

theorem readEscaped_zero (text : List Char) :
    readEscaped ('0' :: text) =
      (ofOctal ('0' :: octalDigits 2 text), text.drop (octalDigits 2 text).length) := rfl

/-- Behind the first quote of a literal that was written, the target reads a string up to the quote
that ends the literal. -/
theorem readFrom_escaped (text rest : List Char) :
    readFrom (escaped codeEscape text ++ '"' :: rest) = .string (seen text) rest := by
  fun_induction seen text with
  | case1 =>
    show readFrom ('"' :: rest) = _
    rw [readFrom, if_pos rfl]
  | case2 text ih =>
    obtain ⟨digits, after⟩ := octalDigits_escaped 2 text rest
    show readFrom ('\\' :: '0' :: (escaped codeEscape text ++ '"' :: rest)) = _
    rw [readFrom_backslash, readEscaped_zero, digits, after, ih, LiteralReading.cons]
  | case3 c text notNul ih =>
    rw [escaped, List.flatMap_cons, List.append_assoc]
    change readFrom (codeEscape c ++ (escaped codeEscape text ++ '"' :: rest)) = _
    generalize escaped codeEscape text ++ '"' :: rest = later at ih ⊢
    unfold codeEscape
    split
    · exact absurd rfl notNul
    · exact (readFrom_backslash ('t' :: later)).trans (by rw [readEscaped, ih]; rfl)
    · exact (readFrom_backslash ('"' :: later)).trans (by rw [readEscaped, ih]; rfl)
    · exact (readFrom_backslash ('$' :: later)).trans (by rw [readEscaped, ih]; rfl)
    · exact (readFrom_backslash ('\\' :: later)).trans (by rw [readEscaped, ih]; rfl)
    next notQuote notDollar notBackslash =>
      rw [List.singleton_append, readFrom, if_neg notQuote, if_neg notDollar, if_neg notBackslash,
        ih, LiteralReading.cons]

theorem length_seen_le (text : List Char) : (seen text).length ≤ text.length := by
  fun_induction seen text with
  | case1 => exact Nat.le_refl 0
  | case2 text ih =>
    rw [List.length_cons, List.length_cons]
    rw [List.length_drop] at ih
    omega
  | case3 _ _ _ ih => exact Nat.succ_le_succ ih

/-- A string is read as it is exactly if no NUL stands in front of an octal digit. -/
theorem seen_eq_iff (text : List Char) : seen text = text ↔ NulsApart text := by
  fun_induction seen text with
  | case1 => exact ⟨fun _ => .nil, fun _ => rfl⟩
  | case2 text ih =>
    rw [NulsApart, List.isChain_cons]
    cases text with
    | nil =>
      have alone : ofOctal ('0' :: octalDigits 2 []) :: seen [] = ['\x00'] := by
        rw [seen]
        rfl
      exact ⟨fun _ => ⟨nofun, .nil⟩, fun _ => alone⟩
    | cons next text =>
      cases octal : isOctal next with
      | true =>
        -- at least one digit is lost
        have shorter := length_seen_le
          ((next :: text).drop (octalDigits 2 (next :: text)).length)
        have some : 0 < (octalDigits 2 (next :: text)).length := by simp [octalDigits, octal]
        rw [List.length_drop, List.length_cons] at shorter
        refine ⟨fun same => ?_, fun apart => ?_⟩
        · have lengths := congrArg List.length same
          simp only [List.length_cons] at lengths
          omega
        · have notOctal := apart.1 next rfl rfl
          rw [octal] at notOctal
          cases notOctal
      | false =>
        have none : octalDigits 2 (next :: text) = [] := by simp [octalDigits, octal]
        have nul : ofOctal ['0'] = '\x00' := rfl
        rw [none] at ih ⊢
        rw [List.length_nil, List.drop_zero] at ih ⊢
        rw [nul, List.cons.injEq, ih, NulsApart]
        simp [octal]
  | case3 c text notNul ih =>
    rw [NulsApart, List.isChain_cons, List.cons.injEq, ih, NulsApart]
    simp [notNul]

end Literal

/-- The string literal that a writer appends is read by the target as a string, up to its closing
quote and without interpolation, whatever text follows. It is the string that was written exactly
if no NUL in it stands directly in front of an octal digit. -/
theorem readLiteral_string_iff (writer : Writer) (s : String) :
    ∃ literal : String, (writer.string s).source = writer.source ++ literal ∧
      ∀ rest : List Char,
        (∃ text, readLiteral (literal.toList ++ rest) = .string text rest) ∧
        (readLiteral (literal.toList ++ rest) = .string s.toList rest ↔ NulsApart s.toList) := by
  refine ⟨Quoted.write Literal.codeEscape s, rfl, fun rest => ?_⟩
  have read : readLiteral ((Quoted.write Literal.codeEscape s).toList ++ rest) =
      .string (seen s.toList) rest := by
    rw [Quoted.write, String.toList_ofList, List.cons_append, List.append_assoc]
    exact Literal.readFrom_escaped s.toList rest
  rw [read, ← Literal.seen_eq_iff]
  refine ⟨⟨_, rfl⟩, ?_⟩
  rw [LiteralReading.string.injEq, and_iff_left rfl]

/-- A NUL in front of the digit `1` is written `\01`, and read as the one character with the code
1. -/
theorem not_readLiteral_string_nul_digit :
    (Writer.empty.string "\x001").source = "\"\\01\"" ∧
      readLiteral "\"\\01\"".toList = .string ['\x01'] [] ∧
      (['\x01'] : List Char) ≠ "\x001".toList := by
  have read : readLiteral "\"\\01\"".toList = .string (seen ['\x00', '1']) [] :=
    Literal.readFrom_escaped ['\x00', '1'] []
  have code : seen ['\x00', '1'] = ['\x01'] := by
    rw [seen, if_pos rfl]
    show ofOctal ['0', '1'] :: seen [] = _
    rw [seen]
    rfl
  exact ⟨rfl, read.trans (by rw [code]), by decide⟩

end ArrowExpr
