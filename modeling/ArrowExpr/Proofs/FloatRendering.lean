import ArrowExpr.Proofs.DecimalRounding
import ArrowExpr.Proofs.FloatOrder
import ArrowExpr.Proofs.FloatText
import Mathlib.Data.List.DropRight
/-!
# The text that a float becomes under `~`

A float other than zero is rounded to fourteen digits, and the text is the numeral for that number
with nothing superfluous in it:

1. digits without a zero at either end (`IsTrimmed`) are laid out as a numeral without an exponent
   (`NumberStyle.isPlain_positional`) or with one (`NumberStyle.isScientific_scientific`);
2. they are only ever cut where they can be cut (`NumberStyle.write?_eq`);
3. the digits of the rounded number are such digits once the zeros at their end are gone
   (`Decimal.isTrimmed_digits`), and its magnitude decides between the two layouts.

`text_of_float` puts this together.
-/

namespace ArrowExpr

open Target

/-! ## Numerals -/

/-- The value of a number with or without a minus. -/
def signedValue : List Char → ℚ
  | '-' :: text => -numberValue text
  | text => numberValue text

theorem signedValue_of_ne {first : Char} {rest : List Char} (noMinus : first ≠ '-') :
    signedValue (first :: rest) = numberValue (first :: rest) := by
  unfold signedValue
  split
  next same => exact absurd (List.cons.inj same).1 noMinus
  next => rfl

/-- A number without an exponent that has nothing superfluous: no zero in front of another digit of
the whole part, no point without digits, and no zero at the end of a fraction. -/
inductive IsPlain : List Char → Prop
  | whole {digits : List Char} : IsDigits digits → NoLeadingZero digits → IsPlain digits
  | fraction {whole digits : List Char} : IsDigits whole → NoLeadingZero whole → IsDigits digits →
      digits.getLast? ≠ some '0' → IsPlain (whole ++ '.' :: digits)

/-- A digit other than zero, a fraction that is a lone zero or does not end in one, and the exponent
with its sign, in as few digits as possible. -/
inductive IsScientific (exponent : ℤ) : List Char → Prop
  | mk {first : Char} {digits : List Char} : first.isDigit → first ≠ '0' → IsDigits digits →
      digits = ['0'] ∨ digits.getLast? ≠ some '0' →
      IsScientific exponent (first :: '.' :: (digits ++
        'E' :: (if exponent < 0 then '-' else '+') :: Nat.toDigits 10 exponent.natAbs))

theorem IsPlain.not_isScientific {text : List Char} (plain : IsPlain text) (exponent : ℤ) :
    ¬IsScientific exponent text := by
  have marks : ∀ c ∈ text, (!isMark c) = true := by
    cases plain with
    | whole digits => exact isMark_of_mantissa (.whole digits)
    | fraction whole _ digits _ => exact isMark_of_mantissa (.fraction whole digits)
  intro scientific
  cases scientific
  exact absurd (marks 'E' (by simp)) (by decide)

/-! ## Digits without zeros at the ends -/

/-- At least one digit, of which neither the first nor the last is zero. -/
structure IsTrimmed (digits : List Char) : Prop where
  isDigits : IsDigits digits
  first : digits.head? ≠ some '0'
  last : digits.getLast? ≠ some '0'

theorem IsTrimmed.noLeadingZero {digits : List Char} (trimmed : IsTrimmed digits)
    (rest : List Char) : NoLeadingZero (digits ++ rest) := by
  obtain ⟨first, others, rfl⟩ := List.exists_cons_of_ne_nil trimmed.isDigits.some
  exact noLeadingZero_of_ne (fun zero => trimmed.first (congrArg some zero)) _

namespace Decimal

variable {d : Decimal}

theorem isTrimmed_digits (notZero : d.coefficient ≠ 0) : IsTrimmed d.normalize.digits := by
  obtain ⟨_, _, _, ends⟩ := d.coefficient_eq_normalize
  have front : d.normalize.coefficient ≠ 0 := fun zero => ends notZero (by rw [zero])
  obtain ⟨first, rest, same, other⟩ := exists_toDigits_eq_cons front
  refine ⟨isDigits_toDigits _, ?_, getLast?_toDigits_ne_zero (ends notZero)⟩
  rw [digits, same]
  exact fun zero => other (Option.some.inj zero)

/-- Digits lose the zeros at their end. -/
theorem digits_normalize (notZero : d.coefficient ≠ 0) :
    d.normalize.digits = d.digits.rdropWhile (· == '0') := by
  obtain ⟨zeros, digits, _⟩ := exists_digits_eq_normalize notZero
  have trimmed := isTrimmed_digits notZero
  have kept : d.normalize.digits.rdropWhile (· == '0') = d.normalize.digits := by
    rw [List.rdropWhile_eq_self_iff]
    intro some zero
    refine trimmed.last ?_
    rw [List.getLast?_eq_some_getLast some, beq_iff_eq.mp zero]
  rw [digits, List.rdropWhile, List.reverse_append, List.reverse_replicate,
    List.dropWhile_append_of_pos (by simp)]
  exact kept.symm

end Decimal

/-! ## Layout -/

namespace NumberStyle

/-- The first characters of a text and the others, if there are so many. -/
def cut? (count : ℕ) (text : List Char) : Option (List Char × List Char) :=
  if count ≤ text.length then some (text.take count, text.drop count) else none

/-- Writes digits as `write` does, and stops where a text is cut behind its end. The first digit is
cut off whether or not it is needed. -/
def write? (style : NumberStyle) (digits : List Char) (magnitude : ℤ) : Option (List Char) := do
  let (lead, rest) ← cut? 1 digits
  if style.least ≤ magnitude ∧ magnitude ≤ style.greatest then
    match magnitude with
    | .negSucc zeros => pure ('0' :: '.' :: (List.replicate zeros '0' ++ digits))
    | .ofNat last =>
      if last + 1 < digits.length then
        let (whole, fraction) ← cut? (last + 1) digits
        pure (whole ++ '.' :: fraction)
      else pure (digits ++ List.replicate (last + 1 - digits.length) '0' ++ style.wholeEnd)
  else
    let fraction := if rest.isEmpty then style.loneDigitEnd else '.' :: rest
    let sign := if magnitude < 0 then ['-'] else style.plus
    pure (lead ++ fraction ++ style.mark :: (sign ++ Nat.toDigits 10 magnitude.natAbs))

variable {style : NumberStyle} {digits : List Char}

theorem cut?_of_le {count : ℕ} {text : List Char} (le : count ≤ text.length) :
    cut? count text = some (text.take count, text.drop count) := if_pos le

/-- Digits are never cut behind their end. -/
theorem write?_eq (style : NumberStyle) (nonempty : digits ≠ []) (magnitude : ℤ) :
    style.write? digits magnitude = some (style.write digits magnitude) := by
  unfold write? write
  rw [cut?_of_le (List.length_pos_iff.mpr nonempty)]
  simp only [Option.bind_eq_bind, Option.bind_some]
  split
  · cases magnitude with
    | negSucc zeros => rfl
    | ofNat last =>
      simp only [positional]
      by_cases inside : last + 1 < digits.length
      · rw [if_pos inside, if_pos inside, cut?_of_le inside.le]
        rfl
      · rw [if_neg inside, if_neg inside]
        rfl
  · unfold scientific
    cases digits.drop 1 <;> rfl

theorem isPlain_positional (whole : style.wholeEnd = []) (trimmed : IsTrimmed digits)
    (magnitude : ℤ) : IsPlain (style.positional digits magnitude) := by
  have noZero := trimmed.noLeadingZero
  unfold positional
  split
  next zeros =>
    have zero : IsDigits ['0'] := ⟨by simp, by simp⟩
    refine @IsPlain.fraction ['0'] _ zero (fun _ _ same => nomatch same) ?_ ?_
    · exact trimmed.isDigits.of_mem (by simp [trimmed.isDigits.some])
        (by simp +contextual [or_imp])
    · rw [List.getLast?_append_of_ne_nil _ trimmed.isDigits.some]
      exact trimmed.last
  next last =>
    split
    next inside =>
      refine .fraction ?_ ?_ ?_ ?_
      · exact trimmed.isDigits.of_mem (by simpa using trimmed.isDigits.some) fun _ there =>
          .inl (List.mem_of_mem_take there)
      · have split : digits.take (last + 1) ++ digits.drop (last + 1) = digits ++ [] := by
          rw [List.take_append_drop, List.append_nil]
        exact (split ▸ noZero []).of_append
      · exact trimmed.isDigits.of_mem (by simpa using inside) fun _ there =>
          .inl (List.mem_of_mem_drop there)
      · rw [List.getLast?_drop, if_neg (Nat.not_le.mpr inside)]
        exact trimmed.last
    next =>
      rw [whole, List.append_nil]
      refine .whole ?_ (noZero _)
      exact trimmed.isDigits.of_mem (by simp [trimmed.isDigits.some])
        (by simp +contextual [or_imp])

theorem isScientific_scientific (lone : style.loneDigitEnd = ['.', '0']) (mark : style.mark = 'E')
    (plus : style.plus = ['+']) (trimmed : IsTrimmed digits) (magnitude : ℤ) :
    IsScientific magnitude (style.scientific digits magnitude) := by
  have sign : (if magnitude < 0 then ['-'] else style.plus) =
      [if magnitude < 0 then '-' else '+'] := by
    rw [plus]
    split <;> rfl
  unfold scientific
  rw [sign, mark]
  obtain ⟨first, rest, rfl⟩ := List.exists_cons_of_ne_nil trimmed.isDigits.some
  have digit : first.isDigit := trimmed.isDigits.digits first List.mem_cons_self
  have notZero : first ≠ '0' := fun zero => trimmed.first (congrArg some zero)
  cases rest with
  | nil =>
    rw [lone]
    exact .mk digit notZero ⟨by simp, by simp⟩ (.inl rfl)
  | cons second others =>
    refine .mk digit notZero ?_ (.inr fun zero => trimmed.last ?_)
    · exact trimmed.isDigits.of_mem (by simp) fun _ there => .inl (List.mem_cons_of_mem _ there)
    · rw [List.getLast?_cons_cons]
      exact zero

end NumberStyle

namespace FloatStyle

/-- Under `~` a number is written without an exponent from `0.0001` up to fourteen digits. -/
theorem layout_joined {digits : List Char} (trimmed : IsTrimmed digits) (magnitude : ℤ) :
    let text := joined.number.write digits magnitude
    (IsPlain text ↔ -4 ≤ magnitude ∧ magnitude ≤ 13) ∧
      (IsScientific magnitude text ↔ ¬(-4 ≤ magnitude ∧ magnitude ≤ 13)) := by
  by_cases inside : -4 ≤ magnitude ∧ magnitude ≤ 13
  · have text : joined.number.write digits magnitude = joined.number.positional digits magnitude :=
      if_pos inside
    have plain : IsPlain (joined.number.positional digits magnitude) :=
      NumberStyle.isPlain_positional rfl trimmed magnitude
    rw [text]
    exact ⟨iff_of_true plain inside, iff_of_false (plain.not_isScientific _) (not_not.mpr inside)⟩
  · have text : joined.number.write digits magnitude = joined.number.scientific digits magnitude :=
      if_neg inside
    have scientific : IsScientific magnitude (joined.number.scientific digits magnitude) :=
      NumberStyle.isScientific_scientific rfl rfl rfl trimmed magnitude
    rw [text]
    exact ⟨iff_of_false (fun plain => plain.not_isScientific _ scientific) inside,
      iff_of_true scientific inside⟩

end FloatStyle

/-! ## Floats -/

open Float.Model.UnpackedFloat (Sign)

/-- The number that a float stands for, and zero for what is not a finite number. -/
def floatValue (x : Float) : ℚ :=
  match x.toModel.unpack with
  | .finite .positive mantissa exponent _ => mantissa * 2 ^ exponent
  | .finite .negative mantissa exponent _ => -(mantissa * 2 ^ exponent)
  | _ => 0

/-- The text is a minus, if there is one, and the body, which is the numeral of the number. The
magnitude of the number, the power of ten of its first digit, decides on the layout. -/
structure Renders (negative : Bool) (d : Decimal) (text body : List Char) : Prop where
  sign : text = if negative then '-' :: body else body
  minus : text.head? = some '-' ↔ negative
  value : signedValue text = if negative then -d.value else d.value
  plain_iff : IsPlain body ↔ -4 ≤ d.magnitude ∧ d.magnitude ≤ 13
  scientific_iff : IsScientific d.magnitude body ↔ ¬(-4 ≤ d.magnitude ∧ d.magnitude ≤ 13)
  /-- The digits without the zeros at their end are only cut where they can be cut. -/
  cut : FloatStyle.joined.number.write? (d.digits.rdropWhile (· == '0')) d.magnitude = some body

/-- A number that is not zero is written with its sign and nothing superfluous. -/
theorem renders_signed {d : Decimal} (notZero : d.coefficient ≠ 0) (sign : Sign) :
    let body := FloatStyle.joined.number.write d.normalize.digits d.magnitude
    Renders (sign == .negative) d (FloatStyle.signed sign body) body := by
  intro body
  have trimmed := Decimal.isTrimmed_digits notZero
  have layout := FloatStyle.layout_joined trimmed d.magnitude
  have value : numberValue body = d.value := by
    rw [← Decimal.value_normalize d, ← Decimal.numberValue_write NumberStyle.regular_joined,
      Decimal.magnitude_normalize notZero]
  obtain ⟨number, -⟩ :=
    NumberStyle.number_write NumberStyle.regular_joined trimmed.isDigits d.magnitude
  obtain ⟨first, rest, start, digit⟩ := number.start
  have start : body = first :: rest := start
  have noMinus : first ≠ '-' := ne_of_isDigit '-' digit rfl
  refine ⟨?sign, ?minus, ?value, layout.1, layout.2, ?cut⟩
  case sign => cases sign <;> rfl
  case minus => cases sign <;> simp [FloatStyle.signed, start, noMinus]
  case value =>
    cases sign with
    | negative => exact congrArg Neg.neg value
    | positive =>
      show signedValue body = d.value
      rw [start, signedValue_of_ne noMinus, ← start, value]
  case cut =>
    rw [← Decimal.digits_normalize notZero]
    exact NumberStyle.write?_eq _ trimmed.isDigits.some _

theorem exists_unpack_eq_finite {x : Float} (finite : x.isFinite) (nonzero : (x == 0) = false) :
    ∃ sign mantissa exponent positive,
      x.toModel.unpack = .finite sign mantissa exponent positive := by
  have numeric := FloatStyle.isNumeric_of_isFinite finite
  cases unpacked : x.toModel.unpack with
  | finite sign mantissa exponent positive => exact ⟨sign, mantissa, exponent, positive, rfl⟩
  | zero sign =>
    have equal : (x == 0) = true := by
      rw [float_beq_iff, floatRank?, unpacked]
      rfl
    cases nonzero.symm.trans equal
  | _ =>
    rw [unpacked] at numeric
    cases numeric

/-- The text of a finite float other than zero is the numeral of the float at fourteen digits. -/
theorem text_of_float {x : Float} (finite : x.isFinite) (nonzero : (x == 0) = false) :
    ∃ d : Decimal, d.IsRounding 14 |floatValue x| ∧
      (∀ other : Decimal, other.IsRounding 14 |floatValue x| → other = d) ∧
      ∃ text body, (Value.float x).text? = some text ∧
        Renders (floatValue x < 0) d text.toList body := by
  obtain ⟨sign, mantissa, exponent, positive, unpacked⟩ := exists_unpack_eq_finite finite nonzero
  let exact := Decimal.ofBinary mantissa exponent
  have magnitude : (0 : ℚ) < mantissa * 2 ^ exponent :=
    mul_pos (Nat.cast_pos.mpr positive) (zpow_pos (by norm_num) _)
  have exactValue : exact.value = mantissa * 2 ^ exponent := Decimal.value_ofBinary _ _
  have exactNotZero : exact.coefficient ≠ 0 := by
    rw [Ne, ← Decimal.value_eq_zero_iff, exactValue]
    exact magnitude.ne'
  obtain ⟨absolute, negative⟩ : |floatValue x| = exact.value ∧
      decide (floatValue x < 0) = (sign == .negative) := by
    rw [exactValue, floatValue, unpacked]
    cases sign with
    | positive => exact ⟨abs_of_pos magnitude, decide_eq_false magnitude.not_gt⟩
    | negative =>
      refine ⟨?_, decide_eq_true (neg_neg_of_pos magnitude)⟩
      rw [abs_neg, abs_of_pos magnitude]
  obtain ⟨d, rounding, unique, same⟩ :=
    @Decimal.exists_isRounding_round 14 exact (by decide) exactNotZero
  have notZero := rounding.hasDigits.coefficient_ne_zero
  have body : FloatStyle.joined.unsigned (.finite sign mantissa exponent positive) =
      FloatStyle.joined.number.write d.normalize.digits d.magnitude := by
    rw [← Decimal.magnitude_normalize notZero, Decimal.normalize_eq_of_value_eq same notZero]
    rfl
  refine ⟨d, absolute ▸ rounding, absolute ▸ unique, FloatStyle.joined.write x,
    FloatStyle.joined.unsigned x.toModel.unpack, rfl, ?_⟩
  rw [negative, FloatStyle.toList_write, unpacked, body]
  exact renders_signed notZero sign

/-- A float with more digits, which is rounded up. -/
theorem text_of_float_negative :
    (-123456.78901234567 : Float).isFinite ∧ ((-123456.78901234567 : Float) == 0) = false ∧
      (Value.float (-123456.78901234567)).text? = some "-123456.78901235" ∧
      ∃ d : Decimal, d.IsRounding 14 |floatValue (-123456.78901234567)| ∧ ∃ body,
        Renders (floatValue (-123456.78901234567) < 0) d "-123456.78901235".toList body := by
  have finite : (-123456.78901234567 : Float).isFinite := rfl
  have nonzero : ((-123456.78901234567 : Float) == 0) = false := rfl
  have written : (Value.float (-123456.78901234567)).text? = some "-123456.78901235" := rfl
  obtain ⟨d, rounding, -, text, body, same, renders⟩ := text_of_float finite nonzero
  cases written.symm.trans same
  exact ⟨finite, nonzero, written, d, rounding, body, renders⟩

/-- Above fourteen digits in front of the point there is an exponent; a lone digit keeps `.0`. -/
example : (Value.float 1e14).text? = some "1.0E+14" := rfl

end ArrowExpr
