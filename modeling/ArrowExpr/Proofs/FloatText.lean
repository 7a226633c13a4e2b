import ArrowExpr.Proofs.DecimalValue
import ArrowExpr.Target.Code
/-!
# Floats as text

The text of a float has a minus if the float is negative, and then the name of a special value or an
unsigned number (`toList_write`). In a style with the shortest digits the text tells floats apart
(`write_injective`).
-/

namespace ArrowExpr

namespace FloatStyle

open Float.Model Target FloatParts
open Float.Model.UnpackedFloat (Sign)

/-- The sign of a float; not-a-number has none. -/
def signOf : UnpackedFloat → Sign
  | .notANumber => .positive
  | .infinity sign => sign
  | .zero sign => sign
  | .finite sign _ _ _ => sign

/-- The text of a float without its sign. -/
def unsigned (style : FloatStyle) : UnpackedFloat → List Char
  | .notANumber => style.notANumber
  | .infinity _ => style.infinity
  | .zero _ => '0' :: style.number.wholeEnd
  | .finite _ mantissa exponent positive =>
    let d := (style.decimal mantissa exponent positive).normalize
    style.number.write d.digits d.magnitude

theorem toList_write (style : FloatStyle) (x : Float) :
    (style.write x).toList =
      signed (signOf x.toModel.unpack) (style.unsigned x.toModel.unpack) := by
  rw [write, String.toList_ofList]
  cases x.toModel.unpack <;> rfl

/-- What makes the texts of a style numbers and names. -/
structure Regular (style : FloatStyle) : Prop where
  number : style.number.Regular
  notANumber : IsIdentifier style.notANumber
  infinity : IsIdentifier style.infinity
  distinct : style.notANumber ≠ style.infinity

/-- Zero and the finite floats. -/
def isNumeric : UnpackedFloat → Bool
  | .zero _ => true
  | .finite .. => true
  | _ => false

theorem isNumeric_of_isFinite {x : Float} (finite : x.isFinite) : isNumeric x.toModel.unpack := by
  have isFinite : x.toModel.unpack.isFinite := finite
  cases unpacked : x.toModel.unpack with
  | zero => rfl
  | finite => rfl
  | _ =>
    rw [unpacked] at isFinite
    cases isFinite

variable {style : FloatStyle}

theorem isNumber_unsigned (regular : style.number.Regular) {x : UnpackedFloat}
    (numeric : isNumeric x) : IsNumber (style.unsigned x) := by
  cases x with
  | zero =>
    have zero : IsDigits ['0'] := ⟨by simp, by simp⟩
    exact .plain (NumberStyle.mantissa_append_wholeEnd zero regular.wholeEnd).1
  | finite =>
    exact (NumberStyle.number_write regular (isDigits_toDigits _) _).1
  | _ => cases numeric

theorem isIdentifier_unsigned (regular : style.Regular) {x : UnpackedFloat}
    (notNumeric : isNumeric x = false) : IsIdentifier (style.unsigned x) := by
  cases x with
  | notANumber => exact regular.notANumber
  | infinity => exact regular.infinity
  | _ => cases notNumeric

/-! ## The shortest digits -/

theorem nearest_eq (tie : Tie) (low rest unit : Nat) :
    tie.nearest low rest unit = low ∨ tie.nearest low rest unit = low + 1 := by
  unfold Tie.nearest
  split
  · exact .inl rfl
  · exact .inr rfl
  · cases tie with
    | up => exact .inr rfl
    | toEven =>
      show low + low % 2 = low ∨ low + low % 2 = low + 1
      omega

theorem admitted_of_admittedAt {tie : Tie} {admitted : Decimal → Bool} {d found : Decimal}
    {count : Nat} (here : d.admittedAt tie admitted count = some found) : admitted found := by
  unfold Decimal.admittedAt at here
  dsimp only at here
  split at here
  next low high =>
    cases here
    let unit := Nat.pow 10 (d.digits.length - count)
    rcases nearest_eq tie (d.coefficient / unit) (d.coefficient % unit) unit
      with below | above
    · rw [below]
      exact low
    · rw [above]
      exact high
  next low _ =>
    cases here
    exact low
  next _ high =>
    cases here
    exact high
  next => cases here

/-- The shortest digits are admitted, if they are not all digits. -/
theorem shortest_eq_or_admitted (tie : Tie) (admitted : Decimal → Bool) (d : Decimal) :
    d.shortest tie admitted = d ∨ admitted (d.shortest tie admitted) := by
  unfold Decimal.shortest
  cases search : (List.range' 1 Decimal.maxDigits).findSome? (d.admittedAt tie admitted) with
  | none => exact .inl rfl
  | some found =>
    obtain ⟨count, _, here⟩ := List.exists_of_findSome?_eq_some search
    exact .inr (admitted_of_admittedAt here)

variable {mantissa : Nat} {exponent : Int}

/-- The shortest digits read back as the float. -/
theorem toBits_decimal {tie : Tie} (shortest : style.digits = .shortest tie)
    (canonical : Canonical mantissa exponent) :
    (style.decimal mantissa exponent canonical.positive).toFloat.toBits =
      (pack (.finite .positive mantissa exponent canonical.positive)).toBits := by
  unfold decimal
  simp only [shortest]
  let float := pack (.finite .positive mantissa exponent canonical.positive)
  rcases shortest_eq_or_admitted tie (fun d => d.toFloat.toBits == float.toBits)
    (Decimal.ofBinary mantissa exponent) with all | admitted
  · -- no shorter number was admitted, but all digits are the float exactly
    rw [all, Decimal.toFloat_of_value_eq canonical (Decimal.value_ofBinary mantissa exponent)]
    rfl
  · exact beq_iff_eq.mp admitted

theorem pack_inj_of_canonical {mantissa' : Nat} {exponent' : Int}
    (canonical : Canonical mantissa exponent) (canonical' : Canonical mantissa' exponent')
    (same : pack (.finite .positive mantissa exponent canonical.positive) =
      pack (.finite .positive mantissa' exponent' canonical'.positive)) :
    mantissa = mantissa' ∧ exponent = exponent' := by
  have unpacked := congrArg Float.Model.unpack same
  rw [unpack_pack_finite .positive canonical, unpack_pack_finite .positive canonical'] at unpacked
  cases unpacked
  exact ⟨rfl, rfl⟩

theorem coefficient_decimal_ne_zero {tie : Tie} (shortest : style.digits = .shortest tie)
    (canonical : Canonical mantissa exponent) :
    (style.decimal mantissa exponent canonical.positive).coefficient ≠ 0 := by
  intro zero
  have bits := toBits_decimal shortest canonical
  rw [Decimal.toFloat_of_coefficient_eq_zero zero] at bits
  have same : pack (.zero .positive) =
      pack (.finite .positive mantissa exponent canonical.positive) :=
    Float.Model.mk.injEq .. ▸ bits
  have unpacked := congrArg Float.Model.unpack same
  rw [unpack_pack_finite .positive canonical] at unpacked
  cases unpacked

/-- The value that the text of a number has without its sign. -/
def writtenValue (style : FloatStyle) : UnpackedFloat → ℚ
  | .finite _ mantissa exponent positive => (style.decimal mantissa exponent positive).value
  | _ => 0

theorem numberValue_unsigned (regular : style.number.Regular) {x : UnpackedFloat}
    (numeric : isNumeric x) : numberValue (style.unsigned x) = style.writtenValue x := by
  cases x with
  | zero =>
    have zero : IsDigits ['0'] := ⟨by simp, by simp⟩
    obtain ⟨mantissa, value⟩ := NumberStyle.mantissa_append_wholeEnd zero regular.wholeEnd
    have none : digitsValue ['0'] = 0 := rfl
    refine (numberValue_mantissa mantissa).trans (value.trans ?_)
    rw [none]
    exact Nat.cast_zero
  | finite sign mantissa exponent positive =>
    have value := Decimal.numberValue_write regular
      (style.decimal mantissa exponent positive).normalize
    exact value.trans (Decimal.value_normalize _)
  | _ => cases numeric

/-! ## The text tells floats apart -/

theorem writtenValue_finite_ne_zero {tie : Tie} (shortest : style.digits = .shortest tie)
    (canonical : Canonical mantissa exponent) (sign : Sign) :
    style.writtenValue (.finite sign mantissa exponent canonical.positive) ≠ 0 := by
  rw [writtenValue, Ne, Decimal.value_eq_zero_iff]
  exact coefficient_decimal_ne_zero shortest canonical

/-- Zero and the finite floats are told apart by sign and written value. -/
theorem eq_of_writtenValue_eq {tie : Tie} (shortest : style.digits = .shortest tie)
    {x y : Float.Model} (numeric : isNumeric x.unpack) (numeric' : isNumeric y.unpack)
    (signs : signOf x.unpack = signOf y.unpack)
    (values : style.writtenValue x.unpack = style.writtenValue y.unpack) :
    x.unpack = y.unpack := by
  cases left : x.unpack with
  | zero sign =>
    cases right : y.unpack with
    | zero =>
      rw [left, right] at signs
      exact congrArg _ signs
    | finite =>
      rw [left, right] at values
      exact absurd values.symm (writtenValue_finite_ne_zero shortest (canonical_of_unpack right) _)
    | _ =>
      rw [right] at numeric'
      cases numeric'
  | finite sign mantissa exponent positive =>
    cases right : y.unpack with
    | zero =>
      rw [left, right] at values
      exact absurd values (writtenValue_finite_ne_zero shortest (canonical_of_unpack left) _)
    | finite sign' mantissa' exponent' positive' =>
      rw [left, right] at values signs
      have canonical := canonical_of_unpack left
      have canonical' := canonical_of_unpack right
      have floats := Decimal.toFloat_eq_of_value_eq values
        (coefficient_decimal_ne_zero shortest canonical)
      have bits := congrArg Float.toBits floats
      rw [toBits_decimal shortest canonical, toBits_decimal shortest canonical'] at bits
      obtain ⟨rfl, rfl⟩ :=
        pack_inj_of_canonical canonical canonical' (Float.Model.mk.injEq .. ▸ bits)
      exact congrArg (UnpackedFloat.finite · mantissa exponent positive) signs
    | _ =>
      rw [right] at numeric'
      cases numeric'
  | _ =>
    rw [left] at numeric
    cases numeric

theorem eq_of_name_eq (regular : style.Regular) {x y : UnpackedFloat}
    (name : isNumeric x = false) (name' : isNumeric y = false) (signs : signOf x = signOf y)
    (same : style.unsigned x = style.unsigned y) : x = y := by
  cases x with
  | notANumber =>
    cases y with
    | notANumber => rfl
    | infinity => exact absurd same regular.distinct
    | _ => cases name'
  | infinity sign =>
    cases y with
    | notANumber => exact absurd same.symm regular.distinct
    | infinity => exact congrArg _ signs
    | _ => cases name'
  | _ => cases name

theorem isNumeric_eq_of_unsigned_eq (regular : style.Regular) {x y : UnpackedFloat}
    (same : style.unsigned x = style.unsigned y) : isNumeric x = isNumeric y := by
  cases numeric : isNumeric x <;> cases numeric' : isNumeric y
  · rfl
  · exact absurd (same ▸ isIdentifier_unsigned regular numeric)
      (isNumber_unsigned regular.number numeric').not_isIdentifier
  · exact absurd (same ▸ isIdentifier_unsigned regular numeric')
      (isNumber_unsigned regular.number numeric).not_isIdentifier
  · rfl

theorem isWord_unsigned (regular : style.Regular) (x : UnpackedFloat) :
    IsWord (style.unsigned x) := by
  cases numeric : isNumeric x with
  | true => exact .number (isNumber_unsigned regular.number numeric)
  | false => exact .identifier (isIdentifier_unsigned regular numeric)

/-- A text without its sign is not negative. -/
theorem unsigned_ne_minus (regular : style.Regular) (x : UnpackedFloat) (rest : List Char) :
    style.unsigned x ≠ '-' :: rest := by
  intro minus
  obtain ⟨first, others, start, startsWord⟩ := (isWord_unsigned regular x).start
  rw [minus] at start
  rw [← (List.cons.inj start).1] at startsWord
  cases startsWord

theorem signed_inj {sign sign' : Sign} {text text' : List Char}
    (unsigned : ∀ rest, text ≠ '-' :: rest) (unsigned' : ∀ rest, text' ≠ '-' :: rest)
    (same : signed sign text = signed sign' text') : sign = sign' ∧ text = text' := by
  cases sign with
  | positive =>
    cases sign' with
    | positive => exact ⟨rfl, same⟩
    | negative => exact absurd same (unsigned _)
  | negative =>
    cases sign' with
    | positive => exact absurd same.symm (unsigned' _)
    | negative => exact ⟨rfl, (List.cons.inj same).2⟩

/-- Floats with the same shortest text are the same float. -/
theorem write_injective {tie : Tie} (regular : style.Regular)
    (shortest : style.digits = .shortest tie) {x y : Float}
    (same : style.write x = style.write y) : x = y := by
  have texts := congrArg String.toList same
  rw [toList_write, toList_write] at texts
  obtain ⟨signs, unsigned⟩ := signed_inj (unsigned_ne_minus regular _)
    (unsigned_ne_minus regular _) texts
  have kinds := isNumeric_eq_of_unsigned_eq regular unsigned
  -- a name is told apart as it stands, a number by the value that it reads back as
  refine unpack_injective ?_
  cases numeric : isNumeric x.toModel.unpack with
  | false => exact eq_of_name_eq regular numeric (kinds ▸ numeric) signs unsigned
  | true =>
    have numeric' := kinds ▸ numeric
    have values := congrArg numberValue unsigned
    rw [numberValue_unsigned regular.number numeric,
      numberValue_unsigned regular.number numeric'] at values
    exact eq_of_writtenValue_eq shortest numeric numeric' signs values

end FloatStyle

end ArrowExpr
