import ArrowExpr.Json.Number
import ArrowExpr.Proofs.LiteralText
import ArrowExpr.Proofs.Operators
/-!
# Numbers in JSON read back

The reader of numbers takes an unsigned number without a leading zero apart
(`Number.unsigned?_of_isNumber`), and what it finds has the value of the text. So a written integer
reads as that integer (`Number.ofText?_repr`), and the float nearest to a written float is that float
(`Number.ofText?_write`).
-/

namespace ArrowExpr

open Target

namespace Json.Number

/-! ## The parts of a number -/

theorem not_isDigit_of_isMark {mark : Char} (marks : isMark mark) : mark.isDigit = false := by
  rw [isMark, Bool.or_eq_true, beq_iff_eq, beq_iff_eq] at marks
  rcases marks with rfl | rfl <;> rfl

theorem digits?_append {digits rest : List Char} (isDigits : IsDigits digits)
    (stops : Stops Char.isDigit rest) : digits? (digits ++ rest) = some (digits, rest) := by
  obtain ⟨before, behind⟩ := span_append isDigits.digits rest stops
  rw [digits?, before, behind]
  split
  next => exact absurd rfl isDigits.some
  next => rfl

theorem integral?_append {digits rest : List Char} (isDigits : IsDigits digits)
    (noZero : NoLeadingZero digits) (stops : Stops Char.isDigit rest) :
    integral? (digits ++ rest) = some (digits, rest) := by
  rw [integral?, digits?_append isDigits stops]
  split
  next d more others same =>
    cases same
    have notDigit := noZero d more rfl
    rw [isDigits.digits d (by simp)] at notDigit
    cases notDigit
  next => rfl

theorem fraction?_of_ne {rest : List Char} (notPoint : rest.head? ≠ some '.') :
    fraction? rest = some ([], rest) := by
  unfold fraction?
  split
  · exact absurd rfl notPoint
  · rfl

theorem signedExponent?_append {digits sign : List Char} (isSign : sign ∈ [[], ['-'], ['+']])
    (isDigits : IsDigits digits) :
    signedExponent? (sign ++ digits) = some (integerValue (sign ++ digits), []) := by
  have read := digits?_append isDigits stops_nil
  rw [List.append_nil] at read
  simp only [List.mem_cons, List.not_mem_nil, or_false] at isSign
  rcases isSign with rfl | rfl | rfl
  · rw [List.nil_append, integerValue_of_isDigits isDigits]
    unfold signedExponent?
    split
    · exact absurd (isDigits.digits '-' List.mem_cons_self) (by decide)
    · exact absurd (isDigits.digits '+' List.mem_cons_self) (by decide)
    · rw [read]
      rfl
  · rw [List.singleton_append, signedExponent?, read]
    rfl
  · rw [List.singleton_append, signedExponent?, read]
    rfl

theorem exponent?_mark {mark : Char} (marks : isMark mark) {digits sign : List Char}
    (isSign : sign ∈ [[], ['-'], ['+']]) (isDigits : IsDigits digits) :
    exponent? (mark :: (sign ++ digits)) = some (some (integerValue (sign ++ digits)), []) := by
  have read := signedExponent?_append isSign isDigits
  rw [isMark, Bool.or_eq_true, beq_iff_eq, beq_iff_eq] at marks
  rcases marks with rfl | rfl
  · rw [exponent?, read]
    rfl
  · rw [exponent?, read]
    rfl

/-! ## The number of a text -/

/-- The size of a number as it is written. -/
def toDecimal (n : Number) : Decimal :=
  ⟨digitsValue (n.integral ++ n.fraction), n.exponent.getD 0 - n.fraction.length⟩

/-- The float nearest to a number. -/
def nearest (n : Number) : Float :=
  if n.negative then -n.toDecimal.toFloat else n.toDecimal.toFloat

/-- A mantissa is taken apart at its point. -/
theorem parts_of_isMantissa {text : List Char} (mantissa : IsMantissa text)
    (noZero : NoLeadingZero text) :
    ∃ integral middle fraction, mantissaValue text =
        digitsValue (integral ++ fraction) / 10 ^ fraction.length ∧
      ∀ rest, (∀ c, rest.head? = some c → isMark c) →
        integral? (text ++ rest) = some (integral, middle ++ rest) ∧
          fraction? (middle ++ rest) = some (fraction, rest) := by
  have stops {rest : List Char} (marks : ∀ c, rest.head? = some c → isMark c) :
      Stops Char.isDigit rest :=
    fun c here => not_isDigit_of_isMark (marks c here)
  cases mantissa with
  | whole isDigits =>
    refine ⟨text, [], [], ?_, fun rest marks => ⟨?_, ?_⟩⟩
    · rw [mantissaValue_whole isDigits]
      simp
    · exact integral?_append isDigits noZero (stops marks)
    · exact fraction?_of_ne fun point => absurd (marks '.' point) (by decide)
  | @fraction whole digits isDigits isFraction =>
    refine ⟨whole, '.' :: digits, digits, mantissaValue_fraction isDigits digits,
      fun rest marks => ⟨?_, ?_⟩⟩
    · rw [List.append_assoc]
      exact integral?_append isDigits noZero.of_append (stops_cons rfl _)
    · exact digits?_append isFraction (stops marks)

/-- An unsigned number without a leading zero is read, and what is found has the value of the
text. -/
theorem unsigned?_of_isNumber {text : List Char} (number : IsNumber text)
    (noZero : NoLeadingZero text) (negative : Bool) :
    ∃ n, unsigned? negative text = some n ∧ n.negative = negative ∧
      n.toDecimal.value = numberValue text := by
  cases number with
  | plain mantissa =>
    obtain ⟨integral, middle, fraction, value, parts⟩ := parts_of_isMantissa mantissa noZero
    obtain ⟨first, second⟩ := parts [] nofun
    refine ⟨⟨negative, integral, fraction, none⟩, ?_, rfl, ?_⟩
    · rw [List.append_nil] at first second
      simp [unsigned?, first, second, exponent?]
    · rw [numberValue_mantissa mantissa, value]
      simp [Decimal.value, toDecimal, div_eq_mul_inv]
  | @scaled mantissa digits sign mark isMantissa marks isSign isDigits =>
    obtain ⟨integral, middle, fraction, value, parts⟩ :=
      parts_of_isMantissa isMantissa noZero.of_append
    obtain ⟨first, second⟩ := parts (mark :: (sign ++ digits)) fun c here =>
      Option.some.inj here ▸ marks
    refine ⟨⟨negative, integral, fraction, some (integerValue (sign ++ digits))⟩, ?_, rfl, ?_⟩
    · simp [unsigned?, first, second, exponent?_mark marks isSign isDigits]
    · rw [numberValue_scaled isMantissa marks, value]
      simp only [Decimal.value, toDecimal, Option.getD_some]
      rw [zpow_sub₀ (by norm_num), zpow_natCast]
      ring

theorem ofText?_of_isDigit {first : Char} (digit : first.isDigit) (rest : List Char) :
    ofText? (first :: rest) = unsigned? false (first :: rest) := by
  unfold ofText?
  split
  next same =>
    rw [(List.cons.inj same).1] at digit
    cases digit
  next => rfl

/-! ## Integers -/

theorem unsigned?_toDigits (negative : Bool) (n : Nat) :
    unsigned? negative (Nat.toDigits 10 n) = some ⟨negative, Nat.toDigits 10 n, [], none⟩ := by
  have read := integral?_append (isDigits_toDigits n) (noLeadingZero_toDigits n) stops_nil
  rw [List.append_nil] at read
  simp [unsigned?, read, fraction?, exponent?]

theorem int64?_toDigits (negative : Bool) (n : Nat) :
    (Number.mk negative (Nat.toDigits 10 n) [] none).int64? =
      if negative then if n = 0 then none else ArrowExpr.int64? (-n) else ArrowExpr.int64? n := by
  simp [int64?, isWhole]

/-- A written integer is read as that integer. -/
theorem ofText?_repr (n : Int64) : (ofText? n.toInt.repr.toList).bind (·.int64?) = some n := by
  by_cases negative : n.toInt < 0
  · have notZero : (-n.toInt).toNat ≠ 0 := by omega
    have size : -((-n.toInt).toNat : Int) = n.toInt := by omega
    rw [Literal.toList_repr_of_neg negative, ofText?, unsigned?_toDigits, Option.bind_some,
      int64?_toDigits, if_pos rfl, if_neg notZero, size, int64?_toInt]
  · have size : (n.toInt.toNat : Int) = n.toInt := by omega
    obtain ⟨first, rest, same⟩ := List.exists_cons_of_ne_nil (isDigits_toDigits n.toInt.toNat).some
    have digit := (isDigits_toDigits n.toInt.toNat).digits first (same ▸ List.mem_cons_self)
    rw [Literal.toList_repr_of_nonneg (Int.not_lt.mp negative), same, ofText?_of_isDigit digit,
      ← same, unsigned?_toDigits, Option.bind_some, int64?_toDigits, if_neg Bool.false_ne_true,
      size, int64?_toInt]

end Json.Number

/-! ## Floats -/

namespace FloatStyle

open Float.Model Float.Model.UnpackedFloat FloatParts
open Float.Model.UnpackedFloat (Sign)

/-- Negation changes the sign only. -/
theorem unpack_neg {x : Float} (numeric : isNumeric x.toModel.unpack) :
    (-x).toModel.unpack = x.toModel.unpack.neg := by
  show (Float.Model.pack x.toModel.unpack.neg).unpack = x.toModel.unpack.neg
  cases unpacked : x.toModel.unpack with
  | zero sign => cases sign <;> rfl
  | finite sign => exact unpack_pack_finite (-sign) (canonical_of_unpack unpacked)
  | _ =>
    rw [unpacked] at numeric
    cases numeric

variable {style : FloatStyle}

theorem noLeadingZero_unsigned (pointed : style.number.wholeEnd = ['.', '0']) {tie : Tie}
    (shortest : style.digits = .shortest tie) {x : Float.Model} (numeric : isNumeric x.unpack) :
    NoLeadingZero (style.unsigned x.unpack) := by
  cases unpacked : x.unpack with
  | zero =>
    rw [unsigned, pointed]
    intro d rest same
    cases same
    rfl
  | finite sign mantissa exponent positive =>
    have canonical := canonical_of_unpack unpacked
    have notZero := coefficient_decimal_ne_zero shortest canonical
    obtain ⟨zeros, coefficient, _, _⟩ :=
      (style.decimal mantissa exponent positive).coefficient_eq_normalize
    have normalized : (style.decimal mantissa exponent positive).normalize.coefficient ≠ 0 := by
      intro zero
      rw [zero, Nat.zero_mul] at coefficient
      exact notZero coefficient
    obtain ⟨first, rest, digits, other⟩ := exists_toDigits_eq_cons normalized
    rw [unsigned, Decimal.digits, digits]
    exact style.number.noLeadingZero_write other rest _
  | _ =>
    rw [unpacked] at numeric
    cases numeric

/-- The float nearest to the value of a written float is that float, without its sign. -/
theorem unpack_toFloat {tie : Tie} (shortest : style.digits = .shortest tie) {x : Float.Model}
    (numeric : isNumeric x.unpack) {d : Decimal} (value : d.value = style.writtenValue x.unpack) :
    d.toFloat.toModel.unpack = x.unpack.abs := by
  cases unpacked : x.unpack with
  | zero =>
    rw [unpacked] at value
    rw [Decimal.toFloat_of_coefficient_eq_zero (Decimal.value_eq_zero_iff.mp value)]
    rfl
  | finite sign mantissa exponent positive =>
    have canonical := canonical_of_unpack unpacked
    rw [unpacked, writtenValue] at value
    have same := Decimal.toFloat_eq_of_value_eq value.symm
      (coefficient_decimal_ne_zero shortest canonical)
    have bits := toBits_decimal shortest canonical
    rw [same] at bits
    have packed : d.toFloat.toModel =
        .pack (.finite .positive mantissa exponent canonical.positive) :=
      Float.Model.mk.injEq .. ▸ bits
    rw [packed, unpack_pack_finite .positive canonical]
    rfl
  | _ =>
    rw [unpacked] at numeric
    cases numeric

theorem isNumeric_abs {x : UnpackedFloat} (numeric : isNumeric x) : isNumeric x.abs := by
  cases x with
  | zero => rfl
  | finite => rfl
  | _ => cases numeric

/-- A float is its size with its sign. -/
theorem neg_abs {x : UnpackedFloat} (numeric : isNumeric x) :
    (if signOf x == .negative then x.abs.neg else x.abs) = x := by
  cases x with
  | zero sign => cases sign <;> rfl
  | finite sign => cases sign <;> rfl
  | _ => cases numeric

end FloatStyle

namespace Json

theorem Number.isFinite_of_float? {toFloat : Number → Float} {n : Number} {x : Float}
    (read : n.float? toFloat = some x) : x.isFinite := by
  rw [float?] at read
  split at read
  next finite =>
    cases read
    exact finite
  next => cases read

theorem regular_floatStyle : floatStyle.number.Regular := ⟨.inr rfl, .inl rfl, rfl, .inr rfl⟩

namespace Number

open FloatStyle

theorem ofText?_signed {text : List Char} (number : IsNumber text)
    (sign : Float.Model.UnpackedFloat.Sign) :
    ofText? (signed sign text) = unsigned? (sign == .negative) text := by
  cases sign with
  | negative => rfl
  | positive =>
    obtain ⟨first, rest, rfl, digit⟩ := number.start
    exact ofText?_of_isDigit digit rest

/-- A written float is read as a number, and it is the float nearest to that number. -/
theorem ofText?_write {x : Float} (finite : x.isFinite) :
    ∃ n, ofText? (floatStyle.write x).toList = some n ∧ n.nearest = x := by
  have numeric := isNumeric_of_isFinite finite
  have isNumber := isNumber_unsigned regular_floatStyle numeric
  obtain ⟨n, read, sign, value⟩ := unsigned?_of_isNumber isNumber
    (noLeadingZero_unsigned rfl rfl numeric) (signOf x.toModel.unpack == .negative)
  rw [numberValue_unsigned regular_floatStyle numeric] at value
  have size := unpack_toFloat rfl numeric value
  refine ⟨n, ?_, FloatParts.unpack_injective ?_⟩
  · rw [toList_write, ofText?_signed isNumber, read]
  · refine Eq.trans ?_ (neg_abs numeric)
    rw [nearest, sign]
    split
    · rw [unpack_neg (size ▸ isNumeric_abs numeric), size]
    · exact size

end Number

end Json

end ArrowExpr
