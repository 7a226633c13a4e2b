import ArrowExpr.Proofs.Tokens
import ArrowExpr.Value.Text
/-!
# Numbers as text

What `NumberStyle.write` yields is an unsigned number, and read as such it is the number that was
written (`NumberStyle.number_write`), as long as the style is `Regular`. No digit follows a zero in
front (`NumberStyle.noLeadingZero_write`).
-/

namespace ArrowExpr

open Target

/-! ## Reading a number -/

/-- The digits of a whole number or an exponent as a natural number. -/
def digitsValue (digits : List Char) : Nat := Nat.ofDigitChars 10 digits 0

/-- The value of digits with or without a fraction. -/
def mantissaValue (text : List Char) : ℚ :=
  let whole := text.takeWhile (· != '.')
  let fraction := (text.dropWhile (· != '.')).drop 1
  digitsValue (whole ++ fraction) / 10 ^ fraction.length

/-- The value of a whole number, with or without a sign. -/
def integerValue : List Char → Int
  | '-' :: digits => -(digitsValue digits)
  | '+' :: digits => digitsValue digits
  | digits => digitsValue digits

/-- The value of an unsigned number. -/
def numberValue (text : List Char) : ℚ :=
  let mantissa := text.takeWhile (!isMark ·)
  let exponent := (text.dropWhile (!isMark ·)).drop 1
  mantissaValue mantissa * 10 ^ integerValue exponent

/-! ## The value of the parts -/

theorem digitsValue_append (first second : List Char) :
    digitsValue (first ++ second) =
      digitsValue first * 10 ^ second.length + digitsValue second := by
  unfold digitsValue
  rw [Nat.ofDigitChars_append, Nat.ofDigitChars_eq_ofDigitChars_zero]
  ring

@[simp] theorem digitsValue_zeros (count : Nat) : digitsValue (List.replicate count '0') = 0 := by
  rw [digitsValue, Nat.ofDigitChars_replicate_zero, Nat.mul_zero]

@[simp] theorem digitsValue_toDigits (n : Nat) : digitsValue (Nat.toDigits 10 n) = n :=
  Nat.ofDigitChars_ten_toDigits

theorem isDigits_toDigits (n : Nat) : IsDigits (Nat.toDigits 10 n) :=
  ⟨Nat.toDigits_ne_nil, fun _ there => Nat.isDigit_of_mem_toDigits (by decide) (by decide) there⟩

theorem ne_of_isDigit {c : Char} (d : Char) (digit : c.isDigit) (notDigit : d.isDigit = false) :
    c ≠ d := by
  rintro rfl
  rw [digit] at notDigit
  cases notDigit

/-- The text does not start with a character of the kind. -/
def Stops (kind : Char → Bool) (rest : List Char) : Prop :=
  ∀ c, rest.head? = some c → kind c = false

theorem stops_nil {kind : Char → Bool} : Stops kind [] := nofun

theorem stops_cons {kind : Char → Bool} {c : Char} (outside : kind c = false) (rest : List Char) :
    Stops kind (c :: rest) := by
  intro d here
  rw [← Option.some.inj here]
  exact outside

/-- A text splits behind the characters of one kind. -/
theorem span_append {kind : Char → Bool} {text : List Char} (inside : ∀ c ∈ text, kind c)
    (rest : List Char) (outside : Stops kind rest) :
    (text ++ rest).takeWhile kind = text ∧ (text ++ rest).dropWhile kind = rest := by
  rw [List.takeWhile_append_of_pos inside, List.dropWhile_append_of_pos inside]
  cases rest with
  | nil => simp
  | cons first others => simp [outside first rfl]

theorem noPoint_of_isDigits {digits : List Char} (isDigits : IsDigits digits) :
    ∀ c ∈ digits, (c != '.') = true := by
  intro c there
  exact bne_iff_ne.mpr (ne_of_isDigit '.' (isDigits.digits c there) rfl)

theorem mantissaValue_whole {digits : List Char} (isDigits : IsDigits digits) :
    mantissaValue digits = digitsValue digits := by
  obtain ⟨whole, fraction⟩ := span_append (noPoint_of_isDigits isDigits) [] nofun
  rw [List.append_nil] at whole fraction
  simp [mantissaValue, whole, fraction]

theorem mantissaValue_fraction {whole : List Char} (isDigits : IsDigits whole)
    (digits : List Char) :
    mantissaValue (whole ++ '.' :: digits) =
      digitsValue (whole ++ digits) / 10 ^ digits.length := by
  obtain ⟨before, after⟩ :=
    span_append (noPoint_of_isDigits isDigits) ('.' :: digits) (stops_cons rfl digits)
  simp only [mantissaValue, before, after, List.drop_one, List.tail_cons]

theorem integerValue_of_isDigits {digits : List Char} (isDigits : IsDigits digits) :
    integerValue digits = digitsValue digits := by
  unfold integerValue
  split
  · exact absurd (isDigits.digits '-' List.mem_cons_self) (by decide)
  · exact absurd (isDigits.digits '+' List.mem_cons_self) (by decide)
  · rfl

theorem isMark_of_mantissa {text : List Char} (mantissa : IsMantissa text) :
    ∀ c ∈ text, (!isMark c) = true := by
  intro c there
  rcases mantissa.chars c there with digit | rfl
  · simp [isMark, ne_of_isDigit 'e' digit rfl, ne_of_isDigit 'E' digit rfl]
  · rfl

theorem numberValue_mantissa {text : List Char} (mantissa : IsMantissa text) :
    numberValue text = mantissaValue text := by
  obtain ⟨before, after⟩ := span_append (isMark_of_mantissa mantissa) [] nofun
  rw [List.append_nil] at before after
  simp [numberValue, before, after, integerValue, digitsValue]

theorem numberValue_scaled {text : List Char} (mantissa : IsMantissa text) {mark : Char}
    (marks : isMark mark) (exponent : List Char) :
    numberValue (text ++ mark :: exponent) =
      mantissaValue text * 10 ^ integerValue exponent := by
  obtain ⟨before, after⟩ := span_append (isMark_of_mantissa mantissa) (mark :: exponent)
    (stops_cons (by rw [marks, Bool.not_true]) exponent)
  simp only [numberValue, before, after, List.drop_one, List.tail_cons]

/-! ## Leading zeros -/

/-- No digit follows a zero at the start of the text. -/
def NoLeadingZero (text : List Char) : Prop :=
  ∀ d rest, text = '0' :: d :: rest → d.isDigit = false

theorem NoLeadingZero.of_append {text rest : List Char} (noZero : NoLeadingZero (text ++ rest)) :
    NoLeadingZero text := by
  intro d more same
  refine noZero d (more ++ rest) ?_
  rw [same, List.cons_append, List.cons_append]

theorem noLeadingZero_of_ne {first : Char} (other : first ≠ '0') (rest : List Char) :
    NoLeadingZero (first :: rest) :=
  fun _ _ same => absurd (List.cons.inj same).1 other

/-- The digits of a number start with a zero only if the number is zero. -/
theorem exists_toDigits_eq_cons {n : Nat} (notZero : n ≠ 0) :
    ∃ first rest, Nat.toDigits 10 n = first :: rest ∧ first ≠ '0' := by
  induction n using Nat.strongRecOn with
  | ind n ih =>
    rw [Nat.toDigits_eq_if (by decide)]
    split
    next small =>
      have all : ∀ n < 10, n ≠ 0 → Nat.digitChar n ≠ '0' := by decide
      exact ⟨_, [], rfl, all n small notZero⟩
    next large =>
      obtain ⟨first, rest, same, other⟩ := ih (n / 10) (by omega) (by omega)
      exact ⟨first, _, by rw [same, List.cons_append], other⟩

theorem noLeadingZero_toDigits (n : Nat) : NoLeadingZero (Nat.toDigits 10 n) := by
  by_cases zero : n = 0
  · subst zero
    intro d rest same
    cases same
  · obtain ⟨first, rest, same, other⟩ := exists_toDigits_eq_cons zero
    rw [same]
    exact noLeadingZero_of_ne other rest

/-! ## What a style writes -/

namespace NumberStyle

/-- The parts of a style that make its texts numbers. -/
structure Regular (style : NumberStyle) : Prop where
  wholeEnd : style.wholeEnd = [] ∨ style.wholeEnd = ['.', '0']
  loneDigitEnd : style.loneDigitEnd = [] ∨ style.loneDigitEnd = ['.', '0']
  mark : isMark style.mark
  plus : style.plus = [] ∨ style.plus = ['+']

theorem regular_debug : FloatStyle.debug.number.Regular := ⟨.inr rfl, .inl rfl, rfl, .inl rfl⟩

theorem regular_joined : FloatStyle.joined.number.Regular := ⟨.inl rfl, .inr rfl, rfl, .inr rfl⟩

/-- A whole number keeps its value with `.0` behind it. -/
theorem mantissa_append_wholeEnd {digits ending : List Char} (isDigits : IsDigits digits)
    (regular : ending = [] ∨ ending = ['.', '0']) :
    IsMantissa (digits ++ ending) ∧ mantissaValue (digits ++ ending) = digitsValue digits := by
  rcases regular with rfl | rfl
  · rw [List.append_nil]
    exact ⟨.whole isDigits, mantissaValue_whole isDigits⟩
  · refine ⟨.fraction isDigits ⟨by simp, by simp⟩, ?_⟩
    rw [mantissaValue_fraction isDigits, digitsValue_append]
    have zero : digitsValue ['0'] = 0 := rfl
    simp [zero]

variable {style : NumberStyle} {digits : List Char}

theorem mantissa_positional (regular : style.Regular) (isDigits : IsDigits digits)
    (magnitude : Int) :
    IsMantissa (style.positional digits magnitude) ∧
      mantissaValue (style.positional digits magnitude) =
        digitsValue digits * 10 ^ (magnitude + 1 - digits.length) := by
  unfold positional
  -- the point stands in front of all digits, among them or behind them
  split
  next zeros =>
    have whole : IsDigits ['0'] := ⟨by simp, by simp⟩
    have fraction : IsDigits (List.replicate zeros '0' ++ digits) :=
      isDigits.of_mem (by simp [isDigits.some]) (by simp +contextual [or_imp])
    refine ⟨.fraction whole fraction, ?_⟩
    have exponent : Int.negSucc zeros + 1 - digits.length =
        -((zeros + digits.length : Nat) : Int) := by
      omega
    have zero : digitsValue ['0'] = 0 := rfl
    rw [exponent, zpow_neg, zpow_natCast]
    refine (mantissaValue_fraction whole _).trans ?_
    rw [digitsValue_append, digitsValue_append, zero]
    simp [div_eq_mul_inv]
  next last =>
    split
    next inside =>
      have whole : IsDigits (digits.take (last + 1)) :=
        isDigits.of_mem (by simpa using isDigits.some) fun _ there =>
          .inl (List.mem_of_mem_take there)
      have fraction : IsDigits (digits.drop (last + 1)) :=
        isDigits.of_mem (by simpa using inside) fun _ there => .inl (List.mem_of_mem_drop there)
      refine ⟨.fraction whole fraction, ?_⟩
      have exponent : Int.ofNat last + 1 - digits.length =
          -((digits.length - (last + 1) : Nat) : Int) := by
        rw [Int.ofNat_eq_natCast]
        omega
      rw [exponent, zpow_neg, zpow_natCast, mantissaValue_fraction whole, List.take_append_drop,
        List.length_drop, div_eq_mul_inv]
    next outside =>
      have padded : IsDigits (digits ++ List.replicate (last + 1 - digits.length) '0') :=
        isDigits.of_mem (by simp [isDigits.some]) (by simp +contextual [or_imp])
      have exponent : Int.ofNat last + 1 - digits.length =
          ((last + 1 - digits.length : Nat) : Int) := by
        rw [Int.ofNat_eq_natCast]
        omega
      obtain ⟨mantissa, value⟩ := mantissa_append_wholeEnd padded regular.wholeEnd
      refine ⟨mantissa, value.trans ?_⟩
      rw [exponent, zpow_natCast, digitsValue_append]
      simp

theorem integerValue_signed (regular : style.Regular) (magnitude : Int) :
    integerValue ((if magnitude < 0 then ['-'] else style.plus) ++
      Nat.toDigits 10 magnitude.natAbs) = magnitude := by
  have value := digitsValue_toDigits magnitude.natAbs
  split
  next negative =>
    have isNegative : integerValue ('-' :: Nat.toDigits 10 magnitude.natAbs) =
        -(magnitude.natAbs : Int) := by
      rw [integerValue, value]
    refine Eq.trans isNegative ?_
    omega
  next notNegative =>
    have noSign := integerValue_of_isDigits (isDigits_toDigits magnitude.natAbs)
    have withPlus : integerValue ('+' :: Nat.toDigits 10 magnitude.natAbs) =
        (magnitude.natAbs : Int) := by
      rw [integerValue, value]
    rw [value] at noSign
    rcases regular.plus with none | plus
    · rw [none]
      refine Eq.trans noSign ?_
      omega
    · rw [plus]
      refine Eq.trans withPlus ?_
      omega

/-- The digits in front of an exponent, with a point behind the first one. -/
theorem mantissa_pointed (regular : style.Regular) (isDigits : IsDigits digits) :
    let text := digits.take 1 ++
      match digits.drop 1 with
      | [] => style.loneDigitEnd
      | rest => '.' :: rest
    IsMantissa text ∧ mantissaValue text = digitsValue digits / 10 ^ (digits.length - 1) := by
  obtain ⟨first, rest, rfl⟩ := List.exists_cons_of_ne_nil isDigits.some
  have lone : IsDigits [first] :=
    isDigits.of_mem (by simp) fun _ there =>
      .inl (List.mem_singleton.mp there ▸ List.mem_cons_self)
  cases rest with
  | nil => simpa using mantissa_append_wholeEnd lone regular.loneDigitEnd
  | cons second others =>
    have fraction : IsDigits (second :: others) :=
      isDigits.of_mem (by simp) fun _ there => .inl (List.mem_cons_of_mem first there)
    refine ⟨.fraction lone fraction, ?_⟩
    exact mantissaValue_fraction lone _

theorem number_scientific (regular : style.Regular) (isDigits : IsDigits digits)
    (magnitude : Int) :
    IsNumber (style.scientific digits magnitude) ∧
      numberValue (style.scientific digits magnitude) =
        digitsValue digits * 10 ^ (magnitude + 1 - digits.length) := by
  obtain ⟨mantissa, value⟩ := mantissa_pointed regular isDigits
  have sign : (if magnitude < 0 then ['-'] else style.plus) ∈ [[], ['-'], ['+']] := by
    split
    · decide
    · rcases regular.plus with none | plus
      · simp [none]
      · simp [plus]
  refine ⟨.scaled mantissa regular.mark sign (isDigits_toDigits _), ?_⟩
  have some : 0 < digits.length := List.length_pos_iff.mpr isDigits.some
  have exponent : magnitude + 1 - digits.length =
      magnitude - ((digits.length - 1 : Nat) : Int) := by
    omega
  refine (numberValue_scaled mantissa regular.mark _).trans ?_
  rw [value, integerValue_signed regular, exponent, zpow_sub₀ (by norm_num), zpow_natCast]
  field_simp

/-- A regular style writes unsigned numbers, and they read back as what was written. -/
theorem number_write (regular : style.Regular) (isDigits : IsDigits digits) (magnitude : Int) :
    IsNumber (style.write digits magnitude) ∧
      numberValue (style.write digits magnitude) =
        digitsValue digits * 10 ^ (magnitude + 1 - digits.length) := by
  unfold write
  split
  · obtain ⟨mantissa, value⟩ := mantissa_positional regular isDigits magnitude
    exact ⟨.plain mantissa, (numberValue_mantissa mantissa).trans value⟩
  · exact number_scientific regular isDigits magnitude

/-- A style that ends whole numbers with `.0` never writes digits alone. -/
theorem exists_point_or_mark (style : NumberStyle) (pointed : style.wholeEnd = ['.', '0'])
    (digits : List Char) (magnitude : Int) :
    ∃ c ∈ style.write digits magnitude, c = '.' ∨ c = style.mark := by
  unfold write
  split
  · refine ⟨'.', ?_, .inl rfl⟩
    unfold positional
    split
    · simp
    · split
      · simp
      · simp [pointed]
  · exact ⟨style.mark, by simp [scientific], .inr rfl⟩

/-- Digits without a zero in front are written so that no digit follows a leading zero. -/
theorem noLeadingZero_write (style : NumberStyle) {first : Char} (other : first ≠ '0')
    (rest : List Char) (magnitude : Int) :
    NoLeadingZero (style.write (first :: rest) magnitude) := by
  unfold write
  split
  · unfold positional
    split
    · intro d more same
      rw [← (List.cons.inj (List.cons.inj same).2).1]
      rfl
    · split
      · exact noLeadingZero_of_ne other _
      · exact noLeadingZero_of_ne other _
  · exact noLeadingZero_of_ne other _

end NumberStyle

end ArrowExpr
