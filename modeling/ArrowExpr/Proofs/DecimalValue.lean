import ArrowExpr.Decimal.Precision
import ArrowExpr.Proofs.FloatRounding
import ArrowExpr.Proofs.NumberText
/-!
# The value of a decimal number

A number without zeros at the end is given by its value (`normalize_eq_of_value_eq`), so the float
nearest to a number depends on its value alone (`toFloat_eq_of_value_eq`). If the value is that of a
float, this float is the nearest one (`toFloat_of_value_eq`).
-/

namespace ArrowExpr

namespace Decimal

open Target

/-- The number as a fraction. -/
def value (d : Decimal) : ℚ := d.coefficient * 10 ^ d.exponent

theorem value_ofBinary (mantissa : Nat) (exponent : Int) :
    (ofBinary mantissa exponent).value = mantissa * 2 ^ exponent := by
  unfold ofBinary
  split
  next nonneg =>
    obtain ⟨n, rfl⟩ := Int.eq_ofNat_of_zero_le nonneg
    simp [value, Nat.shiftLeft_eq]
  next negative =>
    obtain ⟨n, rfl⟩ : ∃ n : Nat, exponent = -n := ⟨exponent.natAbs, by omega⟩
    have ten : (10 : ℚ) ^ n = 2 ^ n * 5 ^ n := by
      rw [← mul_pow]
      norm_num
    simp only [value, Int.neg_neg, Int.toNat_natCast, zpow_neg, zpow_natCast, ten, Nat.pow_eq]
    push_cast
    field_simp

theorem digitsValue_digits (d : Decimal) : digitsValue d.digits = d.coefficient :=
  digitsValue_toDigits d.coefficient

/-- The text of a number has the value of the number. -/
theorem numberValue_write {style : NumberStyle} (regular : style.Regular) (d : Decimal) :
    numberValue (style.write d.digits d.magnitude) = d.value := by
  have written := (NumberStyle.number_write regular (isDigits_toDigits d.coefficient) d.magnitude).2
  have exponent : d.magnitude + 1 - d.digits.length = d.exponent := by
    rw [magnitude]
    omega
  refine written.trans ?_
  show (digitsValue d.digits : ℚ) * 10 ^ (d.magnitude + 1 - d.digits.length) = d.value
  rw [exponent, digitsValue_digits, value]

/-! ## Without zeros at the end -/

/-- The digits are those in front of the zeros at the end, and the zeros. -/
theorem exists_digits_eq (d : Decimal) :
    ∃ front zeros, d.digits = front ++ List.replicate zeros '0' ∧
      (∀ c, front.getLast? = some c → c ≠ '0') ∧
      d.normalize = ⟨d.coefficient / 10 ^ zeros, d.exponent + zeros⟩ := by
  let isZero (c : Char) : Bool := c == '0'
  let zeros := d.digits.reverse.takeWhile isZero
  have allZero : zeros = List.replicate zeros.length '0' :=
    List.eq_replicate_of_mem fun c there =>
      beq_iff_eq.mp (List.all_eq_true.mp List.all_takeWhile c there)
  refine ⟨(d.digits.reverse.dropWhile isZero).reverse, zeros.length, ?_, fun c last => ?_, rfl⟩
  · have whole : zeros ++ d.digits.reverse.dropWhile isZero = d.digits.reverse :=
      List.takeWhile_append_dropWhile
    rw [← List.reverse_inj, List.reverse_append, List.reverse_reverse, List.reverse_replicate,
      ← allZero, whole]
  · have stop := List.head?_dropWhile_not isZero d.digits.reverse
    rw [List.getLast?_reverse] at last
    rw [last] at stop
    exact beq_eq_false_iff_ne.mp stop

theorem coefficient_eq_normalize (d : Decimal) :
    ∃ zeros : Nat, d.coefficient = d.normalize.coefficient * 10 ^ zeros ∧
      d.normalize.exponent = d.exponent + zeros ∧
      (d.coefficient ≠ 0 → d.normalize.coefficient % 10 ≠ 0) := by
  obtain ⟨front, zeros, digits, last, normalized⟩ := d.exists_digits_eq
  have coefficient : d.coefficient = digitsValue front * 10 ^ zeros := by
    rw [← d.digitsValue_digits, digits, digitsValue_append]
    simp
  have quotient : d.coefficient / 10 ^ zeros = digitsValue front := by
    rw [coefficient, Nat.mul_div_cancel _ (Nat.pow_pos (by decide))]
  rw [normalized, quotient]
  refine ⟨zeros, coefficient, rfl, fun notZero => ?_⟩
  -- the last of the digits in front of the zeros is the last digit of the coefficient
  rcases List.eq_nil_or_concat front with rfl | ⟨others, c, rfl⟩
  · exact absurd coefficient (by simpa [digitsValue] using notZero)
  · have notZeroDigit := last c (by simp)
    have digit : c.isDigit := (isDigits_toDigits d.coefficient).digits c (by
      show c ∈ d.digits
      rw [digits]
      simp)
    have value : digitsValue [c] = c.toNat - 48 := by
      rw [digitsValue, Nat.ofDigitChars_cons, Nat.ofDigitChars_nil, Nat.mul_zero, Nat.zero_add]
      rfl
    have bounds : 48 ≤ c.toNat ∧ c.toNat ≤ 57 := Char.isDigit_iff_toNat.mp digit
    have notZeroCode : c.toNat ≠ 48 := fun code => notZeroDigit (Char.toNat_inj.mp code)
    show digitsValue (others.concat c) % 10 ≠ 0
    rw [List.concat_eq_append, digitsValue_append, value, List.length_singleton]
    omega

theorem value_normalize (d : Decimal) : d.normalize.value = d.value := by
  obtain ⟨zeros, coefficient, exponent, _⟩ := d.coefficient_eq_normalize
  rw [value, value, coefficient, exponent, zpow_add₀ (by norm_num), zpow_natCast]
  push_cast
  ring

theorem exponent_le_of_value_eq {a b : Decimal} (same : a.value = b.value)
    (ends : a.coefficient % 10 ≠ 0) : b.exponent ≤ a.exponent := by
  refine Int.le_of_not_gt fun less => ends ?_
  obtain ⟨more, split⟩ : ∃ more : Nat, b.exponent = a.exponent + (more + 1) :=
    ⟨(b.exponent - a.exponent - 1).toNat, by omega⟩
  have positive : (10 : ℚ) ^ a.exponent ≠ 0 := zpow_ne_zero _ (by norm_num)
  have coefficients : a.coefficient = b.coefficient * 10 ^ (more + 1) := by
    rw [value, value, split, zpow_add₀ (by norm_num), mul_left_comm, mul_comm] at same
    have cancelled := mul_left_cancel₀ positive same
    exact_mod_cast cancelled
  rw [coefficients, Nat.pow_succ, ← Nat.mul_assoc, Nat.mul_mod_left]

/-- Numbers of one value that do not end in zeros are the same number. -/
theorem eq_of_value_eq {a b : Decimal} (same : a.value = b.value) (ends : a.coefficient % 10 ≠ 0)
    (ends' : b.coefficient % 10 ≠ 0) : a = b := by
  have exponents : a.exponent = b.exponent :=
    Int.le_antisymm (exponent_le_of_value_eq same.symm ends') (exponent_le_of_value_eq same ends)
  have positive : (10 : ℚ) ^ b.exponent ≠ 0 := zpow_ne_zero _ (by norm_num)
  have coefficients : a.coefficient = b.coefficient := by
    rw [value, value, exponents] at same
    exact_mod_cast mul_right_cancel₀ positive same
  cases a
  cases b
  congr

theorem value_eq_zero_iff {d : Decimal} : d.value = 0 ↔ d.coefficient = 0 := by
  have positive : (10 : ℚ) ^ d.exponent ≠ 0 := zpow_ne_zero _ (by norm_num)
  rw [value, mul_eq_zero, or_iff_left positive, Nat.cast_eq_zero]

theorem normalize_eq_of_value_eq {a b : Decimal} (same : a.value = b.value)
    (notZero : a.coefficient ≠ 0) : a.normalize = b.normalize := by
  have notZero' : b.coefficient ≠ 0 := by
    rw [Ne, ← value_eq_zero_iff, ← same, value_eq_zero_iff]
    exact notZero
  obtain ⟨_, _, _, ends⟩ := a.coefficient_eq_normalize
  obtain ⟨_, _, _, ends'⟩ := b.coefficient_eq_normalize
  refine eq_of_value_eq ?_ (ends notZero) (ends' notZero')
  rw [value_normalize, value_normalize, same]

/-! ## The nearest float -/

/-- Numbers of one value have the same nearest float. -/
theorem toFloat_eq_of_value_eq {a b : Decimal} (same : a.value = b.value)
    (notZero : a.coefficient ≠ 0) : a.toFloat = b.toFloat := by
  rw [toFloat, toFloat, normalize_eq_of_value_eq same notZero]

theorem toFloat_of_coefficient_eq_zero {d : Decimal} (zero : d.coefficient = 0) :
    d.toFloat = .ofModel (.pack (.zero .positive)) := by
  have normalized : d.normalize.coefficient = 0 := by
    rw [normalize, zero, Nat.zero_div]
  rw [toFloat, normalized]
  rfl

/-- The nearest float to the exact value of a float is that float. -/
theorem toFloat_of_value_eq {d : Decimal} {mantissa : Nat} {exponent : Int}
    (canonical : FloatParts.Canonical mantissa exponent)
    (same : d.value = mantissa * 2 ^ exponent) :
    d.toFloat = .ofModel (.pack (.finite .positive mantissa exponent canonical.positive)) := by
  have exact := FloatParts.ofScientific_exact canonical ((value_normalize d).trans same)
  rw [toFloat, Float.Model.ofScientific, exact]

end Decimal

end ArrowExpr
