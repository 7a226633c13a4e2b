import ArrowExpr.Proofs.DecimalValue
/-!
# Rounding to a count of digits

Numbers with the same count of digits are apart from each other, each with a next one
(`Decimal.next`, `Decimal.HasDigits.le_or_next_le`). So a positive number that is cut to some digits
lies between what is left and the next such number, and it is rounded to one of the two. Results:

1. `Decimal.IsRounding.unique`: the nearest number of so many digits, a tie to the even one, is
   unique. It needs two digits: a single odd digit can be next to `10`, which is `1` and a zero.
2. `Decimal.exists_isRounding_round`: `Decimal.round` finds its value.
3. `Decimal.exists_digits_eq_normalize`: without the zeros at the end the digits remain, and the
   magnitude (`Decimal.magnitude_normalize`).
-/

namespace ArrowExpr.Decimal

/-! ## Numbers of so many digits -/

/-- The number has so many digits, and the first one is not zero. -/
def HasDigits (count : ℕ) (d : Decimal) : Prop :=
  10 ^ (count - 1) ≤ d.coefficient ∧ d.coefficient < 10 ^ count

/-- The number of so many digits that is nearest to `x`, and if there are two, the even one. -/
structure IsRounding (count : ℕ) (x : ℚ) (d : Decimal) : Prop where
  hasDigits : d.HasDigits count
  nearest : ∀ other : Decimal, other.HasDigits count → |x - d.value| ≤ |x - other.value|
  even : ∀ other : Decimal, other.HasDigits count → |x - other.value| = |x - d.value| →
    other ≠ d → d.coefficient % 2 = 0

/-- The next number of so many digits. -/
def next (count : ℕ) (d : Decimal) : Decimal :=
  if d.coefficient + 1 < 10 ^ count then ⟨d.coefficient + 1, d.exponent⟩
  else ⟨10 ^ (count - 1), d.exponent + 1⟩

/-- The first digits of `x`: the greatest number of so many digits that is not above it. -/
structure IsTruncation (count : ℕ) (x : ℚ) (d : Decimal) : Prop where
  hasDigits : d.HasDigits count
  le : d.value ≤ x
  lt : x < (d.next count).value

variable {count : ℕ} {x : ℚ} {d other low : Decimal}

theorem HasDigits.count_pos (digits : d.HasDigits count) : 0 < count := by
  rcases Nat.eq_zero_or_pos count with rfl | positive
  · exact absurd digits.2 digits.1.not_gt
  · exact positive

theorem HasDigits.bounds (digits : d.HasDigits count) :
    10 ^ ((count : ℤ) - 1 + d.exponent) ≤ d.value ∧ d.value < 10 ^ ((count : ℤ) + d.exponent) := by
  have unit : (0 : ℚ) < 10 ^ d.exponent := zpow_pos (by norm_num) _
  have positive := digits.count_pos
  have less : (count : ℤ) - 1 = ((count - 1 : ℕ) : ℤ) := by omega
  have least : ((10 ^ (count - 1) : ℕ) : ℚ) ≤ d.coefficient := Nat.cast_le.mpr digits.1
  have greatest : (d.coefficient : ℚ) < ((10 ^ count : ℕ) : ℚ) := Nat.cast_lt.mpr digits.2
  rw [zpow_add₀ (by norm_num), zpow_add₀ (by norm_num), less, zpow_natCast, zpow_natCast, value]
  push_cast at least greatest
  exact ⟨mul_le_mul_of_nonneg_right least unit.le, mul_lt_mul_of_pos_right greatest unit⟩

theorem HasDigits.value_lt_of_exponent_lt (digits : d.HasDigits count)
    (digitsOther : other.HasDigits count) (less : d.exponent < other.exponent) :
    d.value < other.value :=
  calc d.value < 10 ^ ((count : ℤ) + d.exponent) := digits.bounds.2
    _ ≤ 10 ^ ((count : ℤ) - 1 + other.exponent) :=
      zpow_le_zpow_right₀ (by norm_num) (by omega)
    _ ≤ other.value := digitsOther.bounds.1

/-- Numbers of so many digits are given by their value. -/
theorem HasDigits.eq_of_value_eq (digits : d.HasDigits count)
    (digitsOther : other.HasDigits count) (same : d.value = other.value) : d = other := by
  have exponents : d.exponent = other.exponent := by
    rcases lt_trichotomy d.exponent other.exponent with less | equal | greater
    · exact absurd same (digits.value_lt_of_exponent_lt digitsOther less).ne
    · exact equal
    · exact absurd same (digitsOther.value_lt_of_exponent_lt digits greater).ne'
  have unit : (10 : ℚ) ^ other.exponent ≠ 0 := zpow_ne_zero _ (by norm_num)
  have coefficients : d.coefficient = other.coefficient := by
    rw [value, value, exponents] at same
    exact_mod_cast mul_right_cancel₀ unit same
  cases d
  cases other
  congr

/-! ## The next number -/

theorem HasDigits.next (digits : d.HasDigits count) : (d.next count).HasDigits count := by
  unfold Decimal.next
  split
  next inside => exact ⟨digits.1.trans (Nat.le_succ _), inside⟩
  next => exact ⟨le_refl _, Nat.pow_lt_pow_right (by decide) (Nat.pred_lt digits.count_pos.ne')⟩

theorem HasDigits.value_next (digits : d.HasDigits count) :
    (d.next count).value = d.value + 10 ^ d.exponent := by
  unfold Decimal.next
  split
  · simp only [value]
    push_cast
    ring
  next outside =>
    have last : d.coefficient + 1 = 10 * 10 ^ (count - 1) := by
      rw [← Nat.pow_succ', Nat.succ_eq_add_one, Nat.sub_add_cancel digits.count_pos]
      have below := digits.2
      omega
    have last : (d.coefficient : ℚ) + 1 = 10 * 10 ^ (count - 1) := by exact_mod_cast last
    simp only [value, zpow_add_one₀ (show (10 : ℚ) ≠ 0 by norm_num)]
    push_cast
    linear_combination -(10 : ℚ) ^ d.exponent * last

/-- Of a number and the next one, only one is even. -/
theorem HasDigits.coefficient_next (digits : d.HasDigits count) (two : 2 ≤ count) :
    (d.next count).coefficient % 2 = (d.coefficient + 1) % 2 := by
  unfold Decimal.next
  split
  · rfl
  next outside =>
    have below := digits.2
    have last : d.coefficient + 1 = 10 ^ count := by omega
    obtain ⟨more, rfl⟩ := Nat.exists_eq_add_of_le' two
    show 10 ^ (more + 1) % 2 = (d.coefficient + 1) % 2
    rw [last, Nat.pow_succ, Nat.pow_succ]
    omega

/-- No number of so many digits is between a number and the next one. -/
theorem HasDigits.le_or_next_le (digits : d.HasDigits count)
    (digitsOther : other.HasDigits count) :
    other.value ≤ d.value ∨ (d.next count).value ≤ other.value := by
  rcases lt_or_ge other.exponent d.exponent with less | ge
  · exact .inl (digitsOther.value_lt_of_exponent_lt digits less).le
  -- both are multiples of one power of ten
  obtain ⟨more, exponent⟩ := Int.le.dest ge
  have unit : (0 : ℚ) < 10 ^ d.exponent := zpow_pos (by norm_num) _
  have multiple : other.value = (other.coefficient * 10 ^ more : ℕ) * 10 ^ d.exponent := by
    rw [value, ← exponent, zpow_add₀ (by norm_num), zpow_natCast]
    push_cast
    ring
  rw [digits.value_next, multiple, value, ← add_one_mul, mul_le_mul_iff_left₀ unit,
    mul_le_mul_iff_left₀ unit, Nat.cast_le, ← Nat.cast_add_one, Nat.cast_le]
  exact (Nat.lt_or_ge _ _).symm

/-! ## Rounding -/

/-- A number is rounded to the nearer of two neighbours, or to the even one, if all numbers of so
many digits but these two are further away than one of them. -/
theorem isRounding_of_closer {neighbour : Decimal} (digits : d.HasDigits count)
    (closer : ∀ other : Decimal, other.HasDigits count →
      (other = d ∨ |x - d.value| < |x - other.value|) ∨
        (other = neighbour ∨ |x - neighbour.value| < |x - other.value|))
    (near : |x - d.value| < |x - neighbour.value| ∨
      |x - d.value| = |x - neighbour.value| ∧ d.coefficient % 2 = 0) : d.IsRounding count x := by
  have le : |x - d.value| ≤ |x - neighbour.value| := near.elim le_of_lt fun tie => tie.1.le
  refine ⟨digits, fun other digitsOther => ?_, fun other digitsOther same differs => ?_⟩
  · rcases closer other digitsOther with (rfl | further) | (rfl | further)
    · exact le_refl _
    · exact further.le
    · exact le
    · exact le.trans further.le
  · rcases closer other digitsOther with (rfl | further) | (rfl | further)
    · exact absurd rfl differs
    · exact absurd same further.ne'
    · rcases near with nearer | ⟨-, even⟩
      · exact absurd same nearer.ne'
      · exact even
    · exact absurd same (le.trans_lt further).ne'

namespace IsTruncation

/-- All numbers of so many digits but two are further away than one of these. -/
theorem closer (truncation : low.IsTruncation count x) (other : Decimal)
    (digits : other.HasDigits count) :
    (other = low ∨ |x - low.value| < |x - other.value|) ∨
      (other = low.next count ∨ |x - (low.next count).value| < |x - other.value|) := by
  have below := truncation.le
  have above := truncation.lt
  rcases truncation.hasDigits.le_or_next_le digits with less | greater
  · refine .inl (or_iff_not_imp_left.mpr fun differs => ?_)
    have strict : other.value < low.value := lt_of_le_of_ne less fun same =>
      differs (digits.eq_of_value_eq truncation.hasDigits same)
    rw [abs_of_nonneg (by linarith), abs_of_nonneg (by linarith)]
    exact sub_lt_sub_left strict x
  · refine .inr (or_iff_not_imp_left.mpr fun differs => ?_)
    have strict : (low.next count).value < other.value := lt_of_le_of_ne greater fun same =>
      differs (digits.eq_of_value_eq truncation.hasDigits.next same.symm)
    rw [abs_sub_comm, abs_sub_comm x, abs_of_nonneg (by linarith), abs_of_nonneg (by linarith)]
    exact sub_lt_sub_right strict x

/-- A number is rounded down if that is nearer, or as near and even. -/
theorem isRounding (truncation : low.IsTruncation count x)
    (near : |x - low.value| < |x - (low.next count).value| ∨
      |x - low.value| = |x - (low.next count).value| ∧ low.coefficient % 2 = 0) :
    low.IsRounding count x :=
  isRounding_of_closer truncation.hasDigits truncation.closer near

/-- A number is rounded up if that is nearer, or as near and even. -/
theorem isRounding_next (truncation : low.IsTruncation count x)
    (near : |x - (low.next count).value| < |x - low.value| ∨
      |x - (low.next count).value| = |x - low.value| ∧ (low.next count).coefficient % 2 = 0) :
    (low.next count).IsRounding count x :=
  isRounding_of_closer truncation.hasDigits.next
    (fun other digits => (truncation.closer other digits).symm) near

end IsTruncation

/-- A number is rounded to its first digits or to the next number. -/
theorem IsRounding.eq_or_eq (rounding : d.IsRounding count x)
    (truncation : low.IsTruncation count x) : d = low ∨ d = low.next count := by
  rcases truncation.closer d rounding.hasDigits with (same | further) | (same | further)
  · exact .inl same
  · exact absurd (rounding.nearest _ truncation.hasDigits) further.not_ge
  · exact .inr same
  · exact absurd (rounding.nearest _ truncation.hasDigits.next) further.not_ge

/-- A number is rounded in one way only. -/
theorem IsRounding.unique (truncation : low.IsTruncation count x) (two : 2 ≤ count)
    (rounding : d.IsRounding count x) (roundingOther : other.IsRounding count x) : d = other := by
  by_contra differs
  -- two roundings are equally near, so both are even, and they are neighbours
  have same : |x - other.value| = |x - d.value| :=
    le_antisymm (roundingOther.nearest d rounding.hasDigits)
      (rounding.nearest other roundingOther.hasDigits)
  have even := rounding.even other roundingOther.hasDigits same (Ne.symm differs)
  have evenOther := roundingOther.even d rounding.hasDigits same.symm differs
  have parity := truncation.hasDigits.coefficient_next two
  rcases rounding.eq_or_eq truncation with rfl | rfl <;>
    rcases roundingOther.eq_or_eq truncation with rfl | rfl
  · exact differs rfl
  · omega
  · omega
  · exact differs rfl

/-! ## Digits -/

theorem HasDigits.coefficient_ne_zero (digits : d.HasDigits count) : d.coefficient ≠ 0 :=
  ((Nat.pow_pos (by decide)).trans_le digits.1).ne'

theorem hasDigits_length (notZero : d.coefficient ≠ 0) : d.HasDigits d.digits.length := by
  have positive : 0 < d.digits.length := List.length_pos_iff.mpr Nat.toDigits_ne_nil
  refine ⟨?_, (Nat.length_toDigits_le_iff (by decide) positive).mp (le_refl _)⟩
  rcases Nat.eq_or_lt_of_le positive with one | more
  · rw [← one]
    exact Nat.one_le_iff_ne_zero.mpr notZero
  · by_contra less
    have fewer := (Nat.length_toDigits_le_iff (by decide) (Nat.sub_pos_of_lt more)).mpr
      (Nat.not_le.mp less)
    exact absurd fewer (Nat.sub_lt positive Nat.one_pos).not_ge

theorem toDigits_mul_pow {n : ℕ} (notZero : n ≠ 0) (zeros : ℕ) :
    Nat.toDigits 10 (n * 10 ^ zeros) = Nat.toDigits 10 n ++ List.replicate zeros '0' := by
  induction zeros with
  | zero => rw [Nat.pow_zero, Nat.mul_one, List.replicate_zero, List.append_nil]
  | succ zeros ih =>
    have shifted : n * 10 ^ (zeros + 1) = 10 * (n * 10 ^ zeros) + 0 := by
      rw [Nat.pow_succ]
      ring
    have positive : 0 < n * 10 ^ zeros :=
      Nat.mul_pos (Nat.pos_of_ne_zero notZero) (Nat.pow_pos (by decide))
    rw [shifted, ← Nat.toDigits_append_toDigits (by decide) positive (by decide), ih,
      List.append_assoc, List.replicate_succ', Nat.toDigits_zero]

/-- The digits are those of the number without zeros at the end, and the zeros. -/
theorem exists_digits_eq_normalize (notZero : d.coefficient ≠ 0) :
    ∃ zeros, d.digits = d.normalize.digits ++ List.replicate zeros '0' ∧
      d.normalize.exponent = d.exponent + zeros := by
  obtain ⟨zeros, coefficient, exponent, ends⟩ := d.coefficient_eq_normalize
  refine ⟨zeros, ?_, exponent⟩
  have front : d.normalize.coefficient ≠ 0 := fun zero => ends notZero (by rw [zero])
  rw [digits, coefficient, toDigits_mul_pow front, digits]

theorem magnitude_normalize (notZero : d.coefficient ≠ 0) :
    d.normalize.magnitude = d.magnitude := by
  obtain ⟨zeros, digits, exponent⟩ := exists_digits_eq_normalize notZero
  rw [magnitude, magnitude, exponent, digits, List.length_append, List.length_replicate]
  push_cast
  ring

theorem getLast?_toDigits_ne_zero {n : ℕ} (ends : n % 10 ≠ 0) :
    (Nat.toDigits 10 n).getLast? ≠ some '0' := by
  have all : ∀ n < 10, n ≠ 0 → Nat.digitChar n ≠ '0' := by decide
  have last : (Nat.toDigits 10 n).getLast? = some (Nat.digitChar (n % 10)) := by
    rw [Nat.toDigits_eq_if (by decide)]
    split
    next small =>
      rw [Nat.mod_eq_of_lt small]
      rfl
    next => exact List.getLast?_concat
  rw [last]
  exact fun zero => all _ (Nat.mod_lt _ (by decide)) ends (Option.some.inj zero)

/-! ## The rounded number -/

/-- How far a number is from its first digits and from the next number. -/
theorem value_div_add_mod (d : Decimal) (dropped : ℕ) :
    let low : Decimal := ⟨d.coefficient / 10 ^ dropped, d.exponent + dropped⟩
    d.value - low.value = (d.coefficient % 10 ^ dropped : ℕ) * 10 ^ d.exponent ∧
      low.value + 10 ^ low.exponent - d.value =
        (((10 ^ dropped : ℕ) : ℚ) - (d.coefficient % 10 ^ dropped : ℕ)) * 10 ^ d.exponent := by
  have split : ((10 ^ dropped : ℕ) : ℚ) * (d.coefficient / 10 ^ dropped : ℕ) +
      (d.coefficient % 10 ^ dropped : ℕ) = d.coefficient := by
    exact_mod_cast Nat.div_add_mod d.coefficient (10 ^ dropped)
  have shift : (10 : ℚ) ^ (d.exponent + dropped) = (10 ^ dropped : ℕ) * 10 ^ d.exponent := by
    rw [zpow_add₀ (by norm_num), zpow_natCast, mul_comm]
    push_cast
    rfl
  simp only [value, shift]
  constructor
  · linear_combination -(10 : ℚ) ^ d.exponent * split
  · linear_combination (10 : ℚ) ^ d.exponent * split

/-- A number that has no more digits than the count gets zeros at the end. -/
theorem exists_isTruncation_of_length_le (notZero : d.coefficient ≠ 0)
    (few : d.digits.length ≤ count) :
    ∃ padded : Decimal, padded.IsTruncation count d.value ∧ padded.value = d.value := by
  obtain ⟨more, rfl⟩ := Nat.exists_eq_add_of_le few
  have all := hasDigits_length notZero
  let padded : Decimal := ⟨d.coefficient * 10 ^ more, d.exponent - more⟩
  have same : padded.value = d.value := by
    simp only [padded, value, zpow_sub₀ (show (10 : ℚ) ≠ 0 by norm_num), zpow_natCast]
    push_cast
    field_simp
  have digits : padded.HasDigits (d.digits.length + more) := by
    have less : d.digits.length + more - 1 = d.digits.length - 1 + more :=
      Nat.sub_add_comm all.count_pos
    refine ⟨?_, ?_⟩
    · rw [less, Nat.pow_add]
      exact Nat.mul_le_mul_right _ all.1
    · rw [Nat.pow_add]
      exact Nat.mul_lt_mul_of_pos_right all.2 (Nat.pow_pos (by decide))
  refine ⟨padded, ⟨digits, same.le, ?_⟩, same⟩
  rw [digits.value_next, same]
  exact lt_add_of_pos_right _ (zpow_pos (by norm_num) _)

/-- A number that has more digits than the count loses the last ones. -/
theorem isTruncation_div (notZero : d.coefficient ≠ 0) (positive : 0 < count) {dropped : ℕ}
    (length : d.digits.length = count + dropped) :
    IsTruncation count d.value ⟨d.coefficient / 10 ^ dropped, d.exponent + dropped⟩ := by
  have all := hasDigits_length notZero
  rw [length] at all
  have digits : HasDigits count ⟨d.coefficient / 10 ^ dropped, d.exponent + dropped⟩ := by
    have less : count + dropped - 1 = count - 1 + dropped := Nat.sub_add_comm positive
    refine ⟨(Nat.le_div_iff_mul_le (Nat.pow_pos (by decide))).mpr ?_,
      (Nat.div_lt_iff_lt_mul (Nat.pow_pos (by decide))).mpr ?_⟩
    · rw [← Nat.pow_add, ← less]
      exact all.1
    · rw [← Nat.pow_add]
      exact all.2
  obtain ⟨below, above⟩ := value_div_add_mod d dropped
  have unit : (0 : ℚ) < 10 ^ d.exponent := zpow_pos (by norm_num) _
  have rest : ((d.coefficient % 10 ^ dropped : ℕ) : ℚ) < (10 ^ dropped : ℕ) :=
    Nat.cast_lt.mpr (Nat.mod_lt _ (Nat.pow_pos (by decide)))
  refine ⟨digits, ?_, ?_⟩
  · exact sub_nonneg.mp (below ▸ mul_nonneg (Nat.cast_nonneg _) unit.le)
  · rw [digits.value_next]
    exact sub_pos.mp (above ▸ mul_pos (sub_pos.mpr rest) unit)

/-- The nearer neighbour of a number is its rounding, or else the even one. -/
theorem IsTruncation.exists_isRounding (truncation : low.IsTruncation count x) (two : 2 ≤ count)
    {rest unit : ℕ} {scale : ℚ} (positive : 0 < scale) (below : |x - low.value| = rest * scale)
    (above : |x - (low.next count).value| = ((unit : ℚ) - rest) * scale) :
    ∃ rounding : Decimal, rounding.IsRounding count x ∧ rounding.value =
      (Decimal.mk (Tie.toEven.nearest low.coefficient rest unit) low.exponent).value := by
  have next : (low.next count).value = (Decimal.mk (low.coefficient + 1) low.exponent).value := by
    rw [truncation.hasDigits.value_next, value, value]
    push_cast
    ring
  have parity := truncation.hasDigits.coefficient_next two
  rcases lt_trichotomy (2 * rest) unit with less | equal | greater
  · refine ⟨low, truncation.isRounding (.inl ?_), ?_⟩
    · have less : (2 * rest : ℚ) < unit := by exact_mod_cast less
      rw [below, above]
      exact mul_lt_mul_of_pos_right (by linarith) positive
    · rw [Tie.nearest, compare_lt_iff_lt.mpr less]
  · have tie : |x - low.value| = |x - (low.next count).value| := by
      have equal : (2 * rest : ℚ) = unit := by exact_mod_cast equal
      rw [below, above, ← equal]
      ring
    rw [Tie.nearest, compare_eq_iff_eq.mpr equal]
    rcases Nat.mod_two_eq_zero_or_one low.coefficient with even | odd
    · exact ⟨low, truncation.isRounding (.inr ⟨tie, even⟩), by simp only [even, Nat.add_zero]⟩
    · exact ⟨low.next count, truncation.isRounding_next (.inr ⟨tie.symm, by omega⟩),
        by simp only [odd, next]⟩
  · refine ⟨low.next count, truncation.isRounding_next (.inl ?_), ?_⟩
    · have greater : (unit : ℚ) < 2 * rest := by exact_mod_cast greater
      rw [below, above]
      exact mul_lt_mul_of_pos_right (by linarith) positive
    · rw [Tie.nearest, compare_gt_iff_gt.mpr greater, next]

/-- The number that `round` finds has the value of the rounding, which is unique. -/
theorem exists_isRounding_round (two : 2 ≤ count) (notZero : d.coefficient ≠ 0) :
    ∃ rounding : Decimal, rounding.IsRounding count d.value ∧
      (∀ other : Decimal, other.IsRounding count d.value → other = rounding) ∧
      rounding.value = (d.round count).value := by
  rcases le_or_gt d.digits.length count with few | many
  · obtain ⟨padded, truncation, same⟩ := exists_isTruncation_of_length_le notZero few
    have rounding : padded.IsRounding count d.value := by
      refine truncation.isRounding (.inl ?_)
      rw [same, sub_self, abs_zero]
      exact abs_pos.mpr (sub_ne_zero.mpr truncation.lt.ne)
    have whole : d.round count = d := by
      rw [round, Nat.sub_eq_zero_of_le few]
      show Decimal.mk (Tie.toEven.nearest (d.coefficient / 1) (d.coefficient % 1) 1)
        (d.exponent + (0 : ℕ)) = d
      rw [Nat.div_one, Nat.mod_one, Nat.cast_zero, add_zero]
      rfl
    exact ⟨padded, rounding, fun other roundingOther =>
      roundingOther.unique truncation two rounding, same.trans (congrArg value whole.symm)⟩
  · obtain ⟨dropped, length⟩ := Nat.exists_eq_add_of_le many.le
    have truncation := isTruncation_div notZero (by omega) length
    obtain ⟨below, above⟩ := value_div_add_mod d dropped
    rw [← truncation.hasDigits.value_next] at above
    rw [← abs_of_nonneg (sub_nonneg.mpr truncation.le)] at below
    rw [← abs_of_pos (sub_pos.mpr truncation.lt), abs_sub_comm] at above
    obtain ⟨rounding, isRounding, same⟩ :=
      truncation.exists_isRounding two (zpow_pos (by norm_num) d.exponent) below above
    refine ⟨rounding, isRounding, fun other roundingOther =>
      roundingOther.unique truncation two isRounding, same.trans ?_⟩
    rw [round, length, Nat.add_sub_cancel_left]
    rfl

end ArrowExpr.Decimal
