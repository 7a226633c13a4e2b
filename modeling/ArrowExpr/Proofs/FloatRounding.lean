import ArrowExpr.Proofs.FloatModel
/-!
# Exact floats are not rounded

A decimal number whose value is a float in canonical form becomes that float (`ofScientific_exact`).
-/

namespace ArrowExpr

namespace FloatParts

open Float.Model Float.Model.UnpackedFloat

variable {mantissa : Nat} {exponent : Int}

/-- Shifting out zeros loses nothing. -/
theorem shiftRight_exact (mantissa shift : Nat) :
    ExtendedMantissa.mk (mantissa * 2 ^ shift) false false >>> shift =
      ExtendedMantissa.mk mantissa false false := by
  show shift.repeat ExtendedMantissa.shiftRightOne _ = _
  induction shift generalizing mantissa with
  | zero => simp [Nat.repeat]
  | succ shift ih =>
    have double : mantissa * 2 ^ (shift + 1) = mantissa * 2 * 2 ^ shift := by
      rw [Nat.pow_succ, Nat.mul_right_comm, Nat.mul_assoc]
    rw [Nat.repeat, double, ih]
    simp [ExtendedMantissa.shiftRightOne]

theorem log2_mul_two_pow (positive : 0 < mantissa) (shift : Nat) :
    (mantissa * 2 ^ shift).log2 = mantissa.log2 + shift := by
  induction shift with
  | zero => simp
  | succ shift ih =>
    rw [Nat.pow_succ, ← Nat.mul_assoc, Nat.mul_comm, Nat.log2_two_mul, ih]
    · rfl
    · exact Nat.ne_of_gt (Nat.mul_pos positive (Nat.two_pow_pos shift))

theorem shiftToTargetExponent_exact (canonical : Canonical mantissa exponent) (shift : Nat) :
    shiftToTargetExponent .binary64 (mantissa * 2 ^ shift) (exponent - shift) .exact =
      (⟨mantissa, false, false⟩, exponent) := by
  have total : totalExponent (mantissa * 2 ^ shift) (exponent - shift) =
      totalExponent mantissa exponent := by
    rw [totalExponent, totalExponent, log2_mul_two_pow canonical.positive]
    omega
  have amount : (exponent - (exponent - shift)).toNat = shift := by omega
  have back : exponent - shift + shift = exponent := by omega
  simp only [shiftToTargetExponent, shiftToExponent, total, canonical.targetExponent_eq, amount,
    ExtendedMantissa.ofMantissaAndAccuracy, shiftRight_exact, back]

/-- A number that is a float stays as it is, in whichever form. -/
theorem roundWithAccuracy_exact (canonical : Canonical mantissa exponent) (sign : Sign)
    (shift : Nat) :
    roundWithAccuracy .binary64 sign (mantissa * 2 ^ shift) (exponent - shift) .exact =
      .finite sign mantissa exponent canonical.positive := by
  have again := shiftToTargetExponent_exact canonical 0
  simp only [Nat.pow_zero, Nat.mul_one, Int.natCast_zero, Int.sub_zero] at again
  have rounded : ExtendedMantissa.roundedMantissa ⟨mantissa, false, false⟩ = mantissa := rfl
  have notZero : mantissa ≠ 0 := Nat.ne_of_gt canonical.positive
  simp only [roundWithAccuracy, shiftToTargetExponent_exact canonical shift, rounded, again,
    dif_neg notZero]

/-! ## Decimal numbers that are floats -/

variable {coefficient : Nat} {power : Int}

/-- The equation between a decimal number and a float, without negative exponents. -/
theorem cross_eq (same : (coefficient : ℚ) * 10 ^ power = mantissa * 2 ^ exponent)
    (raised lowered : Nat) (split : exponent = raised - lowered) :
    coefficient * 10 ^ power.toNat * 2 ^ lowered =
      mantissa * 2 ^ raised * 10 ^ (-power).toNat := by
  have powers : (10 : ℚ) ^ power * 10 ^ (-power).toNat = 10 ^ power.toNat := by
    rw [← zpow_natCast, ← zpow_natCast, ← zpow_add₀ (by norm_num)]
    congr 1
    omega
  have exponents : (2 : ℚ) ^ exponent * 2 ^ lowered = 2 ^ raised := by
    rw [← zpow_natCast, ← zpow_natCast, ← zpow_add₀ (by norm_num)]
    congr 1
    omega
  have equal : (coefficient : ℚ) * 10 ^ power.toNat * 2 ^ lowered =
      mantissa * 2 ^ raised * 10 ^ (-power).toNat := by
    calc (coefficient : ℚ) * 10 ^ power.toNat * 2 ^ lowered
        = coefficient * 10 ^ power * 10 ^ (-power).toNat * 2 ^ lowered := by rw [← powers]; ring
      _ = mantissa * 2 ^ exponent * 10 ^ (-power).toNat * 2 ^ lowered := by rw [same]
      _ = mantissa * 2 ^ raised * 10 ^ (-power).toNat := by rw [← exponents]; ring
  exact_mod_cast equal

/-- A float is not out of the range of powers of ten. -/
theorem power_le (canonical : Canonical mantissa exponent) (positive : 0 < coefficient)
    (same : (coefficient : ℚ) * 10 ^ power = mantissa * 2 ^ exponent) : power < 1024 := by
  have cross := cross_eq same exponent.toNat (-exponent).toNat (by omega)
  have greatest := canonical.greatest
  -- a larger power alone has more binary digits than the mantissa and its exponent together
  refine Int.lt_of_not_ge fun large => ?_
  have noPower : (-power).toNat = 0 := by omega
  rw [noPower, Nat.pow_zero, Nat.mul_one] at cross
  have less : 53 + exponent.toNat ≤ power.toNat := by omega
  have lower : 2 ^ (53 + exponent.toNat) ≤
      coefficient * 10 ^ power.toNat * 2 ^ (-exponent).toNat := by
    calc 2 ^ (53 + exponent.toNat) ≤ 2 ^ power.toNat := Nat.pow_le_pow_right (by decide) less
      _ ≤ 10 ^ power.toNat := Nat.pow_le_pow_left (by decide) _
      _ ≤ coefficient * 10 ^ power.toNat := Nat.le_mul_of_pos_left _ positive
      _ ≤ _ := Nat.le_mul_of_pos_right _ (Nat.two_pow_pos _)
  have upper : mantissa * 2 ^ exponent.toNat < 2 ^ (53 + exponent.toNat) := by
    rw [Nat.pow_add]
    exact Nat.mul_lt_mul_of_pos_right canonical.small (Nat.two_pow_pos _)
  exact absurd lower (Nat.not_le.mpr (cross ▸ upper))

theorem lt_power (canonical : Canonical mantissa exponent)
    (same : (coefficient : ℚ) * 10 ^ power = mantissa * 2 ^ exponent) :
    -(1075 + coefficient.log2 : Int) < power := by
  have cross := cross_eq same exponent.toNat (-exponent).toNat (by omega)
  have least := canonical.least
  -- below this power the denominator has more binary digits than the coefficient can make up for
  refine Int.lt_of_not_ge fun small => ?_
  have noPower : power.toNat = 0 := by omega
  rw [noPower, Nat.pow_zero, Nat.mul_one] at cross
  have lower : 2 ^ (1075 + coefficient.log2) ≤
      mantissa * 2 ^ exponent.toNat * 10 ^ (-power).toNat := by
    calc 2 ^ (1075 + coefficient.log2) ≤ 2 ^ (-power).toNat :=
          Nat.pow_le_pow_right (by decide) (by omega)
      _ ≤ 10 ^ (-power).toNat := Nat.pow_le_pow_left (by decide) _
      _ ≤ mantissa * 2 ^ exponent.toNat * 10 ^ (-power).toNat :=
          Nat.le_mul_of_pos_left _ (Nat.mul_pos canonical.positive (Nat.two_pow_pos _))
  have upper : coefficient * 2 ^ (-exponent).toNat < 2 ^ (1075 + coefficient.log2) := by
    calc coefficient * 2 ^ (-exponent).toNat
        < 2 ^ (coefficient.log2 + 1) * 2 ^ (-exponent).toNat :=
          Nat.mul_lt_mul_of_pos_right Nat.lt_log2_self (Nat.two_pow_pos _)
      _ = 2 ^ (coefficient.log2 + 1 + (-exponent).toNat) := (Nat.pow_add ..).symm
      _ ≤ 2 ^ (1075 + coefficient.log2) := Nat.pow_le_pow_right (by decide) (by omega)
  exact absurd lower (Nat.not_le.mpr (cross ▸ upper))

theorem log2_mul_le {a b : Nat} (positive : 0 < a) (positive' : 0 < b) :
    (a * b).log2 ≤ a.log2 + b.log2 + 1 := by
  have product : a * b < 2 ^ (a.log2 + b.log2 + 2) := by
    calc a * b < 2 ^ (a.log2 + 1) * 2 ^ (b.log2 + 1) :=
          Nat.mul_lt_mul'' Nat.lt_log2_self Nat.lt_log2_self
      _ = 2 ^ (a.log2 + b.log2 + 2) := by
          rw [← Nat.pow_add]
          congr 1
          omega
  have less := (Nat.log2_lt (Nat.ne_of_gt (Nat.mul_pos positive positive'))).mpr product
  omega

/-- The product of a coefficient and a power of ten is not rounded if it is a float. -/
theorem mul_exact (canonical : Canonical mantissa exponent) (nonneg : 0 ≤ power)
    (positive : 0 < coefficient)
    (same : (coefficient : ℚ) * 10 ^ power = mantissa * 2 ^ exponent) :
    roundWithAccuracy .binary64 .positive ((coefficient <<< 53) * 10 ^ power.toNat) (-53) .exact =
      .finite .positive mantissa exponent canonical.positive := by
  have noPower : (-power).toNat = 0 := by omega
  -- a whole number is at least one, so its last binary digit is not below `2 ^ -53`
  have above : -53 ≤ exponent := by
    refine Int.le_of_not_gt fun below => ?_
    have cross := cross_eq same 0 (-exponent).toNat (by omega)
    rw [noPower, Nat.pow_zero, Nat.mul_one, Nat.pow_zero, Nat.mul_one] at cross
    have large : 2 ^ 53 ≤ mantissa := by
      calc 2 ^ 53 ≤ 2 ^ (-exponent).toNat := Nat.pow_le_pow_right (by decide) (by omega)
        _ ≤ coefficient * 10 ^ power.toNat * 2 ^ (-exponent).toNat :=
            Nat.le_mul_of_pos_left _ (Nat.mul_pos positive (Nat.pow_pos (by decide)))
        _ = mantissa := cross
    exact absurd canonical.small (Nat.not_lt.mpr large)
  have cross := cross_eq same (exponent + 53).toNat 53 (by omega)
  rw [noPower, Nat.pow_zero, Nat.mul_one] at cross
  have product : (coefficient <<< 53) * 10 ^ power.toNat =
      mantissa * 2 ^ (exponent + 53).toNat := by
    rw [Nat.shiftLeft_eq, Nat.mul_right_comm, cross]
  have lowered : (-53 : Int) = exponent - (exponent + 53).toNat := by omega
  rw [product, lowered]
  exact roundWithAccuracy_exact canonical .positive _

/-- The exponent that a quotient is computed at is not above that of the float. -/
theorem targetExponent_quotient_le (canonical : Canonical mantissa exponent) (negative : power < 0)
    (positive : 0 < coefficient) (fraction : exponent < 0)
    (same : (coefficient : ℚ) * 10 ^ power = mantissa * 2 ^ exponent) :
    Format.binary64.targetExponent
      (totalExponent coefficient 0 - totalExponent (10 ^ (-power).toNat) 0) ≤ exponent := by
  have target := canonical.targetExponent_eq
  have cross := cross_eq same 0 (-exponent).toNat (by omega)
  have noPower : power.toNat = 0 := by omega
  rw [noPower, Nat.pow_zero, Nat.mul_one, Nat.pow_zero, Nat.mul_one] at cross
  have digits := log2_mul_two_pow positive (-exponent).toNat
  have tenPower : 0 < 10 ^ (-power).toNat := Nat.pow_pos (by decide)
  have bound := log2_mul_le canonical.positive tenPower
  rw [cross] at digits
  rw [FloatParts.targetExponent_eq, totalExponent] at target ⊢
  rw [totalExponent]
  omega

/-- The quotient of a coefficient and a power of ten is not rounded if it is a float. -/
theorem div_exact (canonical : Canonical mantissa exponent) (negative : power < 0)
    (positive : 0 < coefficient)
    (same : (coefficient : ℚ) * 10 ^ power = mantissa * 2 ^ exponent) :
    let (quotient, lowered, accuracy) :=
      divCore .binary64 coefficient 0 (10 ^ (-power).toNat) 0
    roundWithAccuracy .binary64 .positive quotient lowered accuracy =
      .finite .positive mantissa exponent canonical.positive := by
  let target := min (0 - 0) (Format.binary64.targetExponent
      (totalExponent coefficient 0 - totalExponent (10 ^ (-power).toNat) 0))
  have notPositive : target ≤ 0 := Int.min_le_left ..
  have below : target ≤ exponent := by
    by_cases fraction : exponent < 0
    · exact Int.le_trans (Int.min_le_right ..)
        (targetExponent_quotient_le canonical negative positive fraction same)
    · omega
  have noPower : power.toNat = 0 := by omega
  have cross := cross_eq same (exponent - target).toNat (0 - 0 - target).toNat (by omega)
  rw [noPower, Nat.pow_zero, Nat.mul_one, ← Nat.shiftLeft_eq] at cross
  have lowered : target = exponent - (exponent - target).toNat := by omega
  have exact := roundWithAccuracy_exact canonical .positive (exponent - target).toNat
  rw [← lowered] at exact
  show roundWithAccuracy .binary64 .positive
    ((coefficient <<< (0 - 0 - target).toNat) / 10 ^ (-power).toNat) target
    (accuracyOfFraction ((coefficient <<< (0 - 0 - target).toNat) % 10 ^ (-power).toNat) _) = _
  -- the power of ten divides the shifted coefficient, so nothing is left over to be rounded
  rw [cross, Nat.mul_div_cancel _ (Nat.pow_pos (by decide)), Nat.mul_mod_left]
  exact exact

/-- A decimal number that is a float in canonical form becomes that float. -/
theorem ofScientific_exact (canonical : Canonical mantissa exponent)
    (same : (coefficient : ℚ) * 10 ^ power = mantissa * 2 ^ exponent) :
    UnpackedFloat.ofScientific .binary64 coefficient power =
      .finite .positive mantissa exponent canonical.positive := by
  have positive : 0 < coefficient := by
    refine Nat.pos_of_ne_zero ?_
    rintro rfl
    have notZero : (0 : ℚ) < mantissa * 2 ^ exponent :=
      mul_pos (Nat.cast_pos.mpr canonical.positive) (zpow_pos (by norm_num) exponent)
    rw [Nat.cast_zero, zero_mul] at same
    exact notZero.ne same
  have notLarge : ¬power > 2 ^ 11 := by
    have := power_le canonical positive same
    omega
  have notSmall : ¬power < -((2 ^ 11 : Int) + coefficient.log2) := by
    have := lt_power canonical same
    omega
  unfold UnpackedFloat.ofScientific
  rw [dif_neg (Nat.ne_of_gt positive), if_neg notLarge, if_neg notSmall]
  split
  next nonneg => exact mul_exact canonical nonneg positive same
  next negative => exact div_exact canonical (Int.lt_of_not_ge negative) positive same

end FloatParts

end ArrowExpr
