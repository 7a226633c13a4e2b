import ArrowExpr.Operation
import ArrowExpr.Proofs.FloatRounding
/-!
# The order of floats

Every float but not-a-number has a place in one linear order, its `Rank`, and floats are compared by
rank (`compareFloats_eq`). So all that holds of a linear order holds of floats that have a rank.

An integer becomes a float of some rank, and a greater integer never becomes a float of a lower one,
though different integers may share a rank (`rankOfInt_mono`, `floatRank?_floatOfInt`).
-/

namespace ArrowExpr

namespace FloatParts

open Float.Model Float.Model.UnpackedFloat
open Float.Model.UnpackedFloat (Sign)

/-! ## Ranks -/

/-- A place in the order of floats: first the kind, then the exponent, then the mantissa. -/
abbrev Rank := ℤ ×ₗ ℤ ×ₗ ℤ

/-- The place of a float among all floats. The two zeros share one place, not-a-number has none. -/
def rank? : UnpackedFloat → Option Rank
  | .notANumber => none
  | .infinity .negative => some (toLex (-2, toLex (0, 0)))
  | .finite .negative mantissa exponent _ => some (toLex (-1, toLex (-exponent, -mantissa)))
  | .zero _ => some (toLex (0, toLex (0, 0)))
  | .finite .positive mantissa exponent _ => some (toLex (1, toLex (exponent, mantissa)))
  | .infinity .positive => some (toLex (2, toLex (0, 0)))

theorem compare_toLex {α β : Type} [LinearOrder α] [LinearOrder β] (a a' : α) (b b' : β) :
    compare (toLex (a, b)) (toLex (a', b')) = (compare a a').then (compare b b') := rfl

theorem compare_neg (a b : ℤ) : compare (-a) (-b) = (compare a b).swap := by
  have anti : StrictAnti fun n : ℤ => -n := fun _ _ => neg_lt_neg
  rw [← cmp_eq_compare, ← cmp_eq_compare, cmp_swap]
  exact anti.cmp_map_eq a b

theorem compare_natCast (a b : ℕ) : compare (a : ℤ) (b : ℤ) = compare a b := by
  rw [← cmp_eq_compare, ← cmp_eq_compare]
  exact Nat.strictMono_cast.cmp_map_eq a b

/-- Floats are compared by rank. -/
theorem compare_eq (x y : UnpackedFloat) :
    x.compare y = Option.map₂ compare (rank? x) (rank? y) := by
  rcases x with sign | _ | sign | ⟨sign, mantissa, exponent, positive⟩ <;>
    rcases y with sign' | _ | sign' | ⟨sign', mantissa', exponent', positive'⟩ <;>
    (try cases sign) <;> (try cases sign') <;> try rfl
  -- the kinds tell all but finite floats of one sign apart
  · simp only [UnpackedFloat.compare, rank?, Option.map₂_some_some, compare_toLex, compare_neg,
      compare_natCast, Ordering.swap_then]
    rfl
  · simp only [UnpackedFloat.compare, rank?, Option.map₂_some_some, compare_toLex,
      compare_natCast]
    rfl

theorem rank?_eq_none_iff {x : UnpackedFloat} : rank? x = none ↔ x.isNaN := by
  rcases x with sign | _ | sign | ⟨sign, mantissa, exponent, positive⟩ <;> (try cases sign) <;>
    simp [rank?, UnpackedFloat.isNaN]

/-! ## Rounding an integer -/

/-- A mantissa with its round bit and its sticky bit, as one number. -/
def extendedCode (m : ExtendedMantissa) : ℕ :=
  4 * m.mantissa + 2 * m.roundBit.toNat + m.stickyBit.toNat

theorem extendedCode_shiftRightOne (m : ExtendedMantissa) :
    extendedCode m.shiftRightOne =
      2 * m.mantissa + (m.roundBit || m.stickyBit).toNat := by
  obtain ⟨mantissa, round, sticky⟩ := m
  have split := Nat.div_add_mod mantissa 2
  rcases Nat.mod_two_eq_zero_or_one mantissa with even | odd
  · simp only [extendedCode, ExtendedMantissa.shiftRightOne, even]
    simp
    omega
  · simp only [extendedCode, ExtendedMantissa.shiftRightOne, odd]
    simp
    omega

theorem extendedCode_shiftRightOne_mono {m m' : ExtendedMantissa}
    (le : extendedCode m ≤ extendedCode m') :
    extendedCode m.shiftRightOne ≤ extendedCode m'.shiftRightOne := by
  rw [extendedCode_shiftRightOne, extendedCode_shiftRightOne]
  obtain ⟨mantissa, round, sticky⟩ := m
  obtain ⟨mantissa', round', sticky'⟩ := m'
  cases round <;> cases sticky <;> cases round' <;> cases sticky' <;>
    simp [extendedCode] at le ⊢ <;> omega

theorem roundedMantissa_mono {m m' : ExtendedMantissa} (le : extendedCode m ≤ extendedCode m') :
    m.roundedMantissa ≤ m'.roundedMantissa := by
  obtain ⟨mantissa, round, sticky⟩ := m
  obtain ⟨mantissa', round', sticky'⟩ := m'
  cases round <;> cases sticky <;> cases round' <;> cases sticky' <;>
    simp [extendedCode, ExtendedMantissa.roundedMantissa, ExtendedMantissa.accuracy,
      Accuracy.roundToNearestEven] at le ⊢ <;> omega

theorem extendedCode_shiftRight_mono {m m' : ExtendedMantissa}
    (le : extendedCode m ≤ extendedCode m') (shift : ℕ) :
    extendedCode (m >>> shift) ≤ extendedCode (m' >>> shift) := by
  show extendedCode (shift.repeat ExtendedMantissa.shiftRightOne m) ≤
    extendedCode (shift.repeat ExtendedMantissa.shiftRightOne m')
  induction shift with
  | zero => exact le
  | succ shift ih => exact extendedCode_shiftRightOne_mono ih

theorem mantissa_shiftRight (m : ExtendedMantissa) (shift : ℕ) :
    (m >>> shift).mantissa = m.mantissa / 2 ^ shift := by
  show (shift.repeat ExtendedMantissa.shiftRightOne m).mantissa = _
  induction shift with
  | zero => simp [Nat.repeat]
  | succ shift ih =>
    rw [Nat.repeat, ExtendedMantissa.shiftRightOne, ih, Nat.div_div_eq_div_mul, Nat.pow_succ]

/-- The mantissa of a float near to a positive integer: its first 53 binary digits, rounded. -/
def roundedDigits (n : ℕ) : ℕ :=
  (ExtendedMantissa.mk (n * 2 ^ (52 - n.log2)) false false >>> (n.log2 - 52)).roundedMantissa

section RoundedDigits

variable {n n' : ℕ}

theorem roundedMantissa_bounds (m : ExtendedMantissa) :
    m.mantissa ≤ m.roundedMantissa ∧ m.roundedMantissa ≤ m.mantissa + 1 := by
  obtain ⟨mantissa, round, sticky⟩ := m
  cases round <;> cases sticky <;>
    simp [ExtendedMantissa.roundedMantissa, ExtendedMantissa.accuracy,
      Accuracy.roundToNearestEven]
  omega

theorem roundedDigits_bounds (positive : 0 < n) :
    2 ^ 52 ≤ roundedDigits n ∧ roundedDigits n ≤ 2 ^ 53 := by
  have lower : 2 ^ 52 * 2 ^ (n.log2 - 52) ≤ n * 2 ^ (52 - n.log2) := by
    have whole := Nat.mul_le_mul_right (2 ^ (52 - n.log2))
      (Nat.log2_self_le (Nat.ne_of_gt positive))
    refine Nat.le_trans (Nat.le_of_eq ?_) whole
    rw [← Nat.pow_add, ← Nat.pow_add]
    congr 1
    omega
  have upper : n * 2 ^ (52 - n.log2) < 2 ^ 53 * 2 ^ (n.log2 - 52) := by
    have whole := Nat.mul_lt_mul_of_pos_right (@Nat.lt_log2_self n)
      (Nat.two_pow_pos (52 - n.log2))
    refine Nat.lt_of_lt_of_le whole (Nat.le_of_eq ?_)
    rw [← Nat.pow_add, ← Nat.pow_add]
    congr 1
    omega
  have unit := Nat.two_pow_pos (n.log2 - 52)
  have bounds := roundedMantissa_bounds
    (ExtendedMantissa.mk (n * 2 ^ (52 - n.log2)) false false >>> (n.log2 - 52))
  rw [mantissa_shiftRight] at bounds
  have first := (Nat.le_div_iff_mul_le unit).mpr lower
  have last := (Nat.div_lt_iff_lt_mul unit).mpr upper
  exact ⟨Nat.le_trans first bounds.1, Nat.le_trans bounds.2 last⟩

/-- Of two integers with as many binary digits the greater one has no lower first digits. -/
theorem roundedDigits_mono (le : n ≤ n') (same : n.log2 = n'.log2) :
    roundedDigits n ≤ roundedDigits n' := by
  unfold roundedDigits
  rw [same]
  refine roundedMantissa_mono (extendedCode_shiftRight_mono ?_ _)
  have product := Nat.mul_le_mul_right (2 ^ (52 - n'.log2)) le
  simp only [extendedCode, Bool.toNat_false]
  omega

/-- The mantissa and the exponent of the float near to a positive integer. If rounding gives one digit
too many, the digits are `1` and zeros, and the exponent is one more. -/
def roundedParts (n : ℕ) : ℕ × ℤ :=
  if roundedDigits n < 2 ^ 53 then (roundedDigits n, n.log2 - 52) else (2 ^ 52, n.log2 - 51)

theorem roundedParts_canonical (positive : 0 < n) (small : n < 2 ^ 64) :
    Canonical (roundedParts n).1 (roundedParts n).2 := by
  have digits := (Nat.log2_lt (Nat.ne_of_gt positive)).mpr small
  have bounds := roundedDigits_bounds positive
  unfold roundedParts
  split
  · exact ⟨by omega, by omega, by omega, by omega, .inl bounds.1⟩
  · exact ⟨Nat.two_pow_pos 52, Nat.pow_lt_pow_succ (by decide), by omega, by omega,
      .inl (Nat.le_refl _)⟩

/-- A greater integer is rounded to no lower place. -/
theorem roundedParts_mono (positive : 0 < n) (le : n ≤ n') :
    toLex ((roundedParts n).2, ((roundedParts n).1 : ℤ)) ≤
      toLex ((roundedParts n').2, ((roundedParts n').1 : ℤ)) := by
  have bounds := roundedDigits_bounds positive
  have bounds' := roundedDigits_bounds (Nat.lt_of_lt_of_le positive le)
  have digits : n.log2 ≤ n'.log2 := by
    rw [Nat.le_log2 (by omega)]
    exact Nat.le_trans (Nat.log2_self_le (by omega)) le
  rw [Prod.Lex.toLex_le_toLex]
  unfold roundedParts
  by_cases same : n.log2 = n'.log2
  · have mono := roundedDigits_mono le same
    split <;> split <;> simp only <;> omega
  · split <;> split <;> simp only <;> omega

/-- The first shift of a rounding drops digits, down to the exponent that rounding aims at. -/
theorem shiftToTargetExponent_first (n : ℕ) (positive : 0 < n) (small : n < 2 ^ 64) :
    shiftToTargetExponent .binary64 (n * 2 ^ (52 - n.log2)) (-(52 - n.log2 : ℕ)) .exact =
      (ExtendedMantissa.mk (n * 2 ^ (52 - n.log2)) false false >>> (n.log2 - 52),
        (n.log2 : ℤ) - 52) := by
  have digits := (Nat.log2_lt (Nat.ne_of_gt positive)).mpr small
  have aim : Format.binary64.targetExponent
      (totalExponent (n * 2 ^ (52 - n.log2)) (-(52 - n.log2 : ℕ))) = n.log2 - 52 := by
    rw [FloatParts.targetExponent_eq, totalExponent, log2_mul_two_pow positive]
    omega
  have amount : ((n.log2 - 52 : ℤ) - -(52 - n.log2 : ℕ)).toNat = n.log2 - 52 := by omega
  have reached : -((52 - n.log2 : ℕ) : ℤ) + (n.log2 - 52 : ℕ) = n.log2 - 52 := by omega
  simp only [shiftToTargetExponent, shiftToExponent, aim, amount, reached]
  rfl

/-- The second shift takes care of a digit too many. -/
theorem shiftToTargetExponent_second (positive : 0 < n) (small : n < 2 ^ 64) :
    shiftToTargetExponent .binary64 (roundedDigits n) (n.log2 - 52) .exact =
      (⟨(roundedParts n).1, false, false⟩, (roundedParts n).2) := by
  have canonical := roundedParts_canonical positive small
  have bounds := roundedDigits_bounds positive
  unfold roundedParts at canonical ⊢
  split
  next fits =>
    rw [if_pos fits] at canonical
    have exact := shiftToTargetExponent_exact canonical 0
    rwa [Nat.pow_zero, Nat.mul_one, Int.natCast_zero, Int.sub_zero] at exact
  next full =>
    rw [if_neg full] at canonical
    have digits : roundedDigits n = 2 ^ 52 * 2 ^ 1 := by omega
    have exponent : (n.log2 - 52 : ℤ) = n.log2 - 51 - (1 : ℕ) := by omega
    rw [digits, exponent]
    exact shiftToTargetExponent_exact canonical 1

/-- A positive integer is rounded to its parts. -/
theorem round_natural (positive : 0 < n) (small : n < 2 ^ 64) (sign : Sign) :
    UnpackedFloat.round .binary64 sign n 0 =
      .finite sign (roundedParts n).1 (roundedParts n).2
        (roundedParts_canonical positive small).positive := by
  have digits := (Nat.log2_lt (Nat.ne_of_gt positive)).mpr small
  have aim : Format.binary64.targetExponent (totalExponent n 0) = n.log2 - 52 := by
    rw [FloatParts.targetExponent_eq, totalExponent]
    omega
  have amount : ((0 : ℤ) - (n.log2 - 52)).toNat = 52 - n.log2 := by omega
  have decreased : decreaseExponent n 0 (n.log2 - 52) =
      (n * 2 ^ (52 - n.log2), -((52 - n.log2 : ℕ) : ℤ)) := by
    rw [decreaseExponent, amount, Nat.shiftLeft_eq, zero_sub]
  have rounded : (ExtendedMantissa.mk (n * 2 ^ (52 - n.log2)) false false >>>
      (n.log2 - 52)).roundedMantissa = roundedDigits n := rfl
  have notZero := Nat.ne_of_gt (roundedParts_canonical positive small).positive
  simp only [UnpackedFloat.round, aim, decreased, roundWithAccuracy,
    shiftToTargetExponent_first n positive small, rounded,
    shiftToTargetExponent_second positive small, dif_neg notZero]

end RoundedDigits

/-- The rank of the float near to an integer. -/
def rankOfInt (n : ℤ) : Rank :=
  let parts := roundedParts n.natAbs
  if n < 0 then toLex (-1, toLex (-parts.2, -(parts.1 : ℤ)))
  else if n = 0 then toLex (0, toLex (0, 0))
  else toLex (1, toLex (parts.2, (parts.1 : ℤ)))

/-- A greater integer has no lower rank. -/
theorem rankOfInt_mono {n n' : ℤ} (le : n ≤ n') : rankOfInt n ≤ rankOfInt n' := by
  rcases lt_trichotomy n 0 with negative | rfl | positive
  · rw [rankOfInt, if_pos negative]
    rcases lt_trichotomy n' 0 with negative' | rfl | positive'
    · rw [rankOfInt, if_pos negative', Prod.Lex.toLex_le_toLex]
      have mono := @roundedParts_mono n'.natAbs n.natAbs (by omega) (by omega)
      refine .inr ⟨rfl, ?_⟩
      rw [Prod.Lex.toLex_le_toLex] at mono ⊢
      dsimp only at mono ⊢
      omega
    · exact Prod.Lex.toLex_le_toLex.mpr (.inl (by norm_num))
    · rw [rankOfInt, if_neg (lt_asymm positive'), if_neg positive'.ne']
      exact Prod.Lex.toLex_le_toLex.mpr (.inl (by norm_num))
  · rcases le.eq_or_lt with rfl | positive'
    · exact le_refl _
    · rw [rankOfInt, if_neg (lt_irrefl 0), if_pos rfl, rankOfInt, if_neg (lt_asymm positive'),
        if_neg positive'.ne']
      exact Prod.Lex.toLex_le_toLex.mpr (.inl (by norm_num))
  · have positive' := positive.trans_le le
    rw [rankOfInt, if_neg (lt_asymm positive), if_neg positive.ne', rankOfInt,
      if_neg (lt_asymm positive'), if_neg positive'.ne', Prod.Lex.toLex_le_toLex]
    exact .inr ⟨rfl, roundedParts_mono (by omega) (by omega)⟩

/-- An integer is converted to a float of its rank. -/
theorem rank?_ofInt {n : ℤ} (small : n.natAbs < 2 ^ 64) :
    rank? (Float.Model.ofInt n).unpack = some (rankOfInt n) := by
  rw [Float.Model.ofInt, UnpackedFloat.ofInt, UnpackedFloat.normalize]
  rcases lt_trichotomy n 0 with negative | rfl | positive
  · have size : (-n).toNat = n.natAbs := by omega
    have canonical := @roundedParts_canonical n.natAbs (by omega) small
    rw [compare_lt_iff_lt.mpr negative, size, round_natural (by omega) small,
      unpack_pack_finite .negative canonical, rankOfInt, if_pos negative]
    rfl
  · rfl
  · have size : n.toNat = n.natAbs := by omega
    have canonical := @roundedParts_canonical n.natAbs (by omega) small
    rw [compare_gt_iff_gt.mpr positive, size, round_natural (by omega) small,
      unpack_pack_finite .positive canonical, rankOfInt, if_neg (lt_asymm positive),
      if_neg positive.ne']
    rfl

end FloatParts

open FloatParts

/-- The place of a float among all floats. -/
def floatRank? (x : Float) : Option Rank := rank? x.toModel.unpack

theorem floatRank?_eq_none_iff {x : Float} : floatRank? x = none ↔ x.isNaN := rank?_eq_none_iff

section Comparison

variable {a b : Float}

theorem float_lt_iff :
    a < b ↔ Option.map₂ compare (floatRank? a) (floatRank? b) = some .lt := by
  rw [floatRank?, floatRank?, ← compare_eq]
  have model : a < b ↔ (decide ((a.toModel.unpack.compare b.toModel.unpack == some .lt) = true)) =
      true := Iff.rfl
  rw [model, decide_eq_true_iff, beq_iff_eq]

theorem float_beq_iff :
    (a == b) = true ↔ Option.map₂ compare (floatRank? a) (floatRank? b) = some .eq := by
  rw [floatRank?, floatRank?, ← compare_eq]
  have model : (a == b) = (a.toModel.unpack.compare b.toModel.unpack == some .eq) := rfl
  rw [model, beq_iff_eq]

end Comparison

/-- Two floats are ordered as their ranks are, and not at all if one of them is not-a-number. -/
theorem compareFloats_eq (a b : Float) :
    BinaryOp.compareFloats a b = Option.map₂ compare (floatRank? a) (floatRank? b) := by
  rw [BinaryOp.compareFloats]
  simp only [float_lt_iff, float_beq_iff]
  cases floatRank? a with
  | none => simp
  | some i =>
    cases floatRank? b with
    | none => rfl
    | some j =>
      simp only [Option.map₂_some_some, Option.some.injEq, compare_lt_iff_lt, compare_eq_iff_eq]
      rcases lt_trichotomy i j with less | rfl | greater
      · rw [if_pos less, compare_lt_iff_lt.mpr less]
      · rw [if_neg (lt_irrefl i), if_neg (lt_irrefl i), if_pos rfl, compare_eq_iff_eq.mpr rfl]
      · rw [if_neg (lt_asymm greater), if_pos greater, compare_gt_iff_gt.mpr greater]

/-- The rank of an integer as a float. -/
theorem floatRank?_floatOfInt (n : Int64) :
    floatRank? (floatOfInt n) = some (rankOfInt n.toInt) := by
  have least : -2 ^ 63 ≤ n.toInt := Int64.minValue_le_toInt n
  have greatest : n.toInt ≤ 2 ^ 63 - 1 := Int64.toInt_le n
  exact rank?_ofInt (by omega)

end ArrowExpr
