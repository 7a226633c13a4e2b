import ArrowExpr.Proofs.IntegerArithmetic
/-!
# Remainders and exact quotients

A division of integers leaves a remainder: less than the divisor in size, and on the side of the
dividend. There is just one (`isRemainder_iff`), and it never needs more than 64 bits. The operators
`%` and `/` take separate paths to it.

* `%` yields the remainder only if the quotient fits as well, which it does not for the least
  integer and `-1` (`exists_int64?_tdiv_iff`, `BinaryOp.mod_apply_int`).
* `/` yields an integer exactly if nothing remains and the quotient fits
  (`BinaryOp.div_apply_eq_int_iff`).

`remainder_and_quotient` puts this together. That `%` should yield the remainder of every division is
false, and the least integer and `-1` are the only operands to show it
(`not_remainder_of_every_division`).
-/

namespace ArrowExpr

/-- What remains of `a` when as many `b` as possible are taken from it. -/
structure IsRemainder (a b r : ℤ) : Prop where
  small : |r| < |b|
  side : r = 0 ∨ r.sign = a.sign
  divides : b ∣ a - r

section Integers

variable {a b r s : ℤ}

theorem isRemainder_tmod (a : ℤ) (nonzero : b ≠ 0) : IsRemainder a b (a.tmod b) where
  small := by
    rw [Int.abs_eq_natAbs, Int.abs_eq_natAbs, Int.natAbs_tmod, Int.ofNat_lt]
    exact Nat.mod_lt _ (Int.natAbs_pos.mpr nonzero)
  side := by
    rw [← Int.sign_eq_zero_iff_zero, Int.sign_tmod]
    split
    · exact .inl rfl
    · exact .inr rfl
  divides := Int.dvd_self_sub_tmod

/-- Remainders on one side of zero are closer to each other than the divisor is to zero. -/
theorem IsRemainder.unique (first : IsRemainder a b r) (second : IsRemainder a b s) : r = s := by
  have close : (r - s).natAbs < b.natAbs := by
    have firstSmall := first.small
    have secondSmall := second.small
    rw [Int.abs_eq_natAbs, Int.abs_eq_natAbs] at firstSmall secondSmall
    have sides : (0 ≤ r ∧ 0 ≤ s) ∨ (r ≤ 0 ∧ s ≤ 0) := by
      have firstSide := first.side
      have secondSide := second.side
      rcases lt_trichotomy a 0 with negative | rfl | positive
      · rw [Int.sign_eq_neg_one_of_neg negative, Int.sign_eq_neg_one_iff_neg] at firstSide secondSide
        omega
      · rw [Int.sign_zero, Int.sign_eq_zero_iff_zero] at firstSide secondSide
        omega
      · rw [Int.sign_eq_one_of_pos positive, Int.sign_eq_one_iff_pos] at firstSide secondSide
        omega
    omega
  have multiple : b ∣ r - s := by
    have difference := Int.dvd_sub second.divides first.divides
    rwa [sub_sub_sub_cancel_left] at difference
  exact sub_eq_zero.mp (Int.eq_zero_of_dvd_of_natAbs_lt_natAbs multiple close)

theorem isRemainder_iff (nonzero : b ≠ 0) : IsRemainder a b r ↔ r = a.tmod b := by
  constructor
  · exact fun remainder => remainder.unique (isRemainder_tmod a nonzero)
  · rintro rfl
    exact isRemainder_tmod a nonzero

end Integers

section Operators

variable {a b : Int64}

/-- Of all quotients only that of the least integer and `-1` does not fit. -/
theorem exists_int64?_tdiv_iff :
    (∃ q, int64? (a.toInt.tdiv b.toInt) = some q) ↔ ¬(a = Int64.minValue ∧ b = -1) := by
  constructor
  · rintro ⟨q, fits⟩ ⟨rfl, rfl⟩
    cases fits
  · intro others
    refine ⟨a / b, int64?_eq_some_iff.mpr ?_⟩
    rcases not_and_or.mp others with dividend | divisor
    · exact Int64.toInt_div_of_ne_left a b dividend
    · exact Int64.toInt_div_of_ne_right a b divisor

namespace BinaryOp

theorem mod_apply_int (nonzero : b ≠ 0) :
    mod.apply (.int a) (.int b) =
      if a = Int64.minValue ∧ b = -1 then .error (.integerOverflow "%") else .ok (.int (a % b)) := by
  rw [apply, remainder, if_neg nonzero]
  split
  next q fits =>
    rw [if_neg (exists_int64?_tdiv_iff.mp ⟨q, fits⟩), ← Int64.toInt_mod, Int64.ofInt_toInt]
  next large =>
    have least : a = Int64.minValue ∧ b = -1 := by
      by_contra others
      obtain ⟨q, fits⟩ := exists_int64?_tdiv_iff.mpr others
      cases large.symm.trans fits
    rw [if_pos least]
    rfl

theorem div_apply_eq_int_iff (nonzero : b ≠ 0) {q : Int64} :
    div.apply (.int a) (.int b) = .ok (.int q) ↔
      a % b = 0 ∧ (q.toInt : ℚ) = a.toInt / b.toInt := by
  have divisor : b.toInt ≠ 0 := fun zero => nonzero (Int64.toInt_inj.mp zero)
  have exact : (q.toInt : ℚ) = a.toInt / b.toInt ↔ q.toInt * b.toInt = a.toInt := by
    rw [eq_div_iff (Int.cast_ne_zero.mpr divisor), ← Int.cast_mul, Int.cast_inj]
  have whole : a % b = 0 ↔ b.toInt ∣ a.toInt := by
    rw [← Int64.toInt_inj, Int64.toInt_mod, Int.dvd_iff_tmod_eq_zero]
    rfl
  rw [exact, whole]
  constructor
  · intro yields
    rw [apply] at yields
    obtain ⟨_, _, ⟨⟩, ⟨⟩, -, product⟩ := eq_int_of_divide yields
    exact ⟨Dvd.intro_left _ product, product⟩
  · rintro ⟨divides, product⟩
    have fits : int64? (a.toInt.tdiv b.toInt) = some q :=
      int64?_eq_some_iff.mpr (Int.tdiv_eq_of_eq_mul_left divisor product.symm).symm
    rw [apply, divide, if_neg nonzero, if_pos (Int.dvd_iff_tmod_eq_zero.mp divides), fitting, fits]

end BinaryOp

end Operators

open BinaryOp

/-- Division of integers by a nonzero one.

* There is just one remainder, and it is an integer of 64 bits.
* `%` yields it exactly if the operands are not the least integer and `-1`. For those it reports an
  overflow.
* `/` yields an integer exactly if the remainder is zero and the quotient fits, and then the
  quotient. -/
theorem remainder_and_quotient (a b : Int64) (nonzero : b ≠ 0) : ∃ r : Int64,
    (∀ n : ℤ, IsRemainder a.toInt b.toInt n ↔ n = r.toInt) ∧
    (mod.apply (.int a) (.int b) = .ok (.int r) ↔ ¬(a = Int64.minValue ∧ b = -1)) ∧
    (mod.apply (.int a) (.int b) = .error (.integerOverflow "%") ↔
      a = Int64.minValue ∧ b = -1) ∧
    ∀ q : Int64, div.apply (.int a) (.int b) = .ok (.int q) ↔
      r = 0 ∧ (q.toInt : ℚ) = a.toInt / b.toInt := by
  have divisor : b.toInt ≠ 0 := fun zero => nonzero (Int64.toInt_inj.mp zero)
  refine ⟨a % b, fun n => ?_, ?_, ?_, fun q => div_apply_eq_int_iff nonzero⟩
  · rw [isRemainder_iff divisor, Int64.toInt_mod]
  · rw [mod_apply_int nonzero, ite_eq_right_iff]
    exact ⟨fun yields least => (nomatch yields least), fun others least => absurd least others⟩
  · rw [mod_apply_int nonzero, ite_eq_left_iff]
    exact ⟨fun fails => by_contra fun others => (nomatch fails others),
      fun least others => absurd least others⟩

/-- `-7 % 3` is `-1` and so `-7 / 3` is no integer, but `-9 / -3` is `3`. -/
theorem remainder_and_quotient_negative :
    (3 : Int64) ≠ 0 ∧ mod.apply (.int (-7)) (.int 3) = .ok (.int (-1)) ∧
      (∀ q, div.apply (.int (-7)) (.int 3) ≠ .ok (.int q)) ∧
      (-3 : Int64) ≠ 0 ∧ div.apply (.int (-9)) (.int (-3)) = .ok (.int 3) := by
  obtain ⟨r, unique, yields, -, quotients⟩ := remainder_and_quotient (-7) 3 (by decide)
  obtain ⟨s, alone, -, -, others⟩ := remainder_and_quotient (-9) (-3) (by decide)
  have remains : r = -1 := by
    have isRemainder : IsRemainder (-7) 3 (-1) := ⟨by decide, .inr rfl, by decide⟩
    exact Int64.toInt_inj.mp ((unique (-1)).mp isRemainder).symm
  have nothing : s = 0 := by
    have isRemainder : IsRemainder (-9) (-3) 0 := ⟨by decide, .inl rfl, by decide⟩
    exact Int64.toInt_inj.mp ((alone 0).mp isRemainder).symm
  subst remains nothing
  refine ⟨by decide, yields.mpr (by decide), fun q whole => ?_, by decide,
    (others 3).mpr ⟨rfl, ?_⟩⟩
  · exact absurd ((quotients q).mp whole).1 (by decide)
  · show ((3 : ℤ) : ℚ) = ((-9 : ℤ) : ℚ) / ((-3 : ℤ) : ℚ)
    norm_num

/-- The remainder of the least integer and `-1` is zero, but `%` does not yield it. -/
theorem not_remainder_of_every_division :
    ¬∀ a b : Int64, b ≠ 0 → ∃ r : Int64, IsRemainder a.toInt b.toInt r.toInt ∧
      mod.apply (.int a) (.int b) = .ok (.int r) := by
  intro claimed
  obtain ⟨r, -, yields⟩ := claimed Int64.minValue (-1) (by decide)
  cases yields

end ArrowExpr
