import ArrowExpr.Decimal.Basic
import Mathlib
/-!
# Floats and their parts

A finite float is a mantissa and an exponent in canonical form (`canonical_of_unpack`), and such
parts are those of a float (`unpack_pack_finite`).
-/

namespace ArrowExpr

namespace FloatParts

open Float.Model Float.Model.UnpackedFloat

/-- The mantissa and the exponent of a finite float. Only the least exponent goes with a mantissa
of fewer than 53 bits. -/
structure Canonical (mantissa : Nat) (exponent : Int) : Prop where
  positive : 0 < mantissa
  small : mantissa < 2 ^ 53
  least : -1074 ≤ exponent
  greatest : exponent ≤ 971
  full : 2 ^ 52 ≤ mantissa ∨ exponent = -1074

theorem targetExponent_eq (total : Int) :
    Format.binary64.targetExponent total = max (total - 53) (-1074) := rfl

variable {mantissa : Nat} {exponent : Int}

theorem Canonical.log2_le (canonical : Canonical mantissa exponent) : mantissa.log2 ≤ 52 := by
  have small := (Nat.log2_lt (Nat.ne_of_gt canonical.positive)).mpr canonical.small
  omega

/-- A canonical exponent is the one that rounding aims at. -/
theorem Canonical.targetExponent_eq (canonical : Canonical mantissa exponent) :
    Format.binary64.targetExponent (totalExponent mantissa exponent) = exponent := by
  have least := canonical.least
  have log2_le := canonical.log2_le
  rw [FloatParts.targetExponent_eq, totalExponent]
  rcases canonical.full with full | least
  · have le_log2 := (Nat.le_log2 (Nat.ne_of_gt canonical.positive)).mpr full
    omega
  · omega

/-! ## Bits -/

theorem toNat_implicit_append (bits : BitVec 52) : (1#1 ++ bits).toNat = 2 ^ 52 + bits.toNat := by
  rw [BitVec.toNat_append, ← Nat.shiftLeft_add_eq_or_of_lt bits.isLt, Nat.shiftLeft_eq]
  rfl

/-! ## Packing and unpacking -/

/-- What packing makes of the parts of a finite float. -/
theorem pack_finite (sign : Sign) (canonical : Canonical mantissa exponent) :
    UnpackedFloat.pack .binary64 (.finite sign mantissa exponent canonical.positive) =
      packComponents .binary64 sign
        (.ofNat 11 (if 2 ^ 52 ≤ mantissa then (exponent + 1075).toNat else 0))
        (.ofNat 52 mantissa) := by
  have least := canonical.least
  have greatest := canonical.greatest
  have biased : (exponent + Format.binary64.exponentBias + 52).toNat = (exponent + 1075).toNat := by
    have bias : Format.binary64.exponentBias = 1023 := rfl
    omega
  have inRange : ¬2 ^ 11 ≤ (exponent + 1075).toNat + 1 := by omega
  have full : mantissa.log2 + 1 = 53 ↔ 2 ^ 52 ≤ mantissa := by
    rw [← Nat.le_log2 (Nat.ne_of_gt canonical.positive)]
    have := canonical.log2_le
    omega
  have mantissaBits : Format.binary64.mantissaBits = 53 := rfl
  simp only [UnpackedFloat.pack, biased, inRange, mantissaBits, full, if_false, Int.cast_ofNat_Int]
  split
  · rfl
  · rfl

/-- The parts of a float that is packed from its fields. -/
theorem unpack_packComponents (sign : Sign) (exponentBits : BitVec 11) (mantissaBits : BitVec 52) :
    UnpackedFloat.unpack .binary64 (packComponents .binary64 sign exponentBits mantissaBits) =
      if exponentBits = -1#_ then if mantissaBits = 0#_ then .infinity sign else .notANumber
      else if exponentBits = 0#_ then
        if positive : mantissaBits = 0#_ then .zero sign
        else .finite sign mantissaBits.toNat (-1074)
          (by simpa [BitVec.toNat_pos, BitVec.pos_iff_ne_zero] using positive)
      else .finite sign (2 ^ 52 + mantissaBits.toNat) (exponentBits.toNat - 1075) (by omega) := by
  simp only [UnpackedFloat.unpack, unpackMantissa_packComponents, unpackExponent_packComponents,
    unpackSign_packComponents, Sign.ofBitVec_toBitVec, toNat_implicit_append]
  by_cases special : exponentBits = -1#_
  · rw [if_pos special, if_pos special]
  · rw [if_neg special, if_neg special]
    by_cases zero : exponentBits = 0#_
    · subst zero
      rfl
    · rw [if_neg zero, if_neg zero]
      rfl

theorem canonical_subnormal {mantissaBits : BitVec 52} (notZero : mantissaBits ≠ 0#52) :
    Canonical mantissaBits.toNat (-1074) := by
  have small := mantissaBits.isLt
  have positive : 0 < mantissaBits.toNat := by
    simpa [BitVec.toNat_pos, BitVec.pos_iff_ne_zero] using notZero
  exact ⟨positive, by omega, by decide, by decide, .inr rfl⟩

theorem canonical_normal {exponentBits : BitVec 11} (finite : exponentBits ≠ -1#11)
    (notZero : exponentBits ≠ 0#11) (mantissaBits : BitVec 52) :
    Canonical (2 ^ 52 + mantissaBits.toNat) (exponentBits.toNat - 1075) := by
  have small := mantissaBits.isLt
  have inRange := exponentBits.isLt
  have positive : exponentBits.toNat ≠ 0 := fun zero => notZero (BitVec.toNat_inj.mp zero)
  have notLast : exponentBits.toNat ≠ 2047 := fun last => finite (BitVec.toNat_inj.mp last)
  exact ⟨by omega, by omega, by omega, by omega, .inl (by omega)⟩

/-- The parts of a finite float are canonical. -/
theorem canonical_of_unpack {x : Float.Model} {sign : Sign} {positive : 0 < mantissa}
    (unpacked : x.unpack = .finite sign mantissa exponent positive) :
    Canonical mantissa exponent := by
  let bits : BitVec Format.binary64.numBits := x.toBits.toBitVec
  have fields := unpack_packComponents (.ofBitVec (unpackSign bits)) (unpackExponent bits)
    (unpackMantissa bits)
  rw [packComponents_unpackSign_unpackExponent_unpackMantissa, ← Float.Model.unpack, unpacked]
    at fields
  -- only the subnormal and the normal case of `unpack_packComponents` are finite
  split at fields
  · split at fields <;> cases fields
  · split at fields
    · split at fields
      · cases fields
      · cases fields
        exact canonical_subnormal ‹_›
    · cases fields
      exact canonical_normal ‹_› ‹_› _

/-- Nothing is lost when a canonical float is packed. -/
theorem unpack_pack_finite (sign : Sign) (canonical : Canonical mantissa exponent) :
    (Float.Model.pack (.finite sign mantissa exponent canonical.positive)).unpack =
      .finite sign mantissa exponent canonical.positive := by
  have least := canonical.least
  have greatest := canonical.greatest
  have small := canonical.small
  refine (congrArg (UnpackedFloat.unpack .binary64) (pack_finite sign canonical)).trans ?_
  rw [unpack_packComponents]
  have mantissaBits : (BitVec.ofNat 52 mantissa).toNat = mantissa % 2 ^ 52 := BitVec.toNat_ofNat ..
  by_cases full : 2 ^ 52 ≤ mantissa
  · have exponentBits :
        (BitVec.ofNat 11 (exponent + 1075).toNat).toNat = (exponent + 1075).toNat := by
      rw [BitVec.toNat_ofNat]
      omega
    have notSpecial : BitVec.ofNat 11 (exponent + 1075).toNat ≠ -1#11 := by
      intro special
      rw [special] at exponentBits
      have last : (-1#11).toNat = 2047 := rfl
      omega
    have notZero : BitVec.ofNat 11 (exponent + 1075).toNat ≠ 0#11 := by
      intro zero
      rw [zero, BitVec.toNat_zero] at exponentBits
      omega
    have sameMantissa : 2 ^ 52 + mantissa % 2 ^ 52 = mantissa := by omega
    have sameExponent : ((exponent + 1075).toNat : Int) - 1075 = exponent := by omega
    simp only [if_pos full, if_neg notSpecial, if_neg notZero, exponentBits, mantissaBits,
      sameMantissa, sameExponent]
  · have least : exponent = -1074 := canonical.full.resolve_left full
    have sameMantissa : mantissa % 2 ^ 52 = mantissa := by omega
    have notZero : BitVec.ofNat 52 mantissa ≠ 0#52 := by
      intro zero
      rw [zero, BitVec.toNat_zero, sameMantissa] at mantissaBits
      exact Nat.ne_of_gt canonical.positive mantissaBits.symm
    have notSpecial : BitVec.ofNat 11 0 ≠ -1#11 := by decide
    simp only [if_neg full, if_neg notSpecial, if_pos, dif_neg notZero, mantissaBits, sameMantissa,
      least]

/-- A float is its parts. -/
theorem unpack_injective {x y : Float} (same : x.toModel.unpack = y.toModel.unpack) : x = y := by
  have bits := (unpack_inj_of_valid x.toModel.valid y.toModel.valid).mp same
  exact Float.toBits_inj.mp (UInt64.toBitVec_inj.mp bits)

end FloatParts

end ArrowExpr
