import Mathlib
import SchemaBinding.Json.Number

/-!
# Finite doubles

No number of a document rounds to infinity.
-/

namespace SchemaBinding

namespace Binary

open Float.Model UnpackedFloat

/-! ## Exponents -/

theorem ne_greatest {width : Nat} {bits : BitVec width} :
    bits ≠ -BitVec.ofNat width 1 ↔ bits.toNat + 1 < 2 ^ width := by
  have bound := bits.isLt
  rw [Ne, ← BitVec.toNat_inj, BitVec.neg_one_eq_allOnes, BitVec.toNat_allOnes]
  omega

theorem isFinite_unpack {spec : Format} {bits : BitVec spec.numBits}
    (h : (unpackExponent bits).toNat + 1 < 2 ^ spec.exponentBits) :
    (UnpackedFloat.unpack spec bits).isFinite = true := by
  unfold UnpackedFloat.unpack
  simp only [if_neg (ne_greatest.mpr h)]
  split
  · split <;> rfl
  · rfl

theorem isFinite_zero {spec : Format} (sign : Sign) :
    (UnpackedFloat.unpack spec (UnpackedFloat.pack spec (.zero sign))).isFinite = true := by
  rw [UnpackedFloat.pack, unpack_packedZero]
  rfl

theorem bounds_of_unpack {spec : Format} {bits : BitVec spec.numBits} {sign : Sign}
    {mantissa : Nat} {exponent : Int} {positive : 0 < mantissa}
    (h : UnpackedFloat.unpack spec bits = .finite sign mantissa exponent positive) :
    mantissa < 2 ^ spec.mantissaBits ∧
      (2 ^ spec.mantissaBitsWithoutImplicit ≤ mantissa ∨
        exponent + (spec.exponentBias + spec.mantissaBitsWithoutImplicit) = 1) ∧
      exponent + (spec.exponentBias + spec.mantissaBitsWithoutImplicit) <
        (2 ^ spec.exponentBits : Nat) := by
  have room : 2 ^ 1 ≤ 2 ^ spec.exponentBits := Nat.pow_le_pow_right (by decide) spec.he
  have double : 2 ^ spec.mantissaBits = 2 * 2 ^ spec.mantissaBitsWithoutImplicit := by
    rw [Format.mantissaBits, Nat.pow_add, Nat.pow_one]
  revert h
  fun_cases UnpackedFloat.unpack spec bits with
  | case1 | case2 | case3 => exact nofun
  | case4 mantissaVec exponentVec e signVec s _ zero nonzero =>
    intro h
    obtain ⟨-, hm, he⟩ := UnpackedFloat.finite.inj h
    have short := mantissaVec.isLt
    have least : exponentVec.toNat = 0 := by rw [zero]; rfl
    omega
  | case5 mantissaVec exponentVec e signVec s greatest zero =>
    intro h
    obtain ⟨-, hm, he⟩ := UnpackedFloat.finite.inj h
    have short := mantissaVec.isLt
    have whole : (1#1 ++ mantissaVec).toNat =
        2 ^ spec.mantissaBitsWithoutImplicit + mantissaVec.toNat := by
      rw [BitVec.toNat_append, ← Nat.shiftLeft_add_eq_or_of_lt short, Nat.shiftLeft_eq]
      simp
    have below := ne_greatest.mp greatest
    have positive : exponentVec.toNat ≠ 0 := fun same => zero (BitVec.eq_of_toNat_eq same)
    omega

theorem unpack_packedInfinity (spec : Format) (sign : Sign) :
    UnpackedFloat.unpack spec (packedInfinity spec sign) = .infinity sign := by
  simp [UnpackedFloat.unpack, packedInfinity]

theorem isFinite_pack_finite {spec : Format} (sign : Sign) {mantissa : Nat} {exponent : Int}
    (positive : 0 < mantissa) :
    (UnpackedFloat.unpack spec
      (UnpackedFloat.pack spec (.finite sign mantissa exponent positive))).isFinite = true ↔
        (exponent + spec.exponentBias + spec.mantissaBitsWithoutImplicit).toNat + 1 <
          2 ^ spec.exponentBits := by
  rw [UnpackedFloat.pack]
  split
  · next beyond =>
    rw [unpack_packedInfinity]
    exact ⟨nofun, fun within => absurd beyond (by omega)⟩
  · next within =>
    refine ⟨fun _ => by omega, fun _ => ?_⟩
    split
    · apply isFinite_unpack
      rw [unpackExponent_packComponents, BitVec.toNat_ofNat, Nat.mod_eq_of_lt (by omega)]
      omega
    · have room : 2 ^ 1 ≤ 2 ^ spec.exponentBits := Nat.pow_le_pow_right (by decide) spec.he
      apply isFinite_unpack
      rw [unpackExponent_packComponents, BitVec.toNat_zero]
      omega

theorem isFinite_finite (sign : Sign) {mantissa : Nat} {exponent : Int} (positive : 0 < mantissa)
    (small : exponent ≤ 970) :
    (UnpackedFloat.unpack .binary64
      (UnpackedFloat.pack .binary64 (.finite sign mantissa exponent positive))).isFinite = true := by
  have bias : ((Format.binary64.exponentBias : Nat) : Int) = 1023 := rfl
  rw [isFinite_pack_finite, bias]
  simp only [Nat.reducePow]
  omega

/-! ## Rounding -/

theorem exponent_of_shift (spec : Format) (mantissa : Nat) (exponent : Int) (accuracy : Accuracy) :
    (shiftToTargetExponent spec mantissa exponent accuracy).2 =
      max exponent (spec.targetExponent (totalExponent mantissa exponent)) := by
  unfold shiftToTargetExponent shiftToExponent
  dsimp only
  omega

theorem mantissa_shiftRight (m : ExtendedMantissa) (amount : Nat) :
    (m >>> amount).mantissa = m.mantissa / 2 ^ amount := by
  induction amount with
  | zero => exact (Nat.div_one _).symm
  | succ amount ih =>
    have step : (m >>> (amount + 1)).mantissa = (m >>> amount).mantissa / 2 := rfl
    rw [step, ih, Nat.div_div_eq_div_mul, Nat.pow_succ]

theorem mantissa_of_shift (spec : Format) (mantissa : Nat) (exponent : Int) (accuracy : Accuracy) :
    (shiftToTargetExponent spec mantissa exponent accuracy).1.mantissa =
      mantissa / 2 ^ (spec.targetExponent (totalExponent mantissa exponent) - exponent).toNat := by
  have kept : (ExtendedMantissa.ofMantissaAndAccuracy mantissa accuracy).mantissa = mantissa := by
    unfold ExtendedMantissa.ofMantissaAndAccuracy
    split <;> rfl
  unfold shiftToTargetExponent shiftToExponent
  rw [mantissa_shiftRight, kept]

theorem roundedMantissa_le (m : ExtendedMantissa) : m.roundedMantissa ≤ m.mantissa + 1 := by
  unfold ExtendedMantissa.roundedMantissa Accuracy.roundToNearestEven
  split <;> omega

theorem log2_le {mantissa width : Nat} (short : mantissa < 2 ^ (width + 1)) :
    mantissa.log2 ≤ width := by
  rcases Nat.eq_zero_or_pos mantissa with rfl | positive
  · exact Nat.zero_le _
  · exact Nat.lt_succ_iff.mp ((Nat.log2_lt (Nat.ne_of_gt positive)).mpr short)

theorem targetExponent_le {mantissa width : Nat} (short : mantissa ≤ 2 ^ width) (exponent : Int) :
    Format.binary64.targetExponent (totalExponent mantissa exponent) ≤
      max (width + exponent) (-1074) := by
  have log : mantissa.log2 ≤ width := by
    apply log2_le
    exact Nat.lt_of_le_of_lt short (Nat.pow_lt_pow_succ (by decide))
  have least : Format.binary64.minExponent = -1074 := rfl
  have bits : ((Format.binary64.mantissaBits : Nat) : Int) = 53 := rfl
  unfold Format.targetExponent totalExponent
  omega

theorem isFinite_roundWithAccuracy (sign : Sign) {mantissa width : Nat} {exponent : Int}
    (accuracy : Accuracy) (short : mantissa < 2 ^ width) (narrow : width ≤ 970)
    (small : 2 * width + exponent ≤ 970) :
    (UnpackedFloat.unpack .binary64 (UnpackedFloat.pack .binary64
      (roundWithAccuracy .binary64 sign mantissa exponent accuracy))).isFinite = true := by
  unfold roundWithAccuracy
  generalize first : shiftToTargetExponent .binary64 mantissa exponent accuracy = shifted
  obtain ⟨m, e⟩ := shifted
  dsimp only
  generalize second : shiftToTargetExponent .binary64 m.roundedMantissa e .exact = again
  obtain ⟨m', e'⟩ := again
  have e_eq := exponent_of_shift .binary64 mantissa exponent accuracy
  have e'_eq := exponent_of_shift .binary64 m.roundedMantissa e .exact
  have m_eq := mantissa_of_shift .binary64 mantissa exponent accuracy
  rw [first] at e_eq m_eq
  rw [second] at e'_eq
  dsimp only at e_eq e'_eq m_eq
  -- The second shift only makes room for a mantissa that was rounded up to a power of two.
  have once := targetExponent_le (Nat.le_of_lt short) exponent
  have rounded : m.roundedMantissa ≤ 2 ^ width := by
    have least := roundedMantissa_le m
    have divided := Nat.div_le_self mantissa
      (2 ^ (Format.binary64.targetExponent (totalExponent mantissa exponent) - exponent).toNat)
    omega
  have twice := targetExponent_le rounded e
  split
  · exact isFinite_zero sign
  · exact isFinite_finite sign _ (by omega)

theorem isFinite_round (sign : Sign) {mantissa : Nat} {exponent : Int} (short : mantissa < 2 ^ 64)
    (small : exponent ≤ 400) :
    (UnpackedFloat.unpack .binary64 (UnpackedFloat.pack .binary64
      (UnpackedFloat.round .binary64 sign mantissa exponent))).isFinite = true := by
  unfold UnpackedFloat.round decreaseExponent
  dsimp only
  generalize amount :
    (exponent - Format.binary64.targetExponent (totalExponent mantissa exponent)).toNat = k
  have few : k ≤ 52 := by
    have bits : ((Format.binary64.mantissaBits : Nat) : Int) = 53 := rfl
    unfold Format.targetExponent totalExponent at amount
    omega
  have shifted : mantissa <<< k < 2 ^ 116 := by
    rw [Nat.shiftLeft_eq]
    calc
      mantissa * 2 ^ k < 2 ^ 64 * 2 ^ k := Nat.mul_lt_mul_of_pos_right short (Nat.two_pow_pos k)
      _ ≤ 2 ^ 64 * 2 ^ 52 := Nat.mul_le_mul_left _ (Nat.pow_le_pow_right (by decide) few)
      _ = 2 ^ 116 := by rw [← Nat.pow_add]
  exact isFinite_roundWithAccuracy sign .exact shifted (by decide) (by omega)

/-! ## Numbers of documents -/

theorem isFinite_ofInt {n : Int} (fits : -9223372036854775808 ≤ n ∧ n ≤ 18446744073709551615) :
    (ofInt n).isFinite = true := by
  change (UnpackedFloat.unpack .binary64 (UnpackedFloat.pack .binary64
    (UnpackedFloat.normalize .binary64 n 0 .positive))).isFinite = true
  unfold UnpackedFloat.normalize
  split
  · exact isFinite_round _ (by omega) (by decide)
  · exact isFinite_zero _
  · exact isFinite_round _ (by omega) (by decide)

end Binary

theorem Json.Number.isFinite_toFloat (n : Json.Number) : n.toFloat.isFinite = true := by
  cases n with
  | integer n fits => exact Binary.isFinite_ofInt fits
  | double x finite => exact finite

end SchemaBinding
