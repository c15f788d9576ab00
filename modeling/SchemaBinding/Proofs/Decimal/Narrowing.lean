import SchemaBinding.Proofs.Decimal.Binary

/-!
# Singles and doubles

A finite double becomes an infinite single from halfway between the largest single and `2 ^ 128` on.
-/

namespace SchemaBinding.Binary

open Float.Model UnpackedFloat

def magnitude (x : Float) : ℚ :=
  match x.toModel.unpack with
  | .finite _ mantissa exponent _ => mantissa * 2 ^ exponent
  | _ => 0

/-! ## Shifting a mantissa -/

theorem roundBit_shiftRight (m : ExtendedMantissa) (amount : Nat) :
    (m >>> (amount + 1)).roundBit = ((m.mantissa / 2 ^ amount) % 2 != 0) := by
  have step : (m >>> (amount + 1)).roundBit = ((m >>> amount).mantissa % 2 != 0) := rfl
  rw [step, mantissa_shiftRight]

theorem le_roundedMantissa (m : ExtendedMantissa) : m.mantissa ≤ m.roundedMantissa := by
  unfold ExtendedMantissa.roundedMantissa Accuracy.roundToNearestEven
  split <;> omega

theorem roundedMantissa_odd (m : ExtendedMantissa) (odd : m.mantissa % 2 = 1) :
    m.roundedMantissa = m.mantissa + if m.roundBit then 1 else 0 := by
  obtain ⟨mantissa, roundBit, stickyBit⟩ := m
  unfold ExtendedMantissa.roundedMantissa ExtendedMantissa.accuracy Accuracy.roundToNearestEven
  cases roundBit <;> cases stickyBit <;> simp_all

/-- The mantissa of a normal double, shortened to that of a single. -/
def shortened (mantissa : Nat) : Nat :=
  ((⟨mantissa, false, false⟩ : ExtendedMantissa) >>> 29).roundedMantissa

theorem shortened_bounds (mantissa : Nat) :
    mantissa / 2 ^ 29 ≤ shortened mantissa ∧ shortened mantissa ≤ mantissa / 2 ^ 29 + 1 := by
  have least := le_roundedMantissa ((⟨mantissa, false, false⟩ : ExtendedMantissa) >>> 29)
  have greatest := roundedMantissa_le ((⟨mantissa, false, false⟩ : ExtendedMantissa) >>> 29)
  rw [mantissa_shiftRight] at least greatest
  exact ⟨least, greatest⟩

theorem shortened_eq_carry {mantissa : Nat} (short : mantissa < 2 ^ 53) :
    shortened mantissa = 2 ^ 24 ↔ (2 ^ 25 - 1) * 2 ^ 28 ≤ mantissa := by
  obtain ⟨least, greatest⟩ := shortened_bounds mantissa
  by_cases top : mantissa / 2 ^ 29 = 2 ^ 24 - 1
  · have odd := roundedMantissa_odd ((⟨mantissa, false, false⟩ : ExtendedMantissa) >>> 29)
      (by rw [mantissa_shiftRight, top]; decide)
    rw [mantissa_shiftRight, roundBit_shiftRight] at odd
    unfold shortened
    rw [odd]
    split
    · next up =>
      simp at up top ⊢
      omega
    · next down =>
      simp at down top ⊢
      omega
  · omega

/-! ## Narrowing -/

theorem target_single (mantissa : Nat) (exponent : Int) :
    Format.binary32.targetExponent (totalExponent mantissa exponent) =
      max (mantissa.log2 + exponent - 23) (-149) := by
  have least : Format.binary32.minExponent = -149 := rfl
  have bits : ((Format.binary32.mantissaBits : Nat) : Int) = 24 := rfl
  unfold Format.targetExponent totalExponent
  omega

theorem isFinite_pack_single (sign : Sign) {mantissa : Nat} {exponent : Int}
    (positive : 0 < mantissa) :
    (UnpackedFloat.unpack .binary32
      (UnpackedFloat.pack .binary32 (.finite sign mantissa exponent positive))).isFinite = true ↔
        exponent ≤ 104 := by
  have bias : ((Format.binary32.exponentBias : Nat) : Int) = 127 := rfl
  rw [isFinite_pack_finite, bias]
  simp only [Nat.reducePow]
  omega

theorem shift_rounded {mantissa : Nat} {exponent : Int} (least : 2 ^ 23 ≤ mantissa)
    (greatest : mantissa ≤ 2 ^ 24) (large : -149 ≤ exponent) :
    (shiftToTargetExponent .binary32 mantissa exponent .exact).1.mantissa ≠ 0 ∧
      (shiftToTargetExponent .binary32 mantissa exponent .exact).2 =
        exponent + if mantissa = 2 ^ 24 then 1 else 0 := by
  rw [mantissa_of_shift, exponent_of_shift, target_single]
  by_cases carry : mantissa = 2 ^ 24
  · subst carry
    have grown : max (((2 ^ 24 : Nat).log2 : Int) + exponent - 23) (-149) = exponent + 1 := by
      rw [Nat.log2_two_pow]
      omega
    have one : (exponent + 1 - exponent).toNat = 1 := by omega
    rw [grown, one, if_pos rfl]
    exact ⟨by decide, by omega⟩
  · have log : mantissa.log2 = 23 := (Nat.log2_eq_iff (by omega)).mpr ⟨least, by omega⟩
    have same : max ((mantissa.log2 : Int) + exponent - 23) (-149) = exponent := by
      rw [log]
      omega
    have none : (exponent - exponent).toNat = 0 := by omega
    rw [same, none, Nat.pow_zero, Nat.div_one, if_neg carry]
    exact ⟨by omega, by omega⟩

theorem isFinite_round_normal (sign : Sign) {mantissa : Nat} {exponent : Int}
    (normal : 2 ^ 52 ≤ mantissa) (short : mantissa < 2 ^ 53) (large : -178 ≤ exponent) :
    (UnpackedFloat.unpack .binary32 (UnpackedFloat.pack .binary32
      (UnpackedFloat.round .binary32 sign mantissa exponent))).isFinite = true ↔
        exponent + (if shortened mantissa = 2 ^ 24 then 1 else 0) ≤ 75 := by
  have target : Format.binary32.targetExponent (totalExponent mantissa exponent) =
      exponent + 29 := by
    have log : mantissa.log2 = 52 := (Nat.log2_eq_iff (by omega)).mpr ⟨normal, short⟩
    rw [target_single, log]
    omega
  have kept : (exponent - (exponent + 29)).toNat = 0 := by omega
  have dropped : (exponent + 29 - exponent).toNat = 29 := by omega
  have first : shiftToTargetExponent .binary32 mantissa exponent .exact =
      ((⟨mantissa, false, false⟩ : ExtendedMantissa) >>> 29, exponent + 29) := by
    unfold shiftToTargetExponent shiftToExponent
    simp only [target, dropped]
    rfl
  obtain ⟨least, greatest⟩ := shortened_bounds mantissa
  obtain ⟨nonzero, carried⟩ := shift_rounded (show 2 ^ 23 ≤ shortened mantissa by omega) (by omega)
    (show -149 ≤ exponent + 29 by omega)
  unfold UnpackedFloat.round decreaseExponent
  simp only [target, kept, Nat.shiftLeft_zero, Int.natCast_zero, Int.sub_zero]
  unfold roundWithAccuracy
  rw [first]
  dsimp only
  rw [← shortened, dif_neg nonzero, isFinite_pack_single, carried]
  omega

theorem isFinite_round_small (sign : Sign) {mantissa : Nat} {exponent : Int}
    (short : mantissa < 2 ^ 53) (small : exponent < -178) :
    (UnpackedFloat.unpack .binary32 (UnpackedFloat.pack .binary32
      (UnpackedFloat.round .binary32 sign mantissa exponent))).isFinite = true := by
  have target : Format.binary32.targetExponent (totalExponent mantissa exponent) = -149 := by
    have log : mantissa.log2 ≤ 52 := log2_le short
    rw [target_single]
    omega
  have kept : (exponent - -149).toNat = 0 := by omega
  unfold UnpackedFloat.round decreaseExponent
  simp only [target, kept, Nat.shiftLeft_zero, Int.natCast_zero, Int.sub_zero]
  unfold roundWithAccuracy
  generalize first : shiftToTargetExponent .binary32 mantissa exponent .exact = shifted
  obtain ⟨m, e⟩ := shifted
  dsimp only
  have e_eq := exponent_of_shift .binary32 mantissa exponent .exact
  have m_eq := mantissa_of_shift .binary32 mantissa exponent .exact
  rw [first, target] at e_eq m_eq
  dsimp only at e_eq m_eq
  have rounded : m.roundedMantissa ≤ 2 ^ 53 := by
    have least := roundedMantissa_le m
    have divided := Nat.div_le_self mantissa (2 ^ (-149 - exponent).toNat)
    omega
  have log : m.roundedMantissa.log2 ≤ 53 := log2_le (by omega)
  split
  · exact isFinite_zero sign
  · rw [isFinite_pack_single, exponent_of_shift, target_single]
    omega

/-! ## The range of singles -/

theorem magnitude_normal {mantissa : Nat} {exponent : Int} (normal : 2 ^ 52 ≤ mantissa)
    (short : mantissa < 2 ^ 53) :
    (mantissa : ℚ) * 2 ^ exponent < 2 ^ 128 - 2 ^ 103 ↔
      exponent + (if (2 ^ 25 - 1) * 2 ^ 28 ≤ mantissa then 1 else 0) ≤ 75 := by
  have least : ((2 ^ 52 : Nat) : ℚ) ≤ mantissa := Nat.cast_le.mpr normal
  have greatest : (mantissa : ℚ) < (2 ^ 53 : Nat) := Nat.cast_lt.mpr short
  push_cast at least greatest
  rcases lt_trichotomy exponent 75 with below | rfl | above
  · have scaled : (2 : ℚ) ^ exponent ≤ 2 ^ (74 : Int) :=
      zpow_le_zpow_right₀ (by norm_num) (by omega)
    have bounded : (mantissa : ℚ) * 2 ^ exponent ≤ 2 ^ 53 * 2 ^ (74 : Int) :=
      mul_le_mul greatest.le scaled (by positivity) (by positivity)
    refine ⟨fun _ => by split <;> omega, fun _ => bounded.trans_lt (by norm_num)⟩
  · have cut : (mantissa : ℚ) * 2 ^ (75 : Int) < 2 ^ 128 - 2 ^ 103 ↔
        mantissa < (2 ^ 25 - 1) * 2 ^ 28 := by
      have bound : (2 : ℚ) ^ 128 - 2 ^ 103 = ((2 ^ 25 - 1) * 2 ^ 28 : Nat) * 2 ^ (75 : Int) := by
        norm_num
      rw [bound, mul_lt_mul_iff_of_pos_right (by positivity), Nat.cast_lt]
    rw [cut]
    split <;> omega
  · have scaled : (2 : ℚ) ^ (76 : Int) ≤ 2 ^ exponent :=
      zpow_le_zpow_right₀ (by norm_num) (by omega)
    have bounded : (2 : ℚ) ^ 52 * 2 ^ (76 : Int) ≤ mantissa * 2 ^ exponent :=
      mul_le_mul least scaled (by positivity) (by positivity)
    refine ⟨fun small => absurd (bounded.trans_lt small) (by norm_num), fun small => ?_⟩
    split at small <;> omega

theorem magnitude_small {mantissa : Nat} {exponent : Int} (short : mantissa < 2 ^ 53)
    (small : exponent < -178) : (mantissa : ℚ) * 2 ^ exponent < 2 ^ 128 - 2 ^ 103 := by
  have greatest : (mantissa : ℚ) < (2 ^ 53 : Nat) := Nat.cast_lt.mpr short
  push_cast at greatest
  have scaled : (2 : ℚ) ^ exponent ≤ 1 := zpow_le_one_of_nonpos₀ (by norm_num) (by omega)
  calc (mantissa : ℚ) * 2 ^ exponent
      ≤ 2 ^ 53 * 1 := mul_le_mul greatest.le scaled (by positivity) (by positivity)
    _ < 2 ^ 128 - 2 ^ 103 := by norm_num

/-- A finite double has a finite single below half a unit beyond the largest one, and only there. -/
theorem isFinite_narrow {x : Float} (finite : x.isFinite = true) :
    (narrow x).isFinite = true ↔ magnitude x < 2 ^ 128 - 2 ^ 103 := by
  have shown : x.toModel.unpack.isFinite = true := finite
  unfold narrow magnitude
  cases unpacked : x.toModel.unpack with
  | infinity sign | notANumber =>
    rw [unpacked] at shown
    cases shown
  | zero sign => exact iff_of_true (isFinite_zero sign) (by norm_num)
  | finite sign mantissa exponent positive =>
    obtain ⟨short, canonical, -⟩ := bounds_of_unpack unpacked
    have bias : ((Format.binary64.exponentBias : Nat) : Int) = 1023 := rfl
    have fraction : ((Format.binary64.mantissaBitsWithoutImplicit : Nat) : Int) = 52 := rfl
    rw [bias, fraction] at canonical
    change (UnpackedFloat.unpack .binary32 (UnpackedFloat.pack .binary32
      (UnpackedFloat.round .binary32 sign mantissa exponent))).isFinite = true ↔
        (mantissa : ℚ) * 2 ^ exponent < 2 ^ 128 - 2 ^ 103
    by_cases small : exponent < -178
    · exact iff_of_true (isFinite_round_small sign short small) (magnitude_small short small)
    · have normal : 2 ^ 52 ≤ mantissa := canonical.resolve_right (by omega)
      rw [isFinite_round_normal sign normal short (by omega), magnitude_normal normal short]
      simp only [shortened_eq_carry short]

/-! ## Infinities and NaNs -/

theorem isFinite_unpacked (x : UnpackedFloat) : x.isFinite = !(x.isNaN || x.isInf) := by
  cases x <;> rfl

theorem isFinite_single (x : Float32) : x.isFinite = !(x.isNaN || x.isInf) :=
  isFinite_unpacked x.toModel.unpack

theorem isFinite_double (x : Float) : x.isFinite = !(x.isNaN || x.isInf) :=
  isFinite_unpacked x.toModel.unpack

theorem special_of_isFinite {x : UnpackedFloat} (finite : x.isFinite = true) :
    x.isNaN = false ∧ x.isInf = false := by
  rw [isFinite_unpacked] at finite
  simpa using finite

theorem isNaN_pack {spec : Format} {x : UnpackedFloat} (number : x.isNaN = false) :
    (UnpackedFloat.unpack spec (UnpackedFloat.pack spec x)).isNaN = false := by
  cases x with
  | notANumber => cases number
  | infinity sign => rw [UnpackedFloat.pack, unpack_packedInfinity]; rfl
  | zero sign => rw [UnpackedFloat.pack, unpack_packedZero]; rfl
  | finite sign mantissa exponent positive =>
    by_cases beyond : 2 ^ spec.exponentBits ≤
        (exponent + spec.exponentBias + spec.mantissaBitsWithoutImplicit).toNat + 1
    · rw [UnpackedFloat.pack, if_pos beyond, unpack_packedInfinity]
      rfl
    · have within := (isFinite_pack_finite sign positive).mpr (Nat.lt_of_not_le beyond)
      exact (special_of_isFinite within).1

theorem isNaN_round (spec : Format) (sign : Sign) (mantissa : Nat) (exponent : Int) :
    (UnpackedFloat.round spec sign mantissa exponent).isNaN = false := by
  unfold UnpackedFloat.round roundWithAccuracy
  dsimp only
  split <;> rfl

theorem isNaN_narrow {x : Float} (finite : x.isFinite = true) : (narrow x).isNaN = false := by
  have shown : x.toModel.unpack.isFinite = true := finite
  unfold narrow
  cases unpacked : x.toModel.unpack with
  | infinity sign | notANumber =>
    rw [unpacked] at shown
    cases shown
  | zero sign => exact isNaN_pack rfl
  | finite sign mantissa exponent positive => exact isNaN_pack (isNaN_round ..)

theorem widen_alike (x : Float32) :
    (widen x).isFinite = x.isFinite ∧ (widen x).isNaN = x.isNaN ∧ (widen x).isInf = x.isInf := by
  change (widen x).toModel.unpack.isFinite = x.toModel.unpack.isFinite ∧
    (widen x).toModel.unpack.isNaN = x.toModel.unpack.isNaN ∧
    (widen x).toModel.unpack.isInf = x.toModel.unpack.isInf
  unfold widen
  cases unpacked : x.toModel.unpack with
  | notANumber => exact ⟨rfl, rfl, rfl⟩
  | infinity sign | zero sign => cases sign <;> exact ⟨rfl, rfl, rfl⟩
  | finite sign mantissa exponent positive =>
    obtain ⟨short, -, small⟩ := bounds_of_unpack unpacked
    have bias : ((Format.binary32.exponentBias : Nat) : Int) = 127 := rfl
    have fraction : ((Format.binary32.mantissaBitsWithoutImplicit : Nat) : Int) = 23 := rfl
    have room : ((2 ^ Format.binary32.exponentBits : Nat) : Int) = 256 := rfl
    have bits : mantissa < 2 ^ 24 := short
    rw [bias, fraction, room] at small
    have finite := isFinite_round sign (show mantissa < 2 ^ 64 by omega)
      (show exponent ≤ 400 by omega)
    exact ⟨finite, special_of_isFinite finite⟩

end SchemaBinding.Binary
