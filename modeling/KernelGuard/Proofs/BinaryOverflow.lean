import KernelGuard.Proofs.BinaryRounding

/-! Where a format ends. A number is rounded to a finite value as long as it is nearer to the
greatest of them than to the power of two behind it; half way between them the tie goes to the
power of two, since its significand would be even. The digit counts by which numerals far
outside a format are told apart never decide otherwise. -/
namespace KernelGuard

namespace BinaryFormat

variable {format : BinaryFormat}

/-- The least magnitude that is rounded to infinity. -/
def overflow (format : BinaryFormat) : ℚ :=
  ((2 : ℚ) ^ format.precision - 1 / 2) * 2 ^ format.maxExponent

/-- The exponents of a format are in order and around zero, and there is a digit. -/
structure Sound (format : BinaryFormat) : Prop where
  digit : 0 < format.precision
  small : format.minExponent ≤ 0
  great : 0 < format.maxExponent

theorem Sound.range (sound : format.Sound) : format.minExponent < format.maxExponent := by
  have small := sound.small
  have great := sound.great
  omega

theorem single_sound : single.Sound := ⟨by decide, by decide, by decide⟩

theorem double_sound : double.Sound := ⟨by decide, by decide, by decide⟩

/-- The end of a format lies between two powers of two. -/
theorem overflow_bounds (format : BinaryFormat) :
    (2 : ℚ) ^ ((format.precision : Int) + format.maxExponent - 1) ≤ format.overflow ∧
      format.overflow < (2 : ℚ) ^ ((format.precision : Int) + format.maxExponent) := by
  have two : (2 : ℚ) ≠ 0 := by norm_num
  have scale : (0 : ℚ) < 2 ^ format.maxExponent := by positivity
  have digits : (1 : ℚ) ≤ 2 ^ format.precision := one_le_pow₀ (by norm_num)
  rw [overflow, zpow_sub₀ two, zpow_add₀ two, zpow_natCast, zpow_one]
  constructor
  · rw [mul_div_right_comm]
    exact mul_le_mul_of_nonneg_right (by linarith) scale.le
  · exact mul_lt_mul_of_pos_right (by linarith) scale

theorem zero_isFinite (sound : format.Sound) (negative : Bool) :
    (format.zero negative).isFinite = true := by
  have canonical : format.Canonical 0 format.minExponent :=
    ⟨Nat.pow_pos (by decide), le_refl _, sound.range.le, .inl rfl⟩
  rw [zero, dif_pos canonical]
  rfl

/-- What a number is rounded to at an exponent that fits it fills the precision, unless the
exponent is the least one, and runs over by one at most. -/
private theorem rounded_bounds (sound : format.Sound) {ratio : Ratio}
    (bottom : 0 < ratio.denominator) {exponent : Int} (fits : format.Fits ratio.value exponent) :
    (ratio.divPow 2 exponent).roundHalfEven ≤ format.significandLimit ∧
      (exponent = format.minExponent ∨
        format.leastNormal ≤ (ratio.divPow 2 exponent).roundHalfEven) := by
  have digit := sound.digit
  have two : (2 : ℚ) ≠ 0 := by norm_num
  have positive : (0 : ℚ) < 2 ^ exponent := by positivity
  have bottom' : 0 < (ratio.divPow 2 exponent).denominator :=
    Ratio.denominator_divPow bottom (by norm_num) _
  have scaled : (ratio.divPow 2 exponent).value = ratio.value / 2 ^ exponent :=
    Ratio.value_divPow ratio (by norm_num) exponent
  constructor
  · refine Ratio.roundHalfEven_le bottom' ?_
    rw [scaled, div_le_iff₀ positive]
    refine fits.below.le.trans_eq ?_
    rw [zpow_add₀ two, zpow_natCast]
    simp [significandLimit]
  · refine fits.filled.imp_right fun filled => Ratio.le_roundHalfEven bottom' ?_
    rw [scaled, le_div_iff₀ positive]
    refine (Eq.le ?_).trans filled
    rw [show (format.precision : Int) + exponent - 1 =
      ((format.precision - 1 : Nat) : Int) + exponent by omega, zpow_add₀ two, zpow_natCast]
    simp [leastNormal]

/-- The value that a positive number is rounded to is finite if the exponent leaves room. -/
private theorem ofRatio_isFinite_of_exponent (sound : format.Sound) {ratio : Ratio}
    (top : 0 < ratio.numerator) (bottom : 0 < ratio.denominator) (negative : Bool) :
    (format.ofRatio negative ratio).isFinite = true ↔
      if (ratio.divPow 2 (format.roundingExponent ratio)).roundHalfEven < format.significandLimit
      then format.roundingExponent ratio ≤ format.maxExponent
      else format.roundingExponent ratio < format.maxExponent := by
  have fits : format.Fits ratio.value (format.roundingExponent ratio) :=
    roundingExponent_fits top bottom
  obtain ⟨atMost, filled⟩ := rounded_bounds sound bottom fits
  have least := fits.least
  have normal : format.leastNormal < format.significandLimit :=
    Nat.pow_lt_pow_right (by norm_num) (Nat.sub_one_lt_of_lt sound.digit)
  unfold ofRatio
  dsimp only
  generalize format.roundingExponent ratio = exponent at *
  generalize (ratio.divPow 2 exponent).roundHalfEven = rounded at *
  by_cases full : rounded = format.significandLimit
  · have canonical : format.Canonical format.leastNormal (exponent + 1) ↔
        exponent < format.maxExponent := by
      simp only [Canonical, normal, le_refl, or_true, and_true, true_and]
      omega
    simp only [full, if_true, lt_irrefl, if_false, canonical]
    split <;> simp_all [Binary.isFinite]
  · have below : rounded < format.significandLimit := by omega
    have canonical : format.Canonical rounded exponent ↔ exponent ≤ format.maxExponent := by
      simp only [Canonical, below, filled, least, and_true, true_and]
    simp only [full, below, if_true, if_false, canonical]
    split <;> simp_all [Binary.isFinite]

/-- A positive number is rounded to a finite value just if it is below the end of the format. -/
theorem ofRatio_isFinite_iff (sound : format.Sound) {ratio : Ratio} (top : 0 < ratio.numerator)
    (bottom : 0 < ratio.denominator) (negative : Bool) :
    (format.ofRatio negative ratio).isFinite = true ↔ ratio.value < format.overflow := by
  have fits : format.Fits ratio.value (format.roundingExponent ratio) :=
    roundingExponent_fits top bottom
  obtain ⟨least, below, filled⟩ := fits
  obtain ⟨enough, short⟩ := format.overflow_bounds
  have grows : (1 : ℚ) ≤ 2 := by norm_num
  rw [ofRatio_isFinite_of_exponent sound top bottom]
  rcases lt_trichotomy (format.roundingExponent ratio) format.maxExponent with less | last | more
  · have inside : ratio.value < format.overflow :=
      below.trans_le ((zpow_le_zpow_right₀ grows (by omega)).trans enough)
    simp [less, less.le, inside]
  · have positive : (0 : ℚ) < 2 ^ format.maxExponent := by positivity
    have even : format.significandLimit % 2 = 0 := by
      obtain ⟨digits, some⟩ := Nat.exists_eq_add_one.mpr sound.digit
      rw [significandLimit, some, Nat.pow_eq, pow_succ, Nat.mul_mod_left]
    have rounded : (ratio.divPow 2 format.maxExponent).roundHalfEven < format.significandLimit ↔
        ratio.value < format.overflow := by
      rw [Ratio.roundHalfEven_lt_iff (Ratio.denominator_divPow bottom (by norm_num) _) even,
        Ratio.value_divPow ratio (by norm_num), Nat.cast_ofNat, div_lt_iff₀ positive, overflow]
      simp [significandLimit]
    rw [last, ← rounded]
    simp
  · have range := sound.range
    have full : (2 : ℚ) ^ (format.precision + format.roundingExponent ratio - 1) ≤ ratio.value :=
      filled.resolve_left (by omega)
    have outside : format.overflow ≤ ratio.value :=
      short.le.trans ((zpow_le_zpow_right₀ grows (by omega)).trans full)
    simp [more.not_ge, more.not_gt, outside.not_gt]

end BinaryFormat

/-- A numeral is read as a finite value just if its magnitude is below the end of the format. -/
theorem Binary.ofDecimal_isFinite_iff {format : BinaryFormat} (sound : format.Sound)
    (numeral : Decimal) :
    (ofDecimal format numeral).isFinite = true ↔ numeral.number < format.overflow := by
  obtain ⟨enough, short⟩ := format.overflow_bounds
  have great := sound.great
  have small := sound.small
  have one : (1 : ℚ) ≤ format.overflow := (one_le_zpow₀ (by norm_num) (by omega)).trans enough
  by_cases zero : numeral.coefficient = 0
  · have nothing : numeral.number = 0 := Decimal.number_eq_zero_iff.mpr zero
    rw [ofDecimal, if_pos zero, nothing]
    simp [BinaryFormat.zero_isFinite sound, one_pos.trans_le one]
  · obtain ⟨atLeast, below⟩ := Decimal.number_bounds zero
    unfold ofDecimal
    dsimp only
    rw [if_neg zero]
    split
    · rename_i far
      have outside : format.overflow ≤ numeral.number := by
        refine short.le.trans (le_trans ?_ atLeast)
        calc (2 : ℚ) ^ ((format.precision : Int) + format.maxExponent)
            ≤ 10 ^ ((format.precision : Int) + format.maxExponent) :=
              zpow_le_zpow_left₀ (by omega) (by norm_num) (by norm_num)
          _ ≤ 10 ^ ((Decimal.digitCount numeral.coefficient : Int) + numeral.exponent - 1) :=
              zpow_le_zpow_right₀ (by norm_num) (by omega)
      simp [isFinite, outside]
    · split
      · rename_i near
        have inside : numeral.number < format.overflow := by
          refine below.trans_le (le_trans ?_ one)
          exact zpow_le_one_of_nonpos₀ (by norm_num) (by omega)
        simp [BinaryFormat.zero_isFinite sound, inside]
      · rw [BinaryFormat.ofRatio_isFinite_iff sound
          (Decimal.numerator_scaled zero) (Decimal.denominator_scaled _), Decimal.value_scaled]

/-- What a numeral is read as is infinite if it is not finite. -/
theorem Binary.ofDecimal_eq_infinite {format : BinaryFormat} {numeral : Decimal}
    (endless : ¬(ofDecimal format numeral).isFinite = true) :
    ofDecimal format numeral = .infinite numeral.negative := by
  unfold ofDecimal BinaryFormat.zero BinaryFormat.ofRatio at *
  dsimp only at *
  split_ifs at * <;> first | rfl | exact absurd rfl endless

end KernelGuard
