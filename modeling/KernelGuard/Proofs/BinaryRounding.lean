import KernelGuard.Binary.Shortest
import KernelGuard.Proofs.RatioValue
import Mathlib.Algebra.Order.Field.Power

/-! Rounding looks at the number that a numeral stands for and not at how it is
spelled. The exponent at which a number is rounded is fixed by the number, although
it is estimated from the bit lengths of a ratio, and a value of the format is
rounded to itself. So the shortest numeral of a value rounds back to it. -/
namespace KernelGuard

namespace BinaryFormat

variable {format : BinaryFormat}

/-- An exponent at which a number fills the precision, unless it is the least one. -/
structure Fits (format : BinaryFormat) (number : ℚ) (exponent : Int) : Prop where
  least : format.minExponent ≤ exponent
  below : number < (2 : ℚ) ^ (format.precision + exponent)
  filled : exponent = format.minExponent ∨ (2 : ℚ) ^ (format.precision + exponent - 1) ≤ number

private theorem fits_le {number : ℚ} {e f : Int} (left : format.Fits number e)
    (right : format.Fits number f) : f ≤ e := by
  rcases right.filled with least | filled
  · exact least ▸ left.least
  · have powers : (2 : ℚ) ^ (format.precision + f - 1) < 2 ^ (format.precision + e) :=
      lt_of_le_of_lt filled left.below
    have exponents := (zpow_lt_zpow_iff_right₀ (by norm_num : (1 : ℚ) < 2)).mp powers
    omega

/-- Only one exponent fits a number. -/
theorem fits_unique {number : ℚ} {e f : Int} (left : format.Fits number e)
    (right : format.Fits number f) : e = f :=
  le_antisymm (fits_le right left) (fits_le left right)

/-- The bit lengths of its two numbers bound a ratio from both sides. -/
private theorem estimate_bounds {ratio : Ratio} (top : 0 < ratio.numerator)
    (bottom : 0 < ratio.denominator) :
    (2 : ℚ) ^ ((ratio.numerator.log2 : Int) - ratio.denominator.log2 - 1) ≤ ratio.value ∧
      ratio.value < (2 : ℚ) ^ ((ratio.numerator.log2 : Int) - ratio.denominator.log2 + 1) := by
  have positive : (0 : ℚ) < ratio.denominator := by positivity
  have two : (2 : ℚ) ≠ 0 := by norm_num
  have topLeast : (2 : ℚ) ^ ratio.numerator.log2 ≤ ratio.numerator := by
    exact_mod_cast Nat.log2_self_le top.ne'
  have topMost : (ratio.numerator : ℚ) < 2 ^ (ratio.numerator.log2 + 1) := by
    exact_mod_cast Nat.lt_log2_self
  have bottomLeast : (2 : ℚ) ^ ratio.denominator.log2 ≤ ratio.denominator := by
    exact_mod_cast Nat.log2_self_le bottom.ne'
  have bottomMost : (ratio.denominator : ℚ) < 2 ^ (ratio.denominator.log2 + 1) := by
    exact_mod_cast Nat.lt_log2_self
  constructor
  · rw [Ratio.value, le_div_iff₀ positive]
    calc (2 : ℚ) ^ ((ratio.numerator.log2 : Int) - ratio.denominator.log2 - 1) * ratio.denominator
        ≤ 2 ^ ((ratio.numerator.log2 : Int) - ratio.denominator.log2 - 1) *
            2 ^ (ratio.denominator.log2 + 1) := by gcongr
      _ = 2 ^ ratio.numerator.log2 := by
          rw [← zpow_natCast, ← zpow_natCast, ← zpow_add₀ two]
          congr 1
          push_cast
          ring
      _ ≤ ratio.numerator := topLeast
  · rw [Ratio.value, div_lt_iff₀ positive]
    calc (ratio.numerator : ℚ) < 2 ^ (ratio.numerator.log2 + 1) := topMost
      _ = 2 ^ ((ratio.numerator.log2 : Int) - ratio.denominator.log2 + 1) *
            2 ^ ratio.denominator.log2 := by
          rw [← zpow_natCast, ← zpow_natCast, ← zpow_add₀ two]
          congr 1
          push_cast
          ring
      _ ≤ 2 ^ ((ratio.numerator.log2 : Int) - ratio.denominator.log2 + 1) *
            ratio.denominator := by gcongr

/-- The exponent that is chosen fits. -/
theorem roundingExponent_fits {ratio : Ratio} (top : 0 < ratio.numerator)
    (bottom : 0 < ratio.denominator) : format.Fits ratio.value (format.roundingExponent ratio) := by
  obtain ⟨atLeast, below⟩ := estimate_bounds top bottom
  have two : (2 : ℚ) ≠ 0 := by norm_num
  have grows : (1 : ℚ) ≤ 2 := by norm_num
  unfold roundingExponent
  dsimp only
  generalize estimated : max format.minExponent
    ((ratio.numerator.log2 : Int) - ratio.denominator.log2 - format.precision) = exponent
  have positive : (0 : ℚ) < 2 ^ exponent := by positivity
  have full : format.significandLimit ≤ (ratio.divPow 2 exponent).floor ↔
      (2 : ℚ) ^ (format.precision + exponent) ≤ ratio.value := by
    have nonnegative : 0 ≤ (ratio.divPow 2 exponent).value := by
      rw [Ratio.value_divPow ratio (by norm_num)]
      exact div_nonneg (Ratio.value_pos top bottom).le (by positivity)
    rw [Ratio.le_floor_iff nonnegative, Ratio.value_divPow ratio (by norm_num), Nat.cast_ofNat,
      le_div_iff₀ positive, zpow_add₀ two, zpow_natCast]
    simp [significandLimit]
  by_cases overflows : (2 : ℚ) ^ (format.precision + exponent) ≤ ratio.value
  · rw [if_pos (full.mpr overflows)]
    refine ⟨by omega, lt_of_lt_of_le below (zpow_le_zpow_right₀ grows (by omega)), .inr ?_⟩
    rwa [show (format.precision : Int) + (exponent + 1) - 1 = format.precision + exponent by ring]
  · rw [if_neg (fun atLimit => overflows (full.mp atLimit))]
    refine ⟨by omega, not_le.mp overflows, ?_⟩
    by_cases least : exponent = format.minExponent
    · exact .inl least
    · exact .inr (le_trans (zpow_le_zpow_right₀ grows (by omega)) atLeast)

/-- Ratios of the same number round to the same value. -/
theorem ofRatio_congr {a b : Ratio} (negative : Bool) (aTop : 0 < a.numerator)
    (aBottom : 0 < a.denominator) (bTop : 0 < b.numerator) (bBottom : 0 < b.denominator)
    (same : a.value = b.value) : format.ofRatio negative a = format.ofRatio negative b := by
  have exponents : format.roundingExponent a = format.roundingExponent b :=
    fits_unique (roundingExponent_fits aTop aBottom) (same ▸ roundingExponent_fits bTop bBottom)
  have rounded : (a.divPow 2 (format.roundingExponent b)).roundHalfEven =
      (b.divPow 2 (format.roundingExponent b)).roundHalfEven := by
    refine Ratio.roundHalfEven_congr (Ratio.denominator_divPow aBottom (by norm_num) _)
      (Ratio.denominator_divPow bBottom (by norm_num) _) ?_
    rw [Ratio.value_divPow a (by norm_num), Ratio.value_divPow b (by norm_num), same]
  unfold ofRatio
  dsimp only
  rw [exponents, rounded]

/-- A positive value of the format is rounded to itself. -/
theorem ofRatio_exact (x : FiniteBinary format) {ratio : Ratio}
    (top : 0 < ratio.numerator) (bottom : 0 < ratio.denominator)
    (exact : ratio.value = x.significand * (2 : ℚ) ^ x.exponent) :
    format.ofRatio x.negative ratio = .finite x := by
  obtain ⟨limit, least, -, filled⟩ := x.canonical
  have two : (2 : ℚ) ≠ 0 := by norm_num
  have positive : (0 : ℚ) < 2 ^ x.exponent := by positivity
  have fits : format.Fits ratio.value x.exponent := by
    refine ⟨least, ?_, filled.imp_right fun normal => ?_⟩
    · rw [exact, zpow_add₀ two, zpow_natCast]
      have inRange : (x.significand : ℚ) < 2 ^ format.precision := by exact_mod_cast limit
      gcongr
    · have normal' : (2 : ℚ) ^ (format.precision - 1) ≤ x.significand := by exact_mod_cast normal
      rw [exact, show (format.precision : Int) + x.exponent - 1 =
        (format.precision - 1) + x.exponent by ring, zpow_add₀ two]
      refine mul_le_mul_of_nonneg_right (le_trans ?_ normal') positive.le
      rw [← zpow_natCast]
      exact zpow_le_zpow_right₀ (by norm_num) (by omega)
  have exponent := fits_unique (roundingExponent_fits top bottom) fits
  have rounded : (ratio.divPow 2 x.exponent).roundHalfEven = x.significand := by
    refine Ratio.roundHalfEven_of_whole (Ratio.denominator_divPow bottom (by norm_num) _) ?_
    rw [Ratio.value_divPow ratio (by norm_num), exact, Nat.cast_ofNat,
      mul_div_cancel_right₀ _ positive.ne']
  unfold ofRatio
  simp only [exponent, rounded, if_neg limit.ne, dif_pos x.canonical]

end BinaryFormat

namespace Decimal

/-- The magnitude that a numeral stands for. -/
def number (numeral : Decimal) : ℚ := numeral.coefficient * (10 : ℚ) ^ numeral.exponent

theorem number_eq_zero_iff {numeral : Decimal} : numeral.number = 0 ↔ numeral.coefficient = 0 := by
  have power : (10 : ℚ) ^ numeral.exponent ≠ 0 := by positivity
  simp [number, power]

private theorem digitCount_pos (n : Nat) : 0 < digitCount n := Nat.length_toDigits_pos

/-- The digit count and the exponent enclose the magnitude between powers of ten. -/
theorem number_bounds {numeral : Decimal} (nonzero : numeral.coefficient ≠ 0) :
    (10 : ℚ) ^ ((digitCount numeral.coefficient : Int) + numeral.exponent - 1) ≤ numeral.number ∧
      numeral.number < (10 : ℚ) ^ ((digitCount numeral.coefficient : Int) + numeral.exponent) := by
  have ten : (10 : ℚ) ≠ 0 := by norm_num
  have positive : (0 : ℚ) < 10 ^ numeral.exponent := by positivity
  have below : numeral.coefficient < 10 ^ digitCount numeral.coefficient :=
    (Nat.length_toDigits_le_iff (by norm_num) (digitCount_pos _)).mp le_rfl
  have atLeast : 10 ^ (digitCount numeral.coefficient - 1) ≤ numeral.coefficient := by
    by_cases single : digitCount numeral.coefficient = 1
    · rw [single]
      omega
    · have more : 0 < digitCount numeral.coefficient - 1 := by
        have := digitCount_pos numeral.coefficient
        omega
      refine Nat.le_of_not_lt fun less => ?_
      have fewer := (Nat.length_toDigits_le_iff (by norm_num) more).mpr less
      unfold digitCount at fewer more
      omega
  constructor
  · rw [number, show (digitCount numeral.coefficient : Int) + numeral.exponent - 1 =
      ((digitCount numeral.coefficient - 1 : Nat) : Int) + numeral.exponent by
        have := digitCount_pos numeral.coefficient
        omega, zpow_add₀ ten, zpow_natCast]
    have atLeast' : (10 : ℚ) ^ (digitCount numeral.coefficient - 1) ≤ numeral.coefficient := by
      exact_mod_cast atLeast
    gcongr
  · rw [number, zpow_add₀ ten, zpow_natCast]
    have below' : (numeral.coefficient : ℚ) < 10 ^ digitCount numeral.coefficient := by
      exact_mod_cast below
    gcongr

/-- Numerals of the same magnitude have their leading digits at the same place. -/
private theorem leading_place_congr {a b : Decimal} (same : a.number = b.number)
    (nonzero : a.coefficient ≠ 0) :
    (digitCount a.coefficient : Int) + a.exponent = digitCount b.coefficient + b.exponent := by
  have nonzero' : b.coefficient ≠ 0 := by
    rw [Ne, ← number_eq_zero_iff, ← same, number_eq_zero_iff]
    exact nonzero
  obtain ⟨aLeast, aMost⟩ := number_bounds nonzero
  obtain ⟨bLeast, bMost⟩ := number_bounds nonzero'
  have grows : (1 : ℚ) < 10 := by norm_num
  have left := (zpow_lt_zpow_iff_right₀ grows).mp (lt_of_le_of_lt aLeast (same ▸ bMost))
  have right := (zpow_lt_zpow_iff_right₀ grows).mp (lt_of_le_of_lt bLeast (same ▸ aMost))
  omega

/-- The ratio that a numeral is rounded as. -/
theorem value_scaled (numeral : Decimal) :
    ((Ratio.ofNat numeral.coefficient).divPow 10 (-numeral.exponent)).value = numeral.number := by
  rw [Ratio.value_divPow _ (by norm_num), Ratio.value_ofNat, number, Nat.cast_ofNat, zpow_neg,
    div_inv_eq_mul]

theorem numerator_scaled {numeral : Decimal} (nonzero : numeral.coefficient ≠ 0) :
    0 < ((Ratio.ofNat numeral.coefficient).divPow 10 (-numeral.exponent)).numerator := by
  unfold Ratio.divPow
  split
  · exact Nat.pos_of_ne_zero nonzero
  · exact Nat.mul_pos (Nat.pos_of_ne_zero nonzero) (Nat.pow_pos (by norm_num))

theorem denominator_scaled (numeral : Decimal) :
    0 < ((Ratio.ofNat numeral.coefficient).divPow 10 (-numeral.exponent)).denominator :=
  Ratio.denominator_divPow Nat.one_pos (by norm_num) _

end Decimal

namespace Binary

variable {format : BinaryFormat}

/-- Numerals of the same sign and magnitude are read as the same value. -/
theorem ofDecimal_congr {a b : Decimal} (sign : a.negative = b.negative)
    (same : a.number = b.number) : ofDecimal format a = ofDecimal format b := by
  by_cases zero : a.coefficient = 0
  · have zero' : b.coefficient = 0 := by
      rwa [← Decimal.number_eq_zero_iff, ← same, Decimal.number_eq_zero_iff]
    simp only [ofDecimal, zero, zero', sign, if_true]
  · have nonzero : b.coefficient ≠ 0 := by
      rwa [Ne, ← Decimal.number_eq_zero_iff, ← same, Decimal.number_eq_zero_iff]
    have rounded : format.ofRatio b.negative
        ((Ratio.ofNat a.coefficient).divPow 10 (-a.exponent)) = format.ofRatio b.negative
        ((Ratio.ofNat b.coefficient).divPow 10 (-b.exponent)) :=
      BinaryFormat.ofRatio_congr b.negative (Decimal.numerator_scaled zero)
      (Decimal.denominator_scaled a) (Decimal.numerator_scaled nonzero)
      (Decimal.denominator_scaled b)
      ((Decimal.value_scaled a).trans (same.trans (Decimal.value_scaled b).symm))
    simp only [ofDecimal, zero, nonzero, if_false, Decimal.leading_place_congr same zero, sign,
      rounded]

end Binary

namespace FiniteBinary

variable {format : BinaryFormat}

/-- The magnitude of a value. -/
private theorem number_exactDecimal (x : FiniteBinary format) :
    x.exactDecimal.number = x.significand * (2 : ℚ) ^ x.exponent := by
  unfold exactDecimal Decimal.number
  split
  · rename_i up
    obtain ⟨n, exponent⟩ := Int.eq_ofNat_of_zero_le up
    simp [exponent]
  · rename_i down
    obtain ⟨n, exponent⟩ := Int.exists_eq_neg_ofNat (by omega : x.exponent ≤ 0)
    simp only [exponent, neg_neg, Int.toNat_natCast, Nat.pow_eq, Nat.cast_mul, Nat.cast_pow,
      Nat.cast_ofNat, zpow_neg, zpow_natCast]
    rw [show (10 : ℚ) = 5 * 2 by norm_num, mul_pow]
    field_simp

/-- The digits of a value stay within what its format can tell apart. -/
private theorem exactDecimal_in_range (x : FiniteBinary format) (nonzero : x.significand ≠ 0)
    (small : format.minExponent ≤ 0) (great : 0 ≤ format.maxExponent) :
    (Decimal.digitCount x.exactDecimal.coefficient : Int) + x.exactDecimal.exponent ≤
        format.maxExponent + format.precision ∧
      format.minExponent ≤
        (Decimal.digitCount x.exactDecimal.coefficient : Int) + x.exactDecimal.exponent := by
  obtain ⟨limit, least, most, -⟩ := x.canonical
  have limit' : x.significand < 2 ^ format.precision := limit
  have some : 0 < format.precision := by
    by_contra none
    rw [show format.precision = 0 by omega] at limit'
    omega
  unfold exactDecimal
  split
  · rename_i up
    dsimp only
    have digits : Decimal.digitCount (x.significand * Nat.pow 2 x.exponent.toNat) ≤
        format.precision + x.exponent.toNat := by
      refine (Nat.length_toDigits_le_iff (by norm_num) (by omega)).mpr ?_
      calc x.significand * Nat.pow 2 x.exponent.toNat
          < 2 ^ format.precision * 2 ^ x.exponent.toNat :=
            Nat.mul_lt_mul_of_pos_right limit' (Nat.pow_pos (by norm_num))
        _ = 2 ^ (format.precision + x.exponent.toNat) := (pow_add ..).symm
        _ ≤ 10 ^ (format.precision + x.exponent.toNat) := Nat.pow_le_pow_left (by norm_num) _
    omega
  · rename_i down
    dsimp only
    have digits : Decimal.digitCount (x.significand * Nat.pow 5 (-x.exponent).toNat) ≤
        format.precision + (-x.exponent).toNat := by
      refine (Nat.length_toDigits_le_iff (by norm_num) (by omega)).mpr ?_
      calc x.significand * Nat.pow 5 (-x.exponent).toNat
          < 2 ^ format.precision * 5 ^ (-x.exponent).toNat :=
            Nat.mul_lt_mul_of_pos_right limit' (Nat.pow_pos (by norm_num))
        _ ≤ 10 ^ format.precision * 10 ^ (-x.exponent).toNat :=
            Nat.mul_le_mul (Nat.pow_le_pow_left (by norm_num) _)
              (Nat.pow_le_pow_left (by norm_num) _)
        _ = 10 ^ (format.precision + (-x.exponent).toNat) := (pow_add ..).symm
    omega

/-- The exact numeral of a value is read as the value. -/
private theorem ofDecimal_exactDecimal (x : FiniteBinary format) (nonzero : x.significand ≠ 0)
    (small : format.minExponent ≤ 0) (great : 0 ≤ format.maxExponent) :
    Binary.ofDecimal format x.exactDecimal = .finite x := by
  have coefficient : x.exactDecimal.coefficient ≠ 0 := by
    rw [Ne, ← Decimal.number_eq_zero_iff, number_exactDecimal]
    positivity
  obtain ⟨upper, lower⟩ := exactDecimal_in_range x nonzero small great
  have sign : x.exactDecimal.negative = x.negative := by
    unfold exactDecimal
    split <;> rfl
  unfold Binary.ofDecimal
  dsimp only
  rw [if_neg coefficient, if_neg (by omega), if_neg (by omega), sign]
  exact BinaryFormat.ofRatio_exact x (Decimal.numerator_scaled coefficient)
    (Decimal.denominator_scaled _) ((Decimal.value_scaled _).trans (number_exactDecimal x))

/-- The shortest numeral of a value is read as the value, in every format whose
least exponent is not positive and whose greatest one is not negative. -/
theorem ofDecimal_shortest (x : FiniteBinary format) (small : format.minExponent ≤ 0)
    (great : 0 ≤ format.maxExponent) : Binary.ofDecimal format x.shortest = .finite x := by
  unfold shortest
  split
  · rename_i zero
    obtain ⟨negative, significand, exponent, canonical⟩ := x
    obtain rfl : significand = 0 := zero
    have least : exponent = format.minExponent := by
      refine canonical.2.2.2.resolve_right fun normal => ?_
      have := Nat.pow_pos (n := format.precision - 1) (by norm_num : 0 < 2)
      unfold BinaryFormat.leastNormal at normal
      simp only [Nat.pow_eq] at normal
      omega
    subst least
    simp [Binary.ofDecimal, BinaryFormat.zero, canonical]
  · rename_i nonzero
    dsimp only
    cases found : (List.range 17).findSome? fun (extra : Nat) =>
        x.withLastPlace? (leadingPower x.ratio - extra) with
    | none => exact ofDecimal_exactDecimal x nonzero small great
    | some numeral =>
      obtain ⟨extra, -, chosen⟩ := List.exists_of_findSome?_eq_some found
      have readsBack : x.readsBack numeral = true := by
        unfold withLastPlace? at chosen
        dsimp only at chosen
        split at chosen
        · rename_i below above
          cases chosen
          split
          · exact below
          · exact above
        · rename_i below above
          cases chosen
          exact below
        · rename_i below above
          cases chosen
          exact above
        · cases chosen
      simpa [FiniteBinary.readsBack] using readsBack

end FiniteBinary

end KernelGuard
