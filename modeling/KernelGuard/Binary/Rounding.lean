import KernelGuard.Binary.Format
import KernelGuard.Binary.Ratio
import KernelGuard.Decimal.Basic

/-! Rounding to a binary format. A ratio of natural numbers goes to the nearest
value, a tie to the even significand, and a magnitude beyond the greatest
finite value to infinity. All arithmetic is exact. -/
namespace KernelGuard

namespace BinaryFormat

/-- The exponent at which a positive ratio is rounded: the one that leaves as
many bits as the precision allows, but never less than the least exponent. The
bit lengths of the two numbers fix it up to one, and one comparison decides. -/
def roundingExponent (format : BinaryFormat) (ratio : Ratio) : Int :=
  let estimate := (ratio.numerator.log2 : Int) - ratio.denominator.log2 - format.precision
  let exponent := max format.minExponent estimate
  if format.significandLimit ≤ (ratio.divPow 2 exponent).floor then exponent + 1 else exponent

/-- The value nearest to a positive ratio. Rounding up to the next power of two
moves to the next exponent, and a pair that the format does not hold is too
large for it. -/
def ofRatio (format : BinaryFormat) (negative : Bool) (ratio : Ratio) : Binary format :=
  let exponent := format.roundingExponent ratio
  let rounded := (ratio.divPow 2 exponent).roundHalfEven
  let (significand, exponent) :=
    if rounded = format.significandLimit then (format.leastNormal, exponent + 1)
    else (rounded, exponent)
  if canonical : format.Canonical significand exponent then
    .finite ⟨negative, significand, exponent, canonical⟩
  else
    .infinite negative

/-- The zero of either sign, in a format that has the least exponent in range. -/
def zero (format : BinaryFormat) (negative : Bool) : Binary format :=
  if canonical : format.Canonical 0 format.minExponent then
    .finite ⟨negative, 0, format.minExponent, canonical⟩
  else
    .infinite negative

end BinaryFormat

/-- The value nearest to a decimal numeral. The number of digits shows when the
numeral is far outside the format, and then no power of ten is computed. -/
def Binary.ofDecimal (format : BinaryFormat) (numeral : Decimal) : Binary format :=
  let magnitude := (Decimal.digitCount numeral.coefficient : Int) + numeral.exponent
  if numeral.coefficient = 0 then format.zero numeral.negative
  else if format.maxExponent + format.precision < magnitude then .infinite numeral.negative
  else if magnitude < format.minExponent then format.zero numeral.negative
  else
    format.ofRatio numeral.negative
      ((Ratio.ofNat numeral.coefficient).divPow 10 (-numeral.exponent))

end KernelGuard
