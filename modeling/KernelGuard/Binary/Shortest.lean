import KernelGuard.Binary.Rounding

/-! The shortest decimal numeral that rounds back to a finite binary value. For
each digit count from one on, the two neighbours of the value among the numerals
with that many digits are read back; the first count with a hit wins. -/
namespace KernelGuard.FiniteBinary

variable {format : BinaryFormat}

/-- The exact magnitude. -/
def ratio (x : FiniteBinary format) : Ratio := (Ratio.ofNat x.significand).divPow 2 (-x.exponent)

/-- The exact value as a decimal numeral, possible because two divides ten. -/
def exactDecimal (x : FiniteBinary format) : Decimal :=
  if 0 ≤ x.exponent then ⟨x.negative, x.significand * Nat.pow 2 x.exponent.toNat, 0⟩
  else ⟨x.negative, x.significand * Nat.pow 5 (-x.exponent).toNat, x.exponent⟩

/-- The power of ten of the leading digit of a positive ratio. The digit counts
fix it up to one. -/
def leadingPower (ratio : Ratio) : Int :=
  let estimate :=
    (Decimal.digitCount ratio.numerator : Int) - Decimal.digitCount ratio.denominator
  if (ratio.divPow 10 estimate).floor = 0 then estimate - 1 else estimate

/-- Whether a numeral rounds to the value. -/
def readsBack (x : FiniteBinary format) (numeral : Decimal) : Bool :=
  Binary.ofDecimal format numeral = .finite x

/-- Of the two numerals with a given last place that enclose the value, one that
rounds back to it: the nearer one if both do, the greater one on a tie. -/
def withLastPlace? (x : FiniteBinary format) (place : Int) : Option Decimal :=
  let scaled := x.ratio.divPow 10 place
  let below : Decimal := ⟨x.negative, scaled.floor, place⟩
  let above : Decimal := ⟨x.negative, scaled.floor + 1, place⟩
  let nearerBelow := 2 * (scaled.numerator % scaled.denominator) < scaled.denominator
  match x.readsBack below, x.readsBack above with
  | true, true => some (if nearerBelow then below else above)
  | true, false => some below
  | false, true => some above
  | false, false => none

/-- The shortest numeral that rounds back. Seventeen digits are enough in both
formats; a longer value would be written out exactly. -/
def shortest (x : FiniteBinary format) : Decimal :=
  if x.significand = 0 then ⟨x.negative, 0, 0⟩
  else
    let leading := leadingPower x.ratio
    ((List.range 17).findSome? fun (extra : Nat) =>
      x.withLastPlace? (leading - extra)).getD x.exactDecimal

end KernelGuard.FiniteBinary
