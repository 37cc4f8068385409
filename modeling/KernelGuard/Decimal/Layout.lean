import KernelGuard.Decimal.Basic

/-! How a decimal numeral is laid out as text. The choice between positional
and scientific layout hangs on the power of ten of the leading digit alone. -/
namespace KernelGuard.Decimal

/-- The powers of ten of the leading digit for which a numeral is written
positionally; all others are written with an exponent. -/
structure Layout where
  leastPositional : Int
  greatestPositional : Int
deriving DecidableEq, Repr

/-- Digits with a point and no exponent. An integral numeral keeps the digit
zero behind the point. -/
def positional (digits : List Char) (exponent : Int) : List Char :=
  if 0 ≤ exponent then
    digits ++ List.replicate exponent.toNat '0' ++ ['.', '0']
  else
    let places := (-exponent).toNat
    if places < digits.length then
      digits.take (digits.length - places) ++ '.' :: digits.drop (digits.length - places)
    else
      ['0', '.'] ++ List.replicate (places - digits.length) '0' ++ digits

/-- One digit, the further digits behind a point if there are any, and the
power of ten with no plus sign and no padding. -/
def scientific (digits : List Char) (leading : Int) : List Char :=
  match digits with
  | [] => []
  | [digit] => digit :: 'e' :: (toString leading).toList
  | digit :: more => digit :: '.' :: more ++ 'e' :: (toString leading).toList

/-- The text of a numeral. Zeros at the end of the coefficient do not count, and
zero itself is positional. -/
def Layout.render (layout : Layout) (numeral : Decimal) : String :=
  let magnitude :=
    if numeral.coefficient = 0 then ['0', '.', '0']
    else
      let (coefficient, exponent) := stripZeros numeral.coefficient numeral.exponent
      let digits := Nat.toDigits 10 coefficient
      let leading := exponent + digits.length - 1
      if layout.leastPositional ≤ leading ∧ leading ≤ layout.greatestPositional then
        positional digits exponent
      else
        scientific digits leading
  String.ofList (if numeral.negative then '-' :: magnitude else magnitude)

end KernelGuard.Decimal
