/-! Ratios of natural numbers, not reduced, and their scaling by powers. -/
namespace KernelGuard

/-- A numerator over a denominator. -/
structure Ratio where
  numerator : Nat
  denominator : Nat
deriving DecidableEq, Repr

namespace Ratio

def ofNat (n : Nat) : Ratio := ⟨n, 1⟩

/-- The ratio divided by a power, which may be negative. -/
def divPow (ratio : Ratio) (base : Nat) (exponent : Int) : Ratio :=
  if 0 ≤ exponent then
    { ratio with denominator := ratio.denominator * Nat.pow base exponent.toNat }
  else
    { ratio with numerator := ratio.numerator * Nat.pow base (-exponent).toNat }

/-- The integral part. -/
def floor (ratio : Ratio) : Nat := ratio.numerator / ratio.denominator

/-- The nearest natural number; a tie goes to the even one. -/
def roundHalfEven (ratio : Ratio) : Nat :=
  let twice := 2 * (ratio.numerator % ratio.denominator)
  if twice < ratio.denominator ∨ (twice = ratio.denominator ∧ ratio.floor % 2 = 0) then
    ratio.floor
  else
    ratio.floor + 1

end Ratio

end KernelGuard
