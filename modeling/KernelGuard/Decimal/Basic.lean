/-! Decimal numerals: a sign, a coefficient and a power of ten. Reading keeps
every digit that is written; nothing here rounds. -/
namespace KernelGuard

/-- The numeral `± coefficient × 10 ^ exponent`. The sign is kept also when the
coefficient is zero, because binary formats tell the two zeros apart. -/
structure Decimal where
  negative : Bool
  coefficient : Nat
  exponent : Int
deriving DecidableEq, Repr

namespace Decimal

/-- How many decimal digits a natural number is written with; zero has one. -/
def digitCount (n : Nat) : Nat :=
  (Nat.toDigits 10 n).length

/-- The same value with no factor ten left in the coefficient. -/
def stripZeros (coefficient : Nat) (exponent : Int) : Nat × Int :=
  if coefficient ≠ 0 ∧ coefficient % 10 = 0 then stripZeros (coefficient / 10) (exponent + 1)
  else (coefficient, exponent)
termination_by coefficient
decreasing_by omega

/-- Takes a sign off the front of a numeral; no sign counts as plus. -/
def takeSign : List Char → Bool × List Char
  | '-' :: rest => (true, rest)
  | '+' :: rest => (false, rest)
  | rest => (false, rest)

/-- The value of a non-empty run of decimal digits. -/
def natural? (digits : List Char) : Option Nat :=
  if digits ≠ [] ∧ digits.all Char.isDigit then some (Nat.ofDigitChars 10 digits 0) else none

/-- An integer: an optional sign and at least one digit. -/
def integer? (numeral : List Char) : Option Int :=
  let (negative, digits) := takeSign numeral
  (natural? digits).map fun n => if negative then -(n : Int) else n

/-- The exponent part of a numeral, which may be missing. -/
def exponent? : List Char → Option Int
  | [] => some 0
  | c :: rest => if c = 'e' ∨ c = 'E' then integer? rest else none

/-- Reads `sign digits . digits exponent`. The sign, the point with its digits
and the exponent may be missing, but one digit has to stand in front of the
exponent. -/
def ofChars? (numeral : List Char) : Option Decimal :=
  let (negative, unsigned) := takeSign numeral
  let whole := unsigned.takeWhile Char.isDigit
  let (fraction, tail) := match unsigned.dropWhile Char.isDigit with
    | '.' :: rest => (rest.takeWhile Char.isDigit, rest.dropWhile Char.isDigit)
    | rest => ([], rest)
  match natural? (whole ++ fraction), exponent? tail with
  | some coefficient, some exponent => some ⟨negative, coefficient, exponent - fraction.length⟩
  | _, _ => none

end Decimal

end KernelGuard
