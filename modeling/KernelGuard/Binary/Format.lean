/-! Binary floating formats and their values. A value is kept by meaning, as a
sign, a significand and an exponent, and its representation is unique. -/
namespace KernelGuard

/-- A binary format: the finite values are `significand × 2 ^ exponent` with a
significand of at most `precision` bits. -/
structure BinaryFormat where
  precision : Nat
  minExponent : Int
  maxExponent : Int
deriving DecidableEq, Repr

namespace BinaryFormat

/-- Single precision. -/
def single : BinaryFormat := ⟨24, -149, 104⟩

/-- Double precision. -/
def double : BinaryFormat := ⟨53, -1074, 971⟩

/-- Significands are less than this. -/
def significandLimit (format : BinaryFormat) : Nat := Nat.pow 2 format.precision

/-- The least significand that fills the precision. -/
def leastNormal (format : BinaryFormat) : Nat := Nat.pow 2 (format.precision - 1)

/-- A significand fills the precision unless the exponent is the least one, so
every magnitude has one canonical pair. -/
def Canonical (format : BinaryFormat) (significand : Nat) (exponent : Int) : Prop :=
  significand < format.significandLimit ∧
    format.minExponent ≤ exponent ∧ exponent ≤ format.maxExponent ∧
    (exponent = format.minExponent ∨ format.leastNormal ≤ significand)

instance (format : BinaryFormat) (significand : Nat) (exponent : Int) :
    Decidable (format.Canonical significand exponent) :=
  inferInstanceAs (Decidable (_ ∧ _))

end BinaryFormat

/-- A finite value of a format. Zero has the least exponent and either sign. -/
structure FiniteBinary (format : BinaryFormat) where
  negative : Bool
  significand : Nat
  exponent : Int
  canonical : format.Canonical significand exponent
deriving DecidableEq, Repr

/-- A value of a format. There is one value that is no number; its bits do not
matter here. -/
inductive Binary (format : BinaryFormat) where
  | finite (value : FiniteBinary format)
  | infinite (negative : Bool)
  | nan
deriving DecidableEq, Repr

/-- Whether a value is neither infinite nor the one that is no number. -/
def Binary.isFinite {format : BinaryFormat} : Binary format → Bool
  | .finite _ => true
  | _ => false

end KernelGuard
