import KernelGuard.Binary.Shortest
import KernelGuard.Decimal.Layout

/-! The text of binary values. Writing takes the shortest numeral that reads
back; reading also knows the words for the values that are not finite. -/
namespace KernelGuard.Binary

/-- Numerals from `0.0001` up to below ten to the sixteenth are positional. -/
def layout : Decimal.Layout := ⟨-4, 15⟩

/-- The written form of a value. -/
def text {format : BinaryFormat} : Binary format → String
  | .finite x => layout.render x.shortest
  | .infinite false => "inf"
  | .infinite true => "-inf"
  | .nan => "NaN"

/-- Reads a numeral, or one of the words for infinity and for no number in any
case of letters, each after an optional sign. -/
def ofText? (format : BinaryFormat) (text : String) : Option (Binary format) :=
  let (negative, unsigned) := Decimal.takeSign text.toList
  match String.ofList (unsigned.map Char.toLower) with
  | "inf" | "infinity" => some (.infinite negative)
  | "nan" => some .nan
  | _ => (Decimal.ofChars? text.toList).map (ofDecimal format)

end KernelGuard.Binary
