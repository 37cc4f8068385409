import KernelGuard.IR.Value

/-! Reading constants at a type, and operands written out of context as
`type value`. -/
namespace KernelGuard

/-- A signed 32-bit constant, if the integer is in range. -/
def Value.ofInt32? (n : Int) : Option Value :=
  if Int32.minValue.toInt ≤ n ∧ n ≤ Int32.maxValue.toInt then
    some (.int (Int32.ofInt n))
  else none

/-- A signed 64-bit constant, if the integer is in range. -/
def Value.ofInt64? (n : Int) : Option Value :=
  if Int64.minValue.toInt ≤ n ∧ n ≤ Int64.maxValue.toInt then
    some (.long (Int64.ofInt n))
  else none

/-- A constant of a type from its text. Truth values are words here. -/
def Ty.constant? (type : Ty) (text : String) : Option Value :=
  match type with
  | .i1 => match text with
    | "true" => some (.bool true)
    | "false" => some (.bool false)
    | _ => none
  | .i32 => (Decimal.integer? text.toList).bind Value.ofInt32?
  | .i64 => (Decimal.integer? text.toList).bind Value.ofInt64?
  | .float => (Binary.ofText? .single text).map .float
  | .double => (Binary.ofText? .double text).map .double
  | .ptr | .void => none

/-- An operand from the text of its value. A temporary may be given any type, a
global as well as a local one. -/
def Ty.operand? (type : Ty) (text : String) : Option Value :=
  match text.toList with
  | '%' :: spelling => some (.temp ⟨⟨String.ofList spelling, false⟩, type⟩)
  | '@' :: spelling => some (.temp ⟨⟨String.ofList spelling, true⟩, type⟩)
  | _ => type.constant? text

/-- An operand written as a type, one space, and a value. -/
def Value.ofTypedText? (text : String) : Option Value :=
  let (name, rest) := text.toList.span (· ≠ ' ')
  match rest with
  | _ :: value => (Ty.ofText? (String.ofList name)).bind (·.operand? (String.ofList value))
  | [] => none

/-- The typed form of an operand: its type, one space, its value. -/
def Value.typedText (value : Value) : String :=
  value.type.text ++ " " ++ value.text

/-- The typed form of a temporary. -/
def Temp.typedText (temp : Temp) : String :=
  temp.type.text ++ " " ++ temp.text

end KernelGuard
