import KernelGuard.IR.Instr

/-! The written form of instructions. -/
namespace KernelGuard

/-- Pieces of text joined by a comma and a space. -/
def commaSeparated (pieces : List String) : String := ", ".intercalate pieces

/-- A type in front of the text of an operand of it. -/
def typed (type : Ty) (operand : String) : String := type.text ++ " " ++ operand

def Phi.text (phi : Phi) : String :=
  phi.target.text ++ " = phi " ++ phi.type.text ++ " " ++
    commaSeparated (phi.sources.map fun source =>
      "[ " ++ source.1.text ++ ", %" ++ source.2 ++ " ]")

/-- Addresses are always written as pointers; the type of a stored value, of an
offset and of a returned value is the one the operand carries. -/
def Instr.text : Instr → String
  | arith target op type lhs rhs =>
    target.text ++ " = " ++ op.text ++ " " ++
      commaSeparated [typed type lhs.text, rhs.text]
  | compare target kind predicate type lhs rhs =>
    target.text ++ " = " ++ kind.text ++ " " ++ predicate.text ++ " " ++
      commaSeparated [typed type lhs.text, rhs.text]
  | convert target op source operand result =>
    target.text ++ " = " ++ op.text ++ " " ++ typed source operand.text ++ " to " ++ result.text
  | load target type address =>
    target.text ++ " = load " ++ commaSeparated [type.text, typed .ptr address.text]
  | store value address =>
    "store " ++ commaSeparated [typed value.type value.text, typed .ptr address.text]
  | elementPtr target type address offset =>
    target.text ++ " = getelementptr " ++
      commaSeparated [type.text, typed .ptr address.text, typed offset.type offset.text]
  | call target type callee args =>
    (match target with
      | some temp => temp.text ++ " = "
      | none => "") ++
      "call " ++ type.text ++ " @" ++ callee ++ "(" ++
      commaSeparated (args.map fun arg => typed arg.1 arg.2.text) ++ ")"
  | phi p => p.text
  | jump target => "br label %" ++ target
  | branch type condition onTrue onFalse =>
    "br " ++ commaSeparated
      [typed type condition.text, "label %" ++ onTrue, "label %" ++ onFalse]
  | ret (some value) => "ret " ++ typed value.type value.text
  | ret none => "ret void"

end KernelGuard
