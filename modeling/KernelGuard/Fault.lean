import KernelGuard.Draft.Expectation
import KernelGuard.IR.Ty

/-! Everything that can go wrong, as causes, and the wording of each. -/
namespace KernelGuard

/-- What is wrong with an item that the grammar allows. -/
inductive Complaint where
  | invalidLiteral (type : Ty) (literal : String)
  | unexpectedOperand (type : Ty)
  | illTyped (instr : String)
deriving DecidableEq, Repr

/-- The wording of a complaint, without its place. -/
def Complaint.message : Complaint → String
  | invalidLiteral type literal => "invalid " ++ type.text ++ " literal '" ++ literal ++ "'"
  | unexpectedOperand type => "unexpected " ++ type.text ++ " operand"
  | illTyped instr => "ill-typed instruction '" ++ instr ++ "'"

/-- Why a program cannot be read or a request cannot be served. -/
inductive Fault where
  | grammar (misfit : Misfit)
  | complaint (position : Position) (cause : Complaint)
  | duplicateLabel (label function : String)
  | undefinedLabel (label : String)
  | missingFunction (name : String)
  | unknownPass (name : String)
  | system (reason : String)
deriving DecidableEq, Repr

/-- The wording of a fault. -/
def Fault.message : Fault → String
  | grammar misfit => "llvm syntax error: " ++ misfit.text
  | complaint position cause =>
    "llvm syntax error: " ++ position.text ++ ": " ++ cause.message
  | duplicateLabel label function =>
    "llvm syntax error: label '%" ++ label ++ "' defined twice in '@" ++ function ++ "'"
  | undefinedLabel label => "undefined label '%" ++ label ++ "'"
  | missingFunction name => "no function named '@" ++ name ++ "'"
  | unknownPass name => "unknown pass '" ++ name ++ "'"
  | system reason => "system error: " ++ reason

end KernelGuard
