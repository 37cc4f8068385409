import KernelGuard.IR.Text

/-! A module as it is written: globals and functions with their blocks, before
any edge between blocks is known. -/
namespace KernelGuard

/-- A global variable; one without an initial value is defined elsewhere. -/
structure Global where
  name : String
  type : Ty
  initial : Option Value
deriving DecidableEq

def Global.text (global : Global) : String :=
  match global.initial with
  | some value => "@" ++ global.name ++ " = global " ++ typed global.type value.text
  | none => "@" ++ global.name ++ " = external global " ++ global.type.text

/-- A block as written, which always ends in a terminator. -/
structure Module.Block where
  label : Label
  phis : List Phi
  instrs : List Instr
  terminator : Instr
deriving DecidableEq

/-- A function as written. -/
structure Module.Function where
  name : String
  returnType : Ty
  params : List Temp
  blocks : List Module.Block
deriving DecidableEq

/-- Globals and functions, each in written order. -/
structure Module where
  globals : List Global
  functions : List Module.Function
deriving DecidableEq

end KernelGuard
