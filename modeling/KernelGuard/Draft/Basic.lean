import KernelGuard.IR.Instr

/-! A program as it is spelled, before constants have values and operands have
been checked against types. Operands, instructions and terminators remember
where they start. -/
namespace KernelGuard

/-- Something together with the number of characters left where it starts. -/
structure Marked (α : Type) where
  mark : Nat
  item : α
deriving DecidableEq, Repr

namespace Draft

/-- An operand as spelled. -/
inductive Form where
  | integer (text : String)
  | decimal (text : String)
  | truth (value : Bool)
  | localName (spelling : String)
  | globalName (spelling : String)
deriving DecidableEq, Repr

/-- An operand and where it starts. -/
abbrev Operand := Marked Form

/-- An operand behind its type. -/
structure TypedOperand where
  type : Ty
  operand : Operand
deriving DecidableEq, Repr

/-- A phi as spelled, with its sources in written order. -/
structure Phi where
  target : String
  type : Ty
  sources : List (Operand × Label)
deriving DecidableEq, Repr

/-- The instructions that stand between the phis and the terminator. -/
inductive Instr where
  | arith (target : String) (op : ArithOp) (type : Ty) (lhs rhs : Operand)
  | compare (target : String) (kind : CompareKind) (predicate : Predicate) (type : Ty)
      (lhs rhs : Operand)
  | convert (target : String) (op : ConvertOp) (operand : TypedOperand) (result : Ty)
  | load (target : String) (type : Ty) (address : TypedOperand)
  | elementPtr (target : String) (type : Ty) (address offset : TypedOperand)
  | call (target : Option String) (type : Ty) (callee : String) (args : List TypedOperand)
  | store (value address : TypedOperand)
deriving DecidableEq, Repr

/-- The ends of a block; a return without an operand is one of type `void`. -/
inductive Terminator where
  | jump (target : Label)
  | branch (condition : TypedOperand) (onTrue onFalse : Label)
  | ret (value : Option TypedOperand)
deriving DecidableEq, Repr

/-- A block as spelled. -/
structure Block where
  label : Label
  phis : List (Marked Phi)
  instrs : List (Marked Instr)
  terminator : Marked Terminator
deriving DecidableEq, Repr

/-- A function as spelled. -/
structure Function where
  name : String
  returnType : Ty
  params : List (Ty × String)
  blocks : List Block
deriving DecidableEq, Repr

/-- A global as spelled. -/
structure Global where
  name : String
  type : Ty
  initial : Option Operand
deriving DecidableEq, Repr

/-- A top-level item. Globals and functions may come in any order. -/
inductive Item where
  | global (global : Global)
  | function (function : Function)
deriving DecidableEq, Repr

end Draft

/-- A whole text as spelled. -/
abbrev Draft := List Draft.Item

end KernelGuard
