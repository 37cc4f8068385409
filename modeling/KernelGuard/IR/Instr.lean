import KernelGuard.IR.Operator
import KernelGuard.IR.Value

/-! Instructions, and the few facts about them that everything else is built
on: what an instruction reads, what it writes, and where it may go. -/
namespace KernelGuard

/-- The name of a block, without a sigil. -/
abbrev Label := String

/-- A value chosen by the block that control comes from. -/
structure Phi where
  target : Temp
  type : Ty
  sources : List (Value × Label)
deriving DecidableEq

/-- One instruction. The last three kinds end a block. -/
inductive Instr where
  | arith (target : Temp) (op : ArithOp) (type : Ty) (lhs rhs : Value)
  | compare (target : Temp) (kind : CompareKind) (predicate : Predicate) (type : Ty)
      (lhs rhs : Value)
  | convert (target : Temp) (op : ConvertOp) (source : Ty) (operand : Value) (result : Ty)
  | load (target : Temp) (type : Ty) (address : Value)
  | store (value address : Value)
  | elementPtr (target : Temp) (type : Ty) (address offset : Value)
  | call (target : Option Temp) (type : Ty) (callee : String) (args : List (Ty × Value))
  | phi (phi : Phi)
  | jump (target : Label)
  | branch (type : Ty) (condition : Value) (onTrue onFalse : Label)
  | ret (value : Option Value)
deriving DecidableEq

namespace Phi

def operands (phi : Phi) : List Value := phi.sources.map (·.1)

def mapOperands (f : Value → Value) (phi : Phi) : Phi :=
  { phi with sources := phi.sources.map fun source => (f source.1, source.2) }

end Phi

namespace Instr

/-- Every operand, in written order. -/
def operands : Instr → List Value
  | arith _ _ _ lhs rhs => [lhs, rhs]
  | compare _ _ _ _ lhs rhs => [lhs, rhs]
  | convert _ _ _ operand _ => [operand]
  | load _ _ address => [address]
  | store value address => [value, address]
  | elementPtr _ _ address offset => [address, offset]
  | call _ _ _ args => args.map (·.2)
  | phi p => p.operands
  | jump _ => []
  | branch _ condition _ _ => [condition]
  | ret value => value.toList

/-- Changes every operand and nothing else. -/
def mapOperands (f : Value → Value) : Instr → Instr
  | arith target op type lhs rhs => arith target op type (f lhs) (f rhs)
  | compare target kind predicate type lhs rhs =>
    compare target kind predicate type (f lhs) (f rhs)
  | convert target op source operand result => convert target op source (f operand) result
  | load target type address => load target type (f address)
  | store value address => store (f value) (f address)
  | elementPtr target type address offset => elementPtr target type (f address) (f offset)
  | call target type callee args => call target type callee (args.map fun arg => (arg.1, f arg.2))
  | phi p => phi (p.mapOperands f)
  | jump target => jump target
  | branch type condition onTrue onFalse => branch type (f condition) onTrue onFalse
  | ret value => ret (value.map f)

/-- The temporaries read, in written order and with repetitions. -/
def reads (instr : Instr) : List Temp := instr.operands.filterMap Value.temp?

/-- The temporary written. -/
def target? : Instr → Option Temp
  | arith target .. | compare target .. | convert target .. | load target ..
  | elementPtr target .. => some target
  | call target .. => target
  | phi p => some p.target
  | store .. | jump .. | branch .. | ret .. => none

/-- Whether the instruction writes the temporary of a name. -/
def writes (instr : Instr) (name : Name) : Bool := instr.target?.map (·.name) = some name

/-- The labels that control may go to, in written order. -/
def targets : Instr → List Label
  | jump target => [target]
  | branch _ _ onTrue onFalse => [onTrue, onFalse]
  | _ => []

/-- Whether control goes on to the next instruction. -/
def isSequential : Instr → Bool
  | jump .. | branch .. | ret .. => false
  | _ => true

def isReturn : Instr → Bool
  | ret .. => true
  | _ => false

def isPhi : Instr → Bool
  | phi .. => true
  | _ => false

def isCall : Instr → Bool
  | call .. => true
  | _ => false

/-- How many operands read the temporary of a name. -/
def occurrences (instr : Instr) (name : Name) : Nat :=
  instr.operands.countP (·.name? = some name)

/-- The instruction with every read of one temporary replaced. -/
def substitute (name : Name) (replacement : Value) (instr : Instr) : Instr :=
  instr.mapOperands (Value.substitute name replacement)

end Instr

end KernelGuard
