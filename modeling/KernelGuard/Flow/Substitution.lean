import KernelGuard.Flow.Func

/-! Substitution and erasure over a whole function. Edges are never touched. -/
namespace KernelGuard.Func

/-- Every operand of the function, in block order. -/
def operands (func : Func) : List Value :=
  func.blocks.flatMap fun block => block.code.flatMap Instr.operands

/-- How many operands of the function read a temporary. -/
def occurrences (func : Func) (name : Name) : Nat :=
  func.operands.countP (·.name? = some name)

/-- Replaces every read of a temporary. -/
def substitute (func : Func) (name : Name) (replacement : Value) : Func :=
  { func with blocks := func.blocks.map (Block.mapOperands (Value.substitute name replacement)) }

/-- Erases the definitions of a temporary from the first block that has one. -/
def eraseIn (name : Name) : List Block → Option (List Block)
  | [] => none
  | block :: rest =>
    if block.defines name then some (block.withoutDefinition name :: rest)
    else (eraseIn name rest).map (block :: ·)

/-- Erases the definitions of a temporary from the first block that has one;
nothing where there is none. -/
def eraseDefinition? (func : Func) (name : Name) : Option Func :=
  (eraseIn name func.blocks).map fun blocks => { func with blocks }

/-- Erases the definition of a temporary and hands a value to its readers;
nothing where nothing defines it. -/
def replaceDefinition? (func : Func) (name : Name) (value : Value) : Option Func :=
  (func.eraseDefinition? name).map (·.substitute name value)

end KernelGuard.Func
