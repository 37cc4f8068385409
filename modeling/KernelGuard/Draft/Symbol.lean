/-! The symbols of the grammar, by which a misfit between a text and the grammar
is explained. -/
namespace KernelGuard

/-- A symbol of the grammar that can be missed. -/
inductive GrammarSymbol where
  | ending
  | spelling | localName | globalName | blockLabel
  | i1 | i32 | i64 | float | double | ptr | void | type
  | decimal | integer | truth | operand | constant
  | arithOp | compareKind | predicate | convertOp
  | arith | compare | convert | load | elementPtr
  | argument | definedCall | call | store
  | phiSource | phi
  | jump | branch | ret
  | instr | terminator | block
  | param | function | external | global | program
deriving DecidableEq, Repr

namespace GrammarSymbol

/-- Every symbol, in the order in which symbols are listed. -/
def all : List GrammarSymbol :=
  [ending, spelling, localName, globalName, blockLabel, i1, i32, i64, float, double, ptr, void,
    type, decimal, integer, truth, operand, constant, arithOp, compareKind, predicate, convertOp,
    arith, compare, convert, load, elementPtr, argument, definedCall, call, store, phiSource, phi,
    jump, branch, ret, instr, terminator, block, param, function, external, global, program]

/-- The name under which a symbol is listed. -/
def text : GrammarSymbol → String
  | ending => "EOI"
  | spelling => "Ident"
  | localName => "Local"
  | globalName => "Global"
  | blockLabel => "LabelDef"
  | i1 => "I1"
  | i32 => "I32"
  | i64 => "I64"
  | float => "F32"
  | double => "F64"
  | ptr => "PtrT"
  | void => "VoidT"
  | type => "Type"
  | decimal => "FloatLit"
  | integer => "Integer"
  | truth => "BoolLit"
  | operand => "Value"
  | constant => "GlobalInit"
  | arithOp => "ArithOp"
  | compareKind => "CompKind"
  | predicate => "CompOp"
  | convertOp => "ConvertOp"
  | arith => "Arith"
  | compare => "Comp"
  | convert => "Convert"
  | load => "Load"
  | elementPtr => "Gep"
  | argument => "Arg"
  | definedCall => "CallDef"
  | call => "Call"
  | store => "Store"
  | phiSource => "PhiSource"
  | phi => "Phi"
  | jump => "Jump"
  | branch => "JumpCond"
  | ret => "Ret"
  | instr => "Instr"
  | terminator => "Terminator"
  | block => "Block"
  | param => "Param"
  | function => "Func"
  | external => "External"
  | global => "GlobalDecl"
  | program => "Program"

end GrammarSymbol

end KernelGuard
