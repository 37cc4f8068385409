import KernelGuard.IR.Ty

/-! The operators of the kernel language. For each kind of operator `all` lists
the operators, `text` is the written name, `ofText?` finds an operator by it, and
`accepts` says which operand types the operator takes. -/
namespace KernelGuard

/-- Two operands of one type and a result of that type. -/
inductive ArithOp where
  | add | sub | mul | sdiv | srem
  | fadd | fsub | fmul | fdiv | frem
  | shl | lshr | ashr | and | or | xor
deriving DecidableEq, Repr

namespace ArithOp

def all : List ArithOp :=
  [add, sub, mul, sdiv, srem, fadd, fsub, fmul, fdiv, frem, shl, lshr, ashr, .and, .or, .xor]

def text : ArithOp → String
  | add => "add"
  | sub => "sub"
  | mul => "mul"
  | sdiv => "sdiv"
  | srem => "srem"
  | fadd => "fadd"
  | fsub => "fsub"
  | fmul => "fmul"
  | fdiv => "fdiv"
  | frem => "frem"
  | shl => "shl"
  | lshr => "lshr"
  | ashr => "ashr"
  | .and => "and"
  | .or => "or"
  | .xor => "xor"

def ofText? (name : String) : Option ArithOp :=
  all.find? (·.text = name)

/-- The operators named with an `f` take floating operands, the others integers. -/
def accepts : ArithOp → Ty → Bool
  | fadd, type | fsub, type | fmul, type | fdiv, type | frem, type => type.isFloat
  | _, type => type.isInt

end ArithOp

/-- Whether a comparison looks at integers and pointers or at floating values. -/
inductive CompareKind where
  | icmp | fcmp
deriving DecidableEq, Repr

namespace CompareKind

def all : List CompareKind := [icmp, fcmp]

def text : CompareKind → String
  | icmp => "icmp"
  | fcmp => "fcmp"

def ofText? (name : String) : Option CompareKind :=
  all.find? (·.text = name)

def accepts : CompareKind → Ty → Bool
  | icmp, type => type.isInt || type.isPtr
  | fcmp, type => type.isFloat

end CompareKind

/-- The relation that a comparison tests: equality, the unsigned orders, the
signed orders, and the ordered floating relations. -/
inductive Predicate where
  | eq | ne
  | ugt | uge | ult | ule
  | sgt | sge | slt | sle
  | oeq | one | ogt | oge | olt | ole
deriving DecidableEq, Repr

namespace Predicate

def all : List Predicate :=
  [eq, ne, ugt, uge, ult, ule, sgt, sge, slt, sle, oeq, one, ogt, oge, olt, ole]

def text : Predicate → String
  | eq => "eq"
  | ne => "ne"
  | ugt => "ugt"
  | uge => "uge"
  | ult => "ult"
  | ule => "ule"
  | sgt => "sgt"
  | sge => "sge"
  | slt => "slt"
  | sle => "sle"
  | oeq => "oeq"
  | one => "one"
  | ogt => "ogt"
  | oge => "oge"
  | olt => "olt"
  | ole => "ole"

def ofText? (name : String) : Option Predicate :=
  all.find? (·.text = name)

def accepts : Predicate → Ty → Bool
  | oeq, type | one, type | ogt, type | oge, type | olt, type | ole, type => type.isFloat
  | _, type => type.isInt || type.isPtr

end Predicate

/-- Changes of width and changes between integers and floating values. -/
inductive ConvertOp where
  | trunc | zext | sext | sitofp | fptosi
deriving DecidableEq, Repr

namespace ConvertOp

def all : List ConvertOp := [trunc, zext, sext, sitofp, fptosi]

def text : ConvertOp → String
  | trunc => "trunc"
  | zext => "zext"
  | sext => "sext"
  | sitofp => "sitofp"
  | fptosi => "fptosi"

def ofText? (name : String) : Option ConvertOp :=
  all.find? (·.text = name)

/-- The operand types of a conversion. -/
def accepts : ConvertOp → Ty → Bool
  | fptosi, type => type.isFloat
  | _, type => type.isInt

/-- Which pairs of types a conversion joins: truncation narrows an integer, an
extension widens one, and the other two change the kind of number. -/
def joins : ConvertOp → Ty → Ty → Bool
  | trunc, source, result => source.isInt && result.isInt && decide (result.bits < source.bits)
  | zext, source, result | sext, source, result =>
    source.isInt && result.isInt && decide (source.bits < result.bits)
  | sitofp, source, result => source.isInt && result.isFloat
  | fptosi, source, result => source.isFloat && result.isInt

end ConvertOp

end KernelGuard
