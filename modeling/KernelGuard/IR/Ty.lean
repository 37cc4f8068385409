/-! The types of the kernel language. -/
namespace KernelGuard

/-- Three integer widths, two floating formats, pointers, and the type of no
value. -/
inductive Ty where
  | i1 | i32 | i64 | float | double | ptr | void
deriving DecidableEq, Repr

namespace Ty

/-- Every type, narrow ones first. -/
def all : List Ty := [i1, i32, i64, float, double, ptr, void]

/-- The written name. -/
def text : Ty → String
  | i1 => "i1"
  | i32 => "i32"
  | i64 => "i64"
  | float => "float"
  | double => "double"
  | ptr => "ptr"
  | void => "void"

/-- The type with a written name. -/
def ofText? (name : String) : Option Ty :=
  all.find? (·.text = name)

def isInt : Ty → Bool
  | i1 | i32 | i64 => true
  | _ => false

def isFloat : Ty → Bool
  | float | double => true
  | _ => false

def isPtr : Ty → Bool
  | ptr => true
  | _ => false

def isVoid : Ty → Bool
  | void => true
  | _ => false

/-- The width of a value in bits. -/
def bits : Ty → Nat
  | i1 => 1
  | i32 | float => 32
  | i64 | double | ptr => 64
  | void => 0

end Ty

end KernelGuard
