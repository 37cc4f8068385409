import KernelGuard.Binary.Text
import KernelGuard.IR.Ty

/-! Temporaries, constants, and their text. A temporary is identified by its
name alone; the type travels along for printing and type checks. -/
namespace KernelGuard

/-- What identifies a temporary. Local and global names are apart even when
their spelling agrees. -/
structure Name where
  spelling : String
  isGlobal : Bool
deriving DecidableEq, Repr

/-- A name with its sigil: `%` for locals and `@` for globals. -/
def Name.text (name : Name) : String :=
  (if name.isGlobal then "@" else "%") ++ name.spelling

/-- A named value together with the type it is used at. -/
structure Temp where
  name : Name
  type : Ty
deriving DecidableEq, Repr

namespace Temp

def ofLocal (spelling : String) (type : Ty) : Temp := ⟨⟨spelling, false⟩, type⟩

/-- A global stands for an address. -/
def ofGlobal (spelling : String) : Temp := ⟨⟨spelling, true⟩, .ptr⟩

def text (temp : Temp) : String := temp.name.text

end Temp

/-- An operand: a constant of one of the five number types, or a temporary. -/
inductive Value where
  | bool (value : Bool)
  | int (value : Int32)
  | long (value : Int64)
  | float (value : Binary .single)
  | double (value : Binary .double)
  | temp (temp : Temp)
deriving DecidableEq

namespace Value

def type : Value → Ty
  | bool _ => .i1
  | int _ => .i32
  | long _ => .i64
  | float _ => .float
  | double _ => .double
  | temp t => t.type

/-- The temporary that an operand reads. -/
def temp? : Value → Option Temp
  | temp t => some t
  | _ => none

/-- The name of the temporary that an operand reads. -/
def name? (value : Value) : Option Name := value.temp?.map (·.name)

def isConstant (value : Value) : Bool := value.temp?.isNone

/-- Whether no floating constant stands here that is infinite or no number. -/
def isFinite : Value → Bool
  | float x => x.isFinite
  | double x => x.isFinite
  | _ => true

def text : Value → String
  | bool true => "true"
  | bool false => "false"
  | int n => toString n.toInt
  | long n => toString n.toInt
  | float x => x.text
  | double x => x.text
  | temp t => t.text

/-- The value with every read of one temporary replaced. -/
def substitute (name : Name) (replacement : Value) (value : Value) : Value :=
  if value.name? = some name then replacement else value

end Value

end KernelGuard
