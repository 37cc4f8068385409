import KernelGuard.Draft.Basic
import KernelGuard.Draft.Lexeme

/-! The grammar of the kernel language, one reader for each construct and named
after it. A text has at most one draft; which literals and types make sense is
no question of the grammar. -/
namespace KernelGuard.Draft

open Reader Lexeme

/-- Remembers where an item starts, behind the gap in front of it. -/
def marked {α : Type} (reader : Reader α) : Reader (Marked α) := do
  gap
  let mark ← Reader.mark
  let item ← reader
  return ⟨mark, item⟩

/-- A row with commas between its members, at least one. -/
def separated1 {α : Type} (reader : Reader α) : Reader (List α) := do
  let first ← reader
  let more ← many do
    symbol ','
    reader
  return first :: more

/-- A row with commas between its members, maybe empty. -/
def separated {α : Type} (reader : Reader α) : Reader (List α) :=
  (separated1 reader).orElse (pure [])

def type : Reader Ty := tabled Ty.ofText?

def number : Reader Form := do
  let (isInteger, text) ← numeral
  return if isInteger then .integer text else .decimal text

def truthValue : Reader Form := do
  let value ← truth
  return .truth value

def localOperand : Reader Form := do
  let name ← Lexeme.localName
  return .localName name

def globalOperand : Reader Form := do
  let name ← Lexeme.globalName
  return .globalName name

/-- A number or a truth value. -/
def constant : Reader Form := number.orElse truthValue

def operand : Reader Operand :=
  marked (constant.orElse (localOperand.orElse globalOperand))

def typedOperand : Reader TypedOperand := do
  let type ← type
  let operand ← operand
  return ⟨type, operand⟩

/-- Two operands of one type, which is written once. -/
def operandPair : Reader (Ty × Operand × Operand) := do
  let type ← type
  let lhs ← operand
  symbol ','
  let rhs ← operand
  return (type, lhs, rhs)

def arith (target : String) : Reader Instr := do
  let op ← tabled ArithOp.ofText?
  let (type, lhs, rhs) ← operandPair
  return .arith target op type lhs rhs

def compare (target : String) : Reader Instr := do
  let kind ← tabled CompareKind.ofText?
  let predicate ← tabled Predicate.ofText?
  let (type, lhs, rhs) ← operandPair
  return .compare target kind predicate type lhs rhs

def convert (target : String) : Reader Instr := do
  let op ← tabled ConvertOp.ofText?
  let operand ← typedOperand
  keyword "to"
  let result ← type
  return .convert target op operand result

def load (target : String) : Reader Instr := do
  keyword "load"
  let type ← type
  symbol ','
  let address ← typedOperand
  return .load target type address

def elementPtr (target : String) : Reader Instr := do
  keyword "getelementptr"
  let type ← type
  symbol ','
  let address ← typedOperand
  symbol ','
  let offset ← typedOperand
  return .elementPtr target type address offset

def call (target : Option String) : Reader Instr := do
  keyword "call"
  let type ← type
  let callee ← Lexeme.globalName
  symbol '('
  let args ← separated typedOperand
  symbol ')'
  return .call target type callee args

def store : Reader Instr := do
  keyword "store"
  let value ← typedOperand
  symbol ','
  let address ← typedOperand
  return .store value address

/-- The target of a definition and the sign behind it. -/
def defined : Reader String := do
  let target ← Lexeme.localName
  symbol '='
  return target

/-- What may stand behind the target of a definition, phis aside. -/
def definition (target : String) : Reader Instr :=
  (arith target).orElse <| (compare target).orElse <| (convert target).orElse <|
    (load target).orElse <| (elementPtr target).orElse (call (some target))

def definedInstr : Reader Instr := do
  let target ← defined
  definition target

def instr : Reader Instr := definedInstr.orElse ((call none).orElse store)

def phiSource : Reader (Operand × Label) := do
  symbol '['
  let value ← operand
  symbol ','
  let label ← Lexeme.localName
  symbol ']'
  return (value, label)

def phi : Reader Phi := do
  let target ← defined
  keyword "phi"
  let type ← type
  let sources ← separated1 phiSource
  return ⟨target, type, sources⟩

/-- A branch target. -/
def destination : Reader Label := do
  keyword "label"
  Lexeme.localName

def jump : Reader Terminator := do
  keyword "br"
  let target ← destination
  return .jump target

def branch : Reader Terminator := do
  keyword "br"
  let condition ← typedOperand
  symbol ','
  let onTrue ← destination
  symbol ','
  let onFalse ← destination
  return .branch condition onTrue onFalse

/-- A return of type `void` has no operand. -/
def ret : Reader Terminator := do
  keyword "ret"
  let type ← type
  if type = .void then
    return .ret none
  else
    let operand ← operand
    return .ret (some ⟨type, operand⟩)

def terminator : Reader Terminator := jump.orElse (branch.orElse ret)

def block : Reader Block := do
  let label ← blockLabel
  let phis ← many (marked phi)
  let instrs ← many (marked instr)
  let terminator ← marked terminator
  return ⟨label, phis, instrs, terminator⟩

def param : Reader (Ty × String) := do
  let type ← type
  let name ← Lexeme.localName
  return (type, name)

def function : Reader Function := do
  keyword "define"
  let returnType ← type
  let name ← Lexeme.globalName
  symbol '('
  let params ← separated param
  symbol ')'
  symbol '{'
  let blocks ← many1 block
  symbol '}'
  return ⟨name, returnType, params, blocks⟩

/-- The word `external` in front of `global` says nothing; whether a global is
defined elsewhere is decided by its initial value. -/
def global : Reader Global := do
  let name ← Lexeme.globalName
  symbol '='
  let _ ← (keyword "external").optional
  keyword "global"
  let type ← type
  let initial ← (marked constant).optional
  return ⟨name, type, initial⟩

def globalItem : Reader Item := do
  let found ← global
  return .global found

def functionItem : Reader Item := do
  let found ← function
  return .function found

def item : Reader Item := globalItem.orElse functionItem

def whole : Reader Draft := do
  let items ← many item
  gap
  ending
  return items

/-- The draft of a text, if the grammar fits the whole of it. -/
def ofText? (text : List Char) : Option Draft :=
  (whole text).map (·.1)

end KernelGuard.Draft
