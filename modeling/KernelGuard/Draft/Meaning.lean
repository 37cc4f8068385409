import KernelGuard.Draft.Basic
import KernelGuard.Draft.Grammar
import KernelGuard.Fault
import KernelGuard.IR.Literal
import KernelGuard.IR.Module
import KernelGuard.IR.Typing

/-! From a draft to a module. Literals take the type they are written at, and
every instruction has to pass the type check. The first offending item in
written order decides what is reported. -/
namespace KernelGuard

/-- A complaint and the number of characters left where it applies. -/
abbrev Offence := Marked Complaint

namespace Draft

/-- The value of a numeral at a type. An integer type takes integers in its
range, and the two truth values are written `0` and `1`. -/
def numeralValue? (type : Ty) (numeral : String) : Option Value :=
  match type with
  | .i1 =>
    if numeral = "0" then some (.bool false)
    else if numeral = "1" then some (.bool true)
    else none
  | .i32 => (Decimal.integer? numeral.toList).bind Value.ofInt32?
  | .i64 => (Decimal.integer? numeral.toList).bind Value.ofInt64?
  | .float => (Decimal.ofChars? numeral.toList).map fun d => .float (.ofDecimal .single d)
  | .double => (Decimal.ofChars? numeral.toList).map fun d => .double (.ofDecimal .double d)
  | .ptr | .void => none

/-- The value of an operand's form at a type, or what is wrong with it. A numeral
with a point or an exponent needs a floating type, and a global is an address
whatever type is written. -/
def Form.value (type : Ty) : Form → Except Complaint Value
  | .integer numeral =>
    match numeralValue? type numeral with
    | some value => .ok value
    | none => .error (.invalidLiteral type numeral)
  | .decimal numeral =>
    match if type.isFloat then numeralValue? type numeral else none with
    | some value => .ok value
    | none => .error (.invalidLiteral type numeral)
  | .truth value => if type = .i1 then .ok (.bool value) else .error (.unexpectedOperand type)
  | .localName spelling => .ok (.temp (.ofLocal spelling type))
  | .globalName spelling => .ok (.temp (.ofGlobal spelling))

/-- The value of an operand written at a type. What is wrong with it is wrong
where it starts. -/
def Operand.value (type : Ty) (operand : Operand) : Except Offence Value :=
  match operand.item.value type with
  | .ok value => .ok value
  | .error complaint => .error ⟨operand.mark, complaint⟩

/-- The value of an operand at the type written in front of it. -/
def TypedOperand.value (typed : TypedOperand) : Except Offence Value :=
  Operand.value typed.type typed.operand

def Phi.meaning (phi : Phi) : Except Offence KernelGuard.Phi := do
  let sources ← phi.sources.mapM fun source => do
    let value ← Operand.value phi.type source.1
    return (value, source.2)
  return ⟨.ofLocal phi.target phi.type, phi.type, sources⟩

/-- Operands are read in written order. A comparison yields a truth value and an
element address a pointer. -/
def Instr.meaning : Instr → Except Offence KernelGuard.Instr
  | arith target op type lhs rhs => do
    let lhs ← Operand.value type lhs
    let rhs ← Operand.value type rhs
    return .arith (.ofLocal target type) op type lhs rhs
  | compare target kind predicate type lhs rhs => do
    let lhs ← Operand.value type lhs
    let rhs ← Operand.value type rhs
    return .compare (.ofLocal target .i1) kind predicate type lhs rhs
  | convert target op operand result => do
    let value ← operand.value
    return .convert (.ofLocal target result) op operand.type value result
  | load target type address => do
    let address ← address.value
    return .load (.ofLocal target type) type address
  | elementPtr target type address offset => do
    let address ← address.value
    let offset ← offset.value
    return .elementPtr (.ofLocal target .ptr) type address offset
  | call target type callee args => do
    let args ← args.mapM fun arg => do
      let value ← arg.value
      return (arg.type, value)
    return .call (target.map (Temp.ofLocal · type)) type callee args
  | store value address => do
    let value ← value.value
    let address ← address.value
    return .store value address

def Terminator.meaning : Terminator → Except Offence KernelGuard.Instr
  | jump target => return .jump target
  | branch condition onTrue onFalse => do
    let value ← condition.value
    return .branch condition.type value onTrue onFalse
  | ret none => return .ret none
  | ret (some operand) => do
    let value ← operand.value
    return .ret (some value)

/-- Passes an instruction on if its types fit together. -/
def checked (mark : Nat) (instr : KernelGuard.Instr) : Except Offence KernelGuard.Instr :=
  if instr.wellTyped then .ok instr else .error ⟨mark, .illTyped instr.text⟩

def Block.meaning (block : Block) : Except Offence Module.Block := do
  let phis ← block.phis.mapM fun phi => do
    let meaning ← phi.item.meaning
    let _ ← checked phi.mark (.phi meaning)
    return meaning
  let instrs ← block.instrs.mapM fun instr => do
    let meaning ← instr.item.meaning
    checked instr.mark meaning
  let terminator ← do
    let meaning ← block.terminator.item.meaning
    checked block.terminator.mark meaning
  return ⟨block.label, phis, instrs, terminator⟩

def Function.meaning (function : Function) : Except Offence Module.Function := do
  let blocks ← function.blocks.mapM Block.meaning
  return ⟨function.name, function.returnType,
    function.params.map fun param => .ofLocal param.2 param.1, blocks⟩

def Global.meaning (global : Global) : Except Offence KernelGuard.Global := do
  match global.initial with
  | none => return ⟨global.name, global.type, none⟩
  | some operand =>
    let value ← Operand.value global.type operand
    return ⟨global.name, global.type, some value⟩

/-- Adds one item to a module. -/
def Item.extend (module : Module) : Item → Except Offence Module
  | global item => do
    let meaning ← item.meaning
    return { module with globals := module.globals ++ [meaning] }
  | function item => do
    let meaning ← item.meaning
    return { module with functions := module.functions ++ [meaning] }

/-- The module that a draft stands for. -/
def meaning (draft : Draft) : Except Offence Module :=
  draft.foldlM Item.extend ⟨[], []⟩

end Draft

/-- Reads a module. A text that the grammar does not fit is reported as such,
whatever else is wrong with it. -/
def Module.ofText (text : String) : Except Fault Module :=
  match Draft.ofText? text.toList with
  | none => .error (.grammar (Expectation.misfit text.toList))
  | some draft =>
    match draft.meaning with
    | .ok module => .ok module
    | .error offence => .error (.complaint (.ofMark text.toList offence.mark) offence.item)

end KernelGuard
