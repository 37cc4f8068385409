import KernelGuard.Pass.Basic

/-! Lowering of fused multiply-add calls to a product and a sum. The sum takes
over the name of the call, so its readers stay as they are. -/
namespace KernelGuard.FusedMultiplyAdd

/-- A call that computes `a * b + c`. -/
structure Call where
  target : Temp
  type : Ty
  a : Value
  b : Value
  c : Value
deriving DecidableEq

/-- The names of the intrinsic functions begin with this. -/
def intrinsic : String := "llvm.fmuladd"

/-- The call, if an instruction is one with a result and three arguments. -/
def call? : Instr → Option Call
  | .call (some target) type callee [(_, a), (_, b), (_, c)] =>
    if intrinsic.toList.isPrefixOf callee.toList then some ⟨target, type, a, b, c⟩ else none
  | _ => none

/-- The product and the sum that replace a call. -/
def lowered (call : Call) (product : Temp) : List Instr :=
  [.arith product .fmul call.type call.a call.b,
    .arith call.target .fadd call.type (.temp product) call.c]

/-- Lowers the calls among some instructions, in order. -/
def lowerInstrs (names : NameSupply) : List Instr → Logged (List Instr × NameSupply × Bool)
  | [] => return ([], names, false)
  | instr :: rest =>
    match call? instr with
    | none => do
      let (rest, names, changed) ← lowerInstrs names rest
      return (instr :: rest, names, changed)
    | some call => do
      Logged.note .debug .lowering
        "replacing llvm.fmuladd.* intrinsic with fmul and fadd instructions"
      let (product, names) := names.fresh "fmul" call.type
      let (rest, names, _) ← lowerInstrs names rest
      return (lowered call product ++ rest, names, true)

/-- Lowers the calls in some blocks, in order. -/
def lowerBlocks (names : NameSupply) : List Block → Logged (List Block × NameSupply × Bool)
  | [] => return ([], names, false)
  | block :: rest => do
    let (instrs, names, changed) ← lowerInstrs names block.instrs
    let (rest, names, restChanged) ← lowerBlocks names rest
    return ({ block with instrs } :: rest, names, changed || restChanged)

/-- Lowers every call of a function. -/
def lower (func : Func) : Logged (Func × Bool) := do
  let (blocks, names, changed) ← lowerBlocks func.names func.blocks
  return ({ func with blocks, names }, changed)

/-- The pass, which carries nothing from one function to the next. -/
def pass : Pass where
  name := "transform-fmuladd-intrinsic"
  description := "Transform llvm.fmuladd intrinsic to fmul and fadd instructions"
  preservesEdges := true
  State := Unit
  start := ()
  run _ func := do
    let (func, changed) ← lower func
    return ((), func, changed)

end KernelGuard.FusedMultiplyAdd
