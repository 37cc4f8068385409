import KernelGuard.Fault
import KernelGuard.Flow.DomTree
import KernelGuard.Flow.Edges
import KernelGuard.Flow.NameSupply
import KernelGuard.IR.Module

/-! Functions with their flow of control and their supply of names. -/
namespace KernelGuard

structure Func where
  name : String
  returnType : Ty
  params : List Temp
  blocks : List Block
  names : NameSupply
deriving DecidableEq

namespace Func

/-- The first label that an earlier place in the list holds as well. -/
def firstRepeat (seen : List Label) : List Label → Option Label
  | [] => none
  | label :: rest => if label ∈ seen then some label else firstRepeat (label :: seen) rest

/-- The block of a written block, without edges. -/
def blockOf (block : Module.Block) : Block where
  label := block.label
  phis := block.phis
  instrs := block.instrs
  terminator := some block.terminator
  prev := []
  succ := []

/-- Names of parameters, phis and plain instructions are in use from the start. -/
def namesOf (params : List Temp) (blocks : List Block) : NameSupply :=
  let targets := blocks.flatMap fun block => block.body.filterMap Instr.target?
  (params ++ targets).foldl (fun supply temp => supply.register temp.name.spelling) .empty

/-- Links the blocks of a function as written. Labels have to be distinct and
every branch has to find its target. -/
def ofModule (function : Module.Function) : Except Fault Func :=
  match firstRepeat [] (function.blocks.map (·.label)) with
  | some label => .error (.duplicateLabel label function.name)
  | none =>
    let blocks := function.blocks.map blockOf
    match Edge.rebuild blocks with
    | (_, some label) => .error (.undefinedLabel label)
    | (linked, none) =>
      .ok ⟨function.name, function.returnType, function.params, linked,
        namesOf function.params blocks⟩

/-- The place of the first block with a label. -/
def place? (func : Func) (label : Label) : Option Nat := Edge.placeOf? func.blocks label

/-- The label of the block at a place. -/
def labelAt (func : Func) (place : Nat) : Label :=
  (func.blocks[place]?.map (·.label)).getD ""

/-- The places of the blocks without successors. -/
def exits (func : Func) : List Nat := FlowGraph.exits func.blocks

/-- Dominance from the entry or, backward, from the exits. -/
def domTree (func : Func) (direction : Direction) : DomTree :=
  .ofGraph (.along direction func.blocks)

/-- How many plain instructions there are. -/
def plainCount (func : Func) : Nat := (func.blocks.flatMap (·.instrs)).length

/-- Whether a local temporary is a parameter. -/
def isParam (func : Func) (name : Name) : Bool :=
  !name.isGlobal && func.params.any (·.name = name)

/-- The first block that defines a temporary. -/
def definingBlock? (func : Func) (name : Name) : Option Block :=
  func.blocks.find? (·.defines name)

/-- The first instruction that defines a temporary, in block order with the phis
of a block in front. -/
def definition? (func : Func) (name : Name) : Option Instr :=
  func.blocks.findSome? fun block => block.body.find? (·.writes name)

/-- A new local temporary. -/
def newTemp (func : Func) (stem : String) (type : Ty) : Temp × Func :=
  let (temp, names) := func.names.fresh stem type
  (temp, { func with names })

/-- Changes the block at a place. -/
def modifyBlock (func : Func) (place : Nat) (change : Block → Block) : Func :=
  { func with blocks := func.blocks.modify place change }

/-- Rebuilds the edges from the terminators. -/
def rebuildEdges (func : Func) : Func × Option Label :=
  let (blocks, missing) := Edge.rebuild func.blocks
  ({ func with blocks }, missing)

/-- The written form. -/
def text (func : Func) : String :=
  "define " ++ func.returnType.text ++ " @" ++ func.name ++ "(" ++
    commaSeparated (func.params.map fun param => typed param.type param.text) ++ ") \x7b\n" ++
    "\n".intercalate (func.blocks.map Block.text) ++ "\n\x7d"

end Func

end KernelGuard
