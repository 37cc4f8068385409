import KernelGuard.IR.Text

/-! Basic blocks. A block is known to others by its place in the function, and
its edges are lists of such places in the order in which they were linked. -/
namespace KernelGuard

/-- Phis, plain instructions and a terminator, which may be missing while a
function is being edited. -/
structure Block where
  label : Label
  phis : List Phi
  instrs : List Instr
  terminator : Option Instr
  prev : List Nat
  succ : List Nat
deriving DecidableEq

namespace Block

/-- The instructions that may define temporaries, phis first. -/
def body (block : Block) : List Instr := block.phis.map .phi ++ block.instrs

/-- All instructions, the terminator last. -/
def code (block : Block) : List Instr := block.body ++ block.terminator.toList

/-- How many instructions the block has, phis and terminator included. -/
def size (block : Block) : Nat := block.code.length

/-- The labels that the terminator may go to. -/
def targets (block : Block) : List Label :=
  match block.terminator with
  | some terminator => terminator.targets
  | none => []

/-- The only successor, if there is exactly one. -/
def onlySucc? (block : Block) : Option Nat :=
  match block.succ with
  | [next] => some next
  | _ => none

/-- A single jump with one way in and one way out. -/
def isForwarding (block : Block) : Bool :=
  block.size = 1 && block.prev.length = 1 && block.succ.length = 1

/-- Forgets the edges. -/
def unlinked (block : Block) : Block := { block with prev := [], succ := [] }

/-- Changes every operand of every instruction. -/
def mapOperands (f : Value → Value) (block : Block) : Block :=
  { block with
    phis := block.phis.map (Phi.mapOperands f)
    instrs := block.instrs.map (Instr.mapOperands f)
    terminator := block.terminator.map (Instr.mapOperands f) }

/-- Whether a phi or a plain instruction writes the temporary of a name. -/
def defines (block : Block) (name : Name) : Bool := block.body.any (·.writes name)

/-- Drops the phis and plain instructions that write the temporary of a name. -/
def withoutDefinition (block : Block) (name : Name) : Block :=
  { block with
    phis := block.phis.filter fun phi => !(Instr.phi phi).writes name
    instrs := block.instrs.filter fun instr => !instr.writes name }

/-- The label on a line of its own, then the instructions, indented. -/
def text (block : Block) : String :=
  block.label ++ ":\n" ++ "\n".intercalate (block.code.map fun instr => "  " ++ instr.text)

end Block

end KernelGuard
