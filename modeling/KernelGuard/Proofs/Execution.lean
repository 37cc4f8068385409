import KernelGuard.Flow.Func
import Mathlib.Logic.Function.Basic

/-! What a function does when it runs. Blocks run one after another from the
entry, phis read on the edge along which control came, and temporaries live in
a partial map. The meaning of operators, memory and called functions is left
open: a machine supplies it, and statements about runs hold for every machine. -/
namespace KernelGuard

/-- What a run may be seen to do, and which temporaries it writes. -/
inductive Event (V : Type) where
  | enter (block : Label)
  | define (name : Name) (value : V)
  | store (value address : V)
  | call (type : Ty) (callee : String) (args : List (Ty × V))
  | invoke (type : Ty) (callee : String) (args : List (Ty × V))
deriving DecidableEq

/-- What constants, operators, memory and called functions mean, over values `V`
and states of memory `M`. Where an operation gives nothing, a run that needs it
is stuck. Memory is all that is not a temporary, so every operation may look at
it. A call without a result is one made for its effect alone. -/
structure Machine (V M : Type) where
  constant : Value → V
  truth : V → Option Bool
  arith : ArithOp → Ty → V → V → M → Option V
  compare : CompareKind → Predicate → Ty → V → V → M → Option V
  convert : ConvertOp → Ty → Ty → V → M → Option V
  load : Ty → V → M → Option V
  store : V → V → M → Option M
  elementPtr : Ty → V → V → M → Option V
  call : Ty → String → List (Ty × V) → M → Option (V × M)
  invoke : Ty → String → List (Ty × V) → M → Option M

/-- The temporaries that have a value. -/
abbrev Env (V : Type) := Name → Option V

/-- What one instruction does: the temporary it writes, the memory it leaves,
and what can be seen of it. -/
structure Outcome (V M : Type) where
  written : Option (Name × V)
  memory : M
  seen : Option (Event V)

/-- Temporaries, memory, and what has happened so far, the first event first. -/
structure State (V M : Type) where
  env : Env V
  memory : M
  history : List (Event V)

/-- Where a run stands between two blocks. -/
inductive Control (V : Type) where
  | entry
  | edge (source target : Label)
  | returned (value : Option V)
deriving DecidableEq

/-- A run between two blocks. -/
structure Config (V M : Type) where
  control : Control V
  state : State V M

namespace Event

variable {V : Type}

/-- The block that an event enters. -/
def block? : Event V → Option Label
  | enter block => some block
  | _ => none

/-- Whether an event is seen outside the function: a store or a call. -/
def isEffect : Event V → Bool
  | store .. | call .. | invoke .. => true
  | _ => false

/-- Whether an event writes the temporary of a name. -/
def writes (name : Name) : Event V → Bool
  | define written _ => written = name
  | _ => false

end Event

namespace State

variable {V M : Type}

/-- Writes a temporary. -/
def define (state : State V M) (name : Name) (value : V) : State V M :=
  { state with
    env := Function.update state.env name (some value)
    history := state.history ++ [.define name value] }

/-- Writes temporaries one after another. -/
def defineAll (state : State V M) (writes : List (Name × V)) : State V M :=
  writes.foldl (fun state write => state.define write.1 write.2) state

/-- The state after an instruction. -/
def after (state : State V M) (outcome : Outcome V M) : State V M :=
  { state with
    memory := outcome.memory
    history := state.history ++ outcome.seen.toList }.defineAll outcome.written.toList

/-- The state at the beginning of a block. -/
def enter (state : State V M) (block : Label) : State V M :=
  { state with history := state.history ++ [.enter block] }

/-- The blocks entered so far. -/
def blocks (state : State V M) : List Label := state.history.filterMap Event.block?

/-- The stores and calls made so far. -/
def effects (state : State V M) : List (Event V) := state.history.filter Event.isEffect

end State

namespace Machine

variable {V M : Type} (machine : Machine V M)

/-- The value of an operand. A temporary that has not been written has none. -/
def operand (env : Env V) (value : Value) : Option V :=
  match value.name? with
  | some name => env name
  | none => some (machine.constant value)

/-- The arguments of a call with their types. -/
def arguments (env : Env V) (args : List (Ty × Value)) : Option (List (Ty × V)) :=
  args.mapM fun arg => (machine.operand env arg.2).map (arg.1, ·)

/-- The value that a phi takes on the edge from a block. -/
def phiValue (env : Env V) (source : Option Label) (phi : Phi) : Option V := do
  let label ← source
  let chosen ← phi.sources.find? (·.2 = label)
  machine.operand env chosen.1

/-- What an instruction does. Terminators have no place among instructions. -/
def outcome (source : Option Label) (env : Env V) (memory : M) : Instr → Option (Outcome V M)
  | .arith target op type lhs rhs => do
    let l ← machine.operand env lhs
    let r ← machine.operand env rhs
    let value ← machine.arith op type l r memory
    return ⟨some (target.name, value), memory, none⟩
  | .compare target kind predicate type lhs rhs => do
    let l ← machine.operand env lhs
    let r ← machine.operand env rhs
    let value ← machine.compare kind predicate type l r memory
    return ⟨some (target.name, value), memory, none⟩
  | .convert target op sourceType operand result => do
    let v ← machine.operand env operand
    let value ← machine.convert op sourceType result v memory
    return ⟨some (target.name, value), memory, none⟩
  | .load target type address => do
    let a ← machine.operand env address
    let value ← machine.load type a memory
    return ⟨some (target.name, value), memory, none⟩
  | .store value address => do
    let v ← machine.operand env value
    let a ← machine.operand env address
    let memory ← machine.store v a memory
    return ⟨none, memory, some (.store v a)⟩
  | .elementPtr target type address offset => do
    let a ← machine.operand env address
    let o ← machine.operand env offset
    let value ← machine.elementPtr type a o memory
    return ⟨some (target.name, value), memory, none⟩
  | .call (some target) type callee args => do
    let values ← machine.arguments env args
    let (value, memory) ← machine.call type callee values memory
    return ⟨some (target.name, value), memory, some (.call type callee values)⟩
  | .call none type callee args => do
    let values ← machine.arguments env args
    let memory ← machine.invoke type callee values memory
    return ⟨none, memory, some (.invoke type callee values)⟩
  | .phi phi => do
    let value ← machine.phiValue env source phi
    return ⟨some (phi.target.name, value), memory, none⟩
  | .jump _ | .branch .. | .ret _ => none

/-- Runs an instruction. -/
def step (source : Option Label) (state : State V M) (instr : Instr) : Option (State V M) :=
  (machine.outcome source state.env state.memory instr).map state.after

/-- The values that the phis of a block take, all read before any is written. -/
def phiValues (env : Env V) (source : Option Label) (phis : List Phi) :
    Option (List (Name × V)) :=
  phis.mapM fun phi => (machine.phiValue env source phi).map (phi.target.name, ·)

/-- Where a terminator goes from a block. -/
def leave (env : Env V) (block : Label) : Instr → Option (Control V)
  | .jump target => some (.edge block target)
  | .branch _ condition onTrue onFalse => do
    let value ← machine.operand env condition
    let taken ← machine.truth value
    return .edge block (if taken then onTrue else onFalse)
  | .ret none => some (.returned none)
  | .ret (some operand) => do
    let value ← machine.operand env operand
    return .returned (some value)
  | _ => none

/-- Runs a block that control reached from another one. -/
def runBlock (source : Option Label) (state : State V M) (block : Block) :
    Option (Config V M) := do
  let entered := state.enter block.label
  let values ← machine.phiValues entered.env source block.phis
  let final ← block.instrs.foldlM (machine.step source) (entered.defineAll values)
  let terminator ← block.terminator
  let control ← machine.leave final.env block.label terminator
  return ⟨control, final⟩

/-- Runs the next block. A run that has returned stays as it is. -/
def advance (func : Func) (config : Config V M) : Option (Config V M) :=
  match config.control with
  | .entry => func.blocks.head?.bind (machine.runBlock none config.state)
  | .edge source target =>
    (func.blocks.find? (·.label = target)).bind (machine.runBlock (some source) config.state)
  | .returned _ => some config

/-- A run that is never stuck, seen between its blocks. It may return, after which
nothing changes, or go on for ever. -/
structure IsRun (func : Func) (start : Config V M) (run : Nat → Config V M) : Prop where
  starts : run 0 = start
  advances : ∀ n, machine.advance func (run n) = some (run (n + 1))

end Machine

/-- The temporaries at the beginning: parameters have their arguments, and a
global has its address unless the function itself writes it. -/
def Func.entryEnv {V : Type} (func : Func) (arguments : List V)
    (addresses : String → Option V) : Env V := fun name =>
  match (func.params.zip arguments).find? (·.1.name = name) with
  | some (_, argument) => some argument
  | none =>
    if name.isGlobal ∧ ¬func.blocks.any (·.defines name) then addresses name.spelling else none

/-- A function about to run. -/
def Func.start {V M : Type} (func : Func) (arguments : List V)
    (addresses : String → Option V) (memory : M) : Config V M :=
  ⟨.entry, func.entryEnv arguments addresses, memory, []⟩

/-- A machine for examples. It counts with integers, loads the same number from
every address, lets calls without a result go by, and has calls with three
arguments multiply and add. -/
def integerMachine : Machine Int Unit where
  constant value := match value with
    | .bool flag => if flag then 1 else 0
    | .int n => n.toInt
    | .long n => n.toInt
    | .float _ | .double _ | .temp _ => 0
  truth value := some (value ≠ 0)
  arith op _ l r _ := match op with
    | .add | .fadd => some (l + r)
    | .fmul => some (l * r)
    | .and => some (if l ≠ 0 ∧ r ≠ 0 then 1 else 0)
    | _ => none
  compare _ predicate _ l r _ := match predicate with
    | .ult | .slt => some (if l < r then 1 else 0)
    | _ => none
  convert _ _ _ value _ := some value
  load _ _ _ := some 3
  store _ _ memory := some memory
  elementPtr _ address offset _ := some (address + offset)
  call _ _ args memory := match args with
    | [(_, a), (_, b), (_, c)] => some (a * b + c, memory)
    | _ => none
  invoke _ _ _ memory := some memory

end KernelGuard
