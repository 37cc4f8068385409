import KernelGuard.Flow.Region
import KernelGuard.Journal

/-! Finding the guard of a region: its first conditional branch, provided one
way out of the branch leads to a block that every way to an exit passes. -/
namespace KernelGuard

/-- A branch that may leave the region early: its block, the block it leaves
to, and its condition. -/
structure EarlyExit where
  block : Label
  exit : Label
  condition : Value
deriving DecidableEq

/-- The first conditional branch of a region. -/
structure Candidate where
  place : Nat
  condition : Value
  targets : List Label
deriving DecidableEq

namespace EarlyExit

/-- Where control ends up from a place when blocks that only jump onwards are
skipped. A place is left once only, so a cycle of such blocks is left where it
is entered again. -/
def skipForwarding (blocks : List Block) (unvisited : List Nat) (place : Nat) : Nat :=
  match blocks[place]? with
  | none => place
  | some block =>
    match block.onlySucc? with
    | none => place
    | some next =>
      if block.isForwarding ∧ place ∈ unvisited then
        skipForwarding blocks (unvisited.erase place) next
      else place
termination_by unvisited.length
decreasing_by
  have member : place ∈ unvisited := (‹_ ∧ _›).2
  have positive : 0 < unvisited.length := List.length_pos_of_mem member
  rw [List.length_erase_of_mem member]
  omega

/-- The block that stands for a place as a way out. -/
def representative (func : Func) (place : Nat) : Nat :=
  skipForwarding func.blocks (List.range func.blocks.length) place

/-- The conditional branch at a place, if its block ends in one. -/
def branchAt? (func : Func) (place : Nat) : Option Candidate :=
  match func.blocks[place]? with
  | some block =>
    match block.terminator with
    | some (.branch _ condition onTrue onFalse) => some ⟨place, condition, [onTrue, onFalse]⟩
    | _ => none
  | none => none

/-- The successor of a place with a label. -/
def successor? (func : Func) (place : Nat) (label : Label) : Option Nat :=
  ((func.blocks[place]?.map (·.succ)).getD []).find? (func.labelAt · = label)

/-- The first target whose representative post-dominates the branch. The outer
option is missing when a target is met that is no successor of the block. -/
def firstExit? (func : Func) (postDominates : Nat → Nat → Bool) (place : Nat) :
    List Label → Option (Option Nat)
  | [] => some none
  | label :: rest =>
    match successor? func place label with
    | none => none
    | some next =>
      let exit := representative func next
      if postDominates exit place then some (some exit)
      else firstExit? func postDominates place rest

/-- Looks for the guard of a region. -/
def locate (func : Func) (region : Region) (postDominates : Nat → Nat → Bool) :
    Logged (Option EarlyExit) :=
  match region.findSome? (branchAt? func) with
  | none => pure none
  | some candidate => do
    let block := func.labelAt candidate.place
    Logged.note .trace .location ("early exit candidate in block " ++ block)
    match firstExit? func postDominates candidate.place candidate.targets with
    | none => pure none
    | some none =>
      Logged.note .trace .location "no successor post-dominates the candidate"
      pure none
    | some (some exit) =>
      let exit := func.labelAt exit
      Logged.note .trace .location ("block " ++ exit ++ " post-dominates the candidate")
      pure (some ⟨block, exit, candidate.condition⟩)

end EarlyExit

end KernelGuard
