import KernelGuard.Pass.FusedMultiplyAdd

/-! Passes by name. Registering a name again drops the earlier pass. -/
namespace KernelGuard

/-- The registered passes, the last registered one last. -/
abbrev Registry := List Pass

namespace Registry

/-- Adds a pass at the end in place of any pass with its name. -/
def register (registry : Registry) (pass : Pass) : Registry :=
  registry.filter (fun other => other.name ≠ pass.name) ++ [pass]

/-- Every pass of this library. -/
def standard : Registry := register [] FusedMultiplyAdd.pass

/-- The pass with a name. -/
def find (registry : Registry) (name : String) : Except Fault Pass :=
  match List.find? (fun pass => pass.name = name) registry with
  | some pass => .ok pass
  | none => .error (.unknownPass name)

/-- Whether something changed, in words. -/
def changedText (changed : Bool) : String :=
  if changed then "changed = true" else "changed = false"

/-- The entry made when a pass is done with a function. -/
def report (name : String) (func : Func) (changed : Bool) : Logged Unit :=
  Logged.note .trace .registry (name ++ " on @" ++ func.name ++ ": " ++ changedText changed)

/-- Runs a pass over some functions from a state, with an entry about each when it
is done. The flag stays up once it is. -/
def runFrom (name : String) (pass : Pass) :
    pass.State → Bool → List Func → Logged (List Func × Bool)
  | _, changed, [] => return ([], changed)
  | state, changed, func :: rest => do
    let (state, func, funcChanged) ← pass.run state func
    report name func funcChanged
    let (rest, changed) ← runFrom name pass state (changed || funcChanged) rest
    return (func :: rest, changed)

/-- Runs the pass with a name over every function of a program. -/
def run (registry : Registry) (name : String) (program : Program) :
    Except Fault (Logged (Program × Bool)) :=
  match registry.find name with
  | .error fault => .error fault
  | .ok pass => .ok do
    let (functions, changed) ← runFrom name pass pass.start false program.functions
    return ({ program with functions }, changed)

end Registry

end KernelGuard
