import KernelGuard.Draft.Meaning
import KernelGuard.Flow.Func

/-! Whole programs: reading, printing, and finding a function by its name. -/
namespace KernelGuard

structure Program where
  globals : List Global
  functions : List Func
deriving DecidableEq

namespace Program

/-- Links every function of a module, in order. -/
def ofModule (module : Module) : Except Fault Program := do
  let functions ← module.functions.mapM Func.ofModule
  return ⟨module.globals, functions⟩

/-- Reads a program. -/
def ofText (text : String) : Except Fault Program := do
  let module ← Module.ofText text
  ofModule module

/-- The written form: a line for each global, a blank line if there are any, and
the functions with a blank line between them. -/
def text (program : Program) : String :=
  let globals := String.join (program.globals.map fun global => global.text ++ "\n")
  let functions := "\n\n".intercalate (program.functions.map Func.text)
  (if program.globals.isEmpty then "" else globals ++ "\n") ++ functions ++ "\n"

/-- The first function with a name. -/
def function (program : Program) (name : String) : Except Fault Func :=
  match program.functions.find? (·.name = name) with
  | some func => .ok func
  | none => .error (.missingFunction name)

/-- Replaces the first function with a name. -/
def setFunction (program : Program) (name : String) (func : Func) : Program :=
  match program.functions.findIdx? (·.name = name) with
  | some place => { program with functions := program.functions.set place func }
  | none => program

end Program

end KernelGuard
