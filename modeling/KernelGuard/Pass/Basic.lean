import KernelGuard.Flow.Program
import KernelGuard.Journal

/-! Passes over functions. A pass may carry a state of its own from one function
to the next. -/
namespace KernelGuard

/-- A transformation run on one function at a time, with the name and the
description that it is known by. -/
structure Pass where
  name : String
  description : String
  preservesEdges : Bool
  State : Type
  start : State
  run : State → Func → Logged (State × Func × Bool)

namespace Pass

/-- Where a pass stands after some functions: its state, what it left of them,
and whether any of them changed. -/
structure Progress (pass : Pass) where
  state : pass.State
  functions : List Func
  changed : Bool

/-- Goes on with one more function. -/
def advance (pass : Pass) (progress : pass.Progress) (func : Func) : Logged pass.Progress := do
  let (state, func, changed) ← pass.run progress.state func
  return ⟨state, progress.functions ++ [func], changed || progress.changed⟩

/-- Runs over every function of a program, each once and in order. -/
def apply (pass : Pass) (program : Program) : Logged (Program × Bool) := do
  let progress ← program.functions.foldlM pass.advance ⟨pass.start, [], false⟩
  return ({ program with functions := progress.functions }, progress.changed)

end Pass

end KernelGuard
