import KernelGuard.Command.Options
import KernelGuard.Guard.Analysis
import KernelGuard.Pass.Registry

/-! What a run makes of a program: the passes, the report on early exits, and
the program that is left. -/
namespace KernelGuard

/-- What a run says beside its output. -/
inductive Notice where
  | entry (entry : Entry)
  | warning (message : String)
deriving DecidableEq

/-- A piece of work: what was said about it, and then written. -/
structure Section where
  notices : List Notice
  text : String
deriving DecidableEq

/-- What a run has said and written, piece by piece, and what it failed on. -/
structure Report where
  sections : List Section
  fault : Option Fault
deriving DecidableEq

/-- The report on one function, as lines, and the function that is left. -/
structure FunctionReport where
  func : Func
  lines : List String
  notices : List Notice

namespace Report

/-- Everything that was written. -/
def output (report : Report) : String := String.join (report.sections.map (·.text))

/-- Everything that was said. -/
def notices (report : Report) : List Notice := report.sections.flatMap (·.notices)

/-- Puts a piece of work in front. -/
def after (report : Report) (notices : List Notice) (text : String) : Report :=
  { report with sections := ⟨notices, text⟩ :: report.sections }

/-- Runs passes by name, in order. A name that is not known ends the run. -/
def runPasses (registry : Registry) (program : Program) :
    List String → Logged (Except Fault Program)
  | [] => return .ok program
  | name :: rest =>
    match registry.run name program with
    | .error fault => return .error fault
    | .ok step => do
      let (program, changed) ← step
      Logged.note .info .command (name ++ ": " ++ Registry.changedText changed)
      runPasses registry program rest

/-- The finding for a whole function. -/
def headline (func : Func) (analysis : Analysis) : String :=
  "@" ++ func.name ++ ": " ++
    match analysis.earlyExit with
    | some exit =>
      "early exit from %" ++ exit.block ++ " to %" ++ exit.exit ++ " on " ++
        exit.condition.text ++ ", " ++ analysis.status.text
    | none => GuardStatus.noEarlyExit.text

/-- One usable bound. -/
def factLine (fact : BoundFact) : String :=
  "  " ++ fact.dimension.text ++ " < " ++ fact.bound.text ++ "  [" ++ fact.text ++ "]"

/-- Removes the bound of a dimension if that is wanted, with a line if something
changed. -/
def removeIf (wanted : Bool) (dimension : Dimension) (analysis : Analysis) (func : Func) :
    Removal × List String × List Notice :=
  if wanted then
    let removal := analysis.removeUpperBound dimension func
    (removal.value,
      if removal.value.changed then ["  removed " ++ dimension.text ++ " upper bound"] else [],
      removal.entries.map .entry)
  else (⟨analysis, func, false⟩, [], [])

/-- Reports on one function and removes the bounds that are asked for. -/
def ofFunc (settings : Settings) (func : Func) : Except Fault FunctionReport := do
  let region ← if settings.region.isEmpty then .ok (Region.whole func)
    else Region.ofLabels func settings.region
  let postDominates := (func.domTree .backward).dominates
  let analysis := Analysis.ofRegion func region postDominates settings.symbols
  let kept := (settings.removeX || settings.removeY) && analysis.value.status = .notUnderstood
  let (first, firstLines, firstNotices) := removeIf settings.removeX .x analysis.value func
  let (second, secondLines, secondNotices) :=
    removeIf settings.removeY .y first.analysis first.func
  return {
    func := second.func
    lines := headline func analysis.value :: analysis.value.boundFacts.map factLine ++
      firstLines ++ secondLines
    notices := analysis.entries.map .entry ++
      (if kept then
        [.warning ("bounds of '@" ++ func.name ++ "' are kept, its early exit is not understood")]
      else []) ++ firstNotices ++ secondNotices }

/-- The lines of a report as they stand in front of a program, where they are
comments. -/
def asComments (lines : List String) : String :=
  String.join (lines.map fun line => "; " ++ line ++ "\n")

/-- Reports on the selected functions, in order, up to the first that fails. -/
def ofFuncs (settings : Settings) : List Func → List Func × Report
  | [] => ([], ⟨[], none⟩)
  | func :: rest =>
    if settings.selects func.name then
      match ofFunc settings func with
      | .error fault => (func :: rest, ⟨[], some fault⟩)
      | .ok found =>
        let (rest, report) := ofFuncs settings rest
        (found.func :: rest, report.after found.notices (asComments found.lines))
    else
      let (rest, report) := ofFuncs settings rest
      (func :: rest, report)

/-- Reports on a program. A function that is asked for has to be there. -/
def ofProgram (settings : Settings) (program : Program) : Program × Report :=
  let missing := settings.function.bind fun name =>
    match program.function name with
    | .ok _ => none
    | .error fault => some fault
  match missing with
  | some fault => (program, ⟨[], some fault⟩)
  | none =>
    let (functions, report) := ofFuncs settings program.functions
    ({ program with functions }, report)

/-- Puts the program that is left at the end, unless the work failed. -/
def withProgram (report : Report) (program : Program) : Report :=
  if report.fault.isNone then
    { report with sections := report.sections ++ [⟨[], program.text⟩] }
  else report

/-- Everything that a run does between reading its input and writing its output. -/
def run (options : Options) (source : String) : Report :=
  match Program.ofText source with
  | .error fault => ⟨[], some fault⟩
  | .ok program =>
    let passed := runPasses .standard program options.passes
    let report : Report := match passed.value with
      | .error fault => ⟨[], some fault⟩
      | .ok program =>
        let (program, report) := if options.analyze then ofProgram (.ofOptions options) program
          else (program, ⟨[], none⟩)
        if options.printProgram || !options.analyze then report.withProgram program else report
    report.after (passed.entries.map .entry) ""

end Report

end KernelGuard
