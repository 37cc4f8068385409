import KernelGuard.Command.Host
import KernelGuard.Command.LogFilter
import KernelGuard.Command.Report

/-! The command from its arguments to its exit code, in any world. The output
file is made before the input is read. -/
namespace KernelGuard.Command

variable {m : Type → Type} [Monad m]

/-- One line on how to call the command. -/
def usage : String := "Usage: kernelopt [OPTIONS] [INPUT]"

/-- The passes that can be asked for, a line for each, the description from
column 33 on. -/
def passList (registry : Registry) : String :=
  String.join (registry.map fun pass =>
    pass.name ++ String.ofList (List.replicate (32 - pass.name.length) ' ') ++ " " ++
      pass.description ++ "\n")

/-- Shows a notice: entries as far as the filter shows them, warnings always. -/
def announce (host : Host m) (filter : LogFilter) : Notice → m Unit
  | .entry entry => if filter.shows entry then host.err entry.text else pure ()
  | .warning message => host.err ("warning: " ++ message)

/-- Ends the run with an error message. -/
def fail (host : Host m) (message : String) : m Nat := do
  host.err ("Error: " ++ message)
  return 1

/-- Chooses the filter, with a warning for every part of a written filter that
cannot be read. -/
def chooseFilter (host : Host m) (verbosity : Nat) : Option String → m LogFilter
  | none => return .ofVerbosity verbosity
  | some text => do
    let (filter, reports) := LogFilter.ofText text
    reports.forM fun report => host.err ("warning: " ++ report ++ ", ignoring it")
    return filter

/-- Says and writes what a run made, piece by piece, up to the first that cannot
be written. The reason for that is handed back. -/
def present (host : Host m) (filter : LogFilter) (write : String → m (Except String Unit)) :
    List Section → m (Except String Unit)
  | [] => return .ok ()
  | piece :: rest => do
    piece.notices.forM (announce host filter)
    match ← write piece.text with
    | .error reason => return .error reason
    | .ok () => present host filter write rest

/-- Reads the input, does the work and writes what came of it, also when it
failed on the way. -/
def process (host : Host m) (filter : LogFilter) (options : Options)
    (write : String → m (Except String Unit)) (input : String) : m Nat := do
  match ← host.read input with
  | .error reason => fail host (Fault.system reason).message
  | .ok source =>
    let report := Report.run options source
    match ← present host filter write report.sections with
    | .error reason => fail host reason
    | .ok () =>
      match report.fault with
      | some fault => fail host fault.message
      | none => return 0

/-- Works on the input that the options name. -/
def processInput (host : Host m) (filter : LogFilter) (options : Options)
    (write : String → m (Except String Unit)) : m Nat :=
  match options.input with
  | some input => process host filter options write input
  | none => do
    host.err "fatal error: no input files"
    return 1

/-- Runs with options. The list of passes is written by a call that does not
return where it cannot write. -/
def runOptions (host : Host m) (filter : LogFilter) (options : Options) : m Nat := do
  announce host filter (.entry ⟨.trace, .command, "start"⟩)
  if options.listPasses then
    match ← host.out (passList .standard) with
    | .error reason =>
      host.err ("failed printing to stdout: " ++ reason)
      return 101
    | .ok () => return 0
  else
    match ← host.opening options.output with
    | .error reason => fail host (Fault.system reason).message
    | .ok () => processInput host filter options (host.write options.output)

/-- Runs with arguments, which a reader makes options of, and a written log
filter, if there is one. The result is the exit code. Whether the help can be
written makes no difference to it. -/
def runWith (reader : List String → Except Refusal Options) (host : Host m) (args : List String)
    (logFilter : Option String) : m Nat := do
  match reader args with
  | .error .usage =>
    host.err usage
    return 2
  | .error .help =>
    let _ ← host.out (usage ++ "\n")
    return 0
  | .ok options =>
    let filter ← chooseFilter host options.verbosity logFilter
    runOptions host filter options

/-- Runs with arguments as the command line has them. -/
def run (host : Host m) : List String → Option String → m Nat := runWith Options.ofArgs host

end KernelGuard.Command
