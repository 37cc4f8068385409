import KernelGuard.Command.Fields
import KernelGuard.Guard.Dimension

/-! The command line. Arguments are taken one by one; the first one that does
not fit, or that asks for help, decides. -/
namespace KernelGuard

/-- What the arguments ask for. -/
structure Options where
  output : Option String
  passes : List String
  listPasses : Bool
  analyze : Bool
  function : Option String
  region : List String
  removeX : Bool
  removeY : Bool
  indexSymbols : PerDimension (Option String)
  printProgram : Bool
  verbosity : Nat
  input : Option String
deriving DecidableEq, Repr

/-- Why arguments do not make options: they do not fit, or help is asked for. -/
inductive Refusal where
  | usage
  | help
deriving DecidableEq, Repr

namespace Options

/-- Nothing is asked for. -/
def empty : Options where
  output := none
  passes := []
  listPasses := false
  analyze := false
  function := none
  region := []
  removeX := false
  removeY := false
  indexSymbols := .replicate none
  printProgram := false
  verbosity := 0
  input := none

/-- An option that takes a value. -/
inductive Setting where
  | output
  | pass
  | function
  | region
  | indexSymbol (dimension : Dimension)
deriving DecidableEq, Repr

/-- An option that is there or not. -/
inductive Switch where
  | listPasses
  | analyze
  | removeX
  | removeY
  | printProgram
deriving DecidableEq, Repr

/-- What an option name stands for. -/
inductive Flag where
  | setting (setting : Setting)
  | switch (switch : Switch)
  | verbose
  | help
deriving DecidableEq, Repr

/-- The options with long names, which are never abbreviated. -/
def ofLongName? : String → Option Flag
  | "pass" => some (.setting .pass)
  | "function" => some (.setting .function)
  | "region" => some (.setting .region)
  | "local-id-x" => some (.setting (.indexSymbol .x))
  | "local-id-y" => some (.setting (.indexSymbol .y))
  | "local-id-z" => some (.setting (.indexSymbol .z))
  | "list-passes" => some (.switch .listPasses)
  | "analyze" => some (.switch .analyze)
  | "remove-x" => some (.switch .removeX)
  | "remove-y" => some (.switch .removeY)
  | "print-ir" => some (.switch .printProgram)
  | "verbose" => some .verbose
  | "help" => some .help
  | _ => none

/-- The options with names of one letter, which may be written in one cluster. -/
def ofLetter? : Char → Option Flag
  | 'o' => some (.setting .output)
  | 'v' => some .verbose
  | 'h' => some .help
  | _ => none

/-- A value given for the first time; a second one is refused. -/
def once (present : Option String) (value : String) : Except Refusal (Option String) :=
  match present with
  | none => .ok (some value)
  | some _ => .error .usage

/-- Turns a switch on; a second time is refused. -/
def turnOn (present : Bool) : Except Refusal Bool :=
  if present then .error .usage else .ok true

/-- Gives a value to an option. Passes and regions add up, and a region is cut
at commas, empty parts included. -/
def set (options : Options) (value : String) : Setting → Except Refusal Options
  | .output => return { options with output := ← once options.output value }
  | .pass => return { options with passes := options.passes ++ [value] }
  | .function => return { options with function := ← once options.function value }
  | .region => return { options with region := options.region ++ fields ',' value }
  | .indexSymbol dimension => do
    let symbol ← once (options.indexSymbols.get dimension) value
    return { options with indexSymbols := options.indexSymbols.set dimension symbol }

/-- Turns a switch on. -/
def switchOn (options : Options) : Switch → Except Refusal Options
  | .listPasses => return { options with listPasses := ← turnOn options.listPasses }
  | .analyze => return { options with analyze := ← turnOn options.analyze }
  | .removeX => return { options with removeX := ← turnOn options.removeX }
  | .removeY => return { options with removeY := ← turnOn options.removeY }
  | .printProgram => return { options with printProgram := ← turnOn options.printProgram }

/-- Raises the verbosity by one, up to the greatest number of one byte. -/
def raise (options : Options) : Options :=
  { options with verbosity := min 255 (options.verbosity + 1) }

/-- Takes the one argument that is no option. -/
def setInput (options : Options) (value : String) : Except Refusal Options := do
  return { options with input := ← once options.input value }

/-- A flag without a value attached to it, as far as it needs none. The setting
that still waits for its value is handed back. -/
def setFlag (options : Options) : Flag → Except Refusal (Options × Option Setting)
  | .setting setting => return (options, some setting)
  | .switch switch => return (← options.switchOn switch, none)
  | .verbose => return (options.raise, none)
  | .help => .error .help

/-- A cluster of one-letter options. The letters behind an option that takes a
value are the value, less an equals sign in front. -/
def setCluster (options : Options) : List Char → Except Refusal (Options × Option Setting)
  | [] => return (options, none)
  | letter :: rest =>
    match ofLetter? letter with
    | none => .error .usage
    | some (.setting setting) =>
      match rest with
      | [] => return (options, some setting)
      | '=' :: value => return (← options.set (String.ofList value) setting, none)
      | value => return (← options.set (String.ofList value) setting, none)
    | some flag => do
      let (options, _) ← options.setFlag flag
      setCluster options rest

/-- An option with a long name, which may have a value behind an equals sign. -/
def setLong (options : Options) (argument : List Char) :
    Except Refusal (Options × Option Setting) :=
  let name := String.ofList (argument.takeWhile (· ≠ '='))
  match ofLongName? name, argument.dropWhile (· ≠ '=') with
  | none, _ => .error .usage
  | some flag, [] => options.setFlag flag
  | some (.setting setting), _ :: value =>
    return (← options.set (String.ofList value) setting, none)
  | some _, _ :: _ => .error .usage

/-- Whether an argument looks like an option. A single dash does not. -/
def looksLikeOption (argument : String) : Bool :=
  match argument.toList with
  | '-' :: _ :: _ => true
  | _ => false

/-- Takes the arguments behind a double dash, none of which is an option. -/
def takeInputs (options : Options) : List String → Except Refusal Options
  | [] => return options
  | argument :: rest => do
    let options ← options.setInput argument
    options.takeInputs rest

/-- Takes all arguments. A setting that waits for its value gets the next
argument unless that one looks like an option. -/
def take (options : Options) (waiting : Option Setting) : List String → Except Refusal Options
  | [] => if waiting.isSome then .error .usage else return options
  | argument :: rest =>
    match waiting with
    | some setting =>
      if looksLikeOption argument then .error .usage
      else do
        let options ← options.set argument setting
        options.take none rest
    | none =>
      match argument.toList with
      | ['-', '-'] => options.takeInputs rest
      | '-' :: '-' :: long => do
        let (options, waiting) ← options.setLong long
        options.take waiting rest
      | '-' :: letter :: more => do
        let (options, waiting) ← options.setCluster (letter :: more)
        options.take waiting rest
      | _ => do
        let options ← options.setInput argument
        options.take none rest

/-- The options that arguments stand for. -/
def ofArgs (args : List String) : Except Refusal Options := empty.take none args

end Options

/-- What the analysis of a program is to look at and to change. An empty list of
labels means the whole function. -/
structure Settings where
  function : Option String
  region : List String
  symbols : IndexSymbols
  removeX : Bool
  removeY : Bool
deriving DecidableEq, Repr

namespace Settings

/-- Labels may be given with their sigil, and symbols that are not given have
their standard names. -/
def ofOptions (options : Options) : Settings where
  function := options.function
  region := options.region.map fun label => String.ofList (label.toList.dropWhile (· = '%'))
  symbols :=
    { x := options.indexSymbols.x.getD IndexSymbols.standard.x
      y := options.indexSymbols.y.getD IndexSymbols.standard.y
      z := options.indexSymbols.z.getD IndexSymbols.standard.z }
  removeX := options.removeX
  removeY := options.removeY

/-- Whether a function is to be looked at. -/
def selects (settings : Settings) (name : String) : Bool :=
  match settings.function with
  | some wanted => wanted = name
  | none => true

end Settings

end KernelGuard
