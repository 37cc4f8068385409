import KernelGuard.Command.Fields
import KernelGuard.Command.Host

/-! A small world in which a run can be followed step by step: the directories
that every system has, the devices among them, and a working directory. -/
namespace KernelGuard

/-- A place in the tree of files, as the names on the way from the root. -/
abbrev Place := List String

/-- A file that is no store. -/
inductive Device where
  | null
  | full
  | terminal
  | output
  | errors
deriving DecidableEq, Repr

namespace Device

/-- The device at a place. Standard input is empty, so it is like the device
that swallows everything. -/
def at? : Place → Option Device
  | ["dev", "null"] | ["dev", "stdin"] | ["dev", "zero"] => some null
  | ["dev", "full"] => some full
  | ["dev", "tty"] => some terminal
  | ["dev", "stdout"] => some output
  | ["dev", "stderr"] => some errors
  | _ => none

end Device

namespace Place

/-- The working directory. -/
def working : Place := ["tmp", "run"]

/-- The directories of the root that a path may go through. -/
def common : List String :=
  ["bin", "dev", "etc", "home", "lib", "mnt", "opt", "proc", "root", "run", "sbin", "srv", "sys",
    "tmp", "usr", "var"]

/-- Whether there is a directory at a place. -/
def isDirectory : Place → Bool
  | [] => true
  | [name] => common.contains name
  | place => place = working

end Place

/-- What can be seen from outside: files with their contents, and what was
written to standard output and standard error. -/
structure World where
  files : List (Place × String)
  out : String
  err : String
deriving DecidableEq, Repr

namespace World

/-- Files in the working directory, and nothing written yet. -/
def ofFiles (files : List (String × String)) : World where
  files := files.map fun (name, content) => (Place.working ++ [name], content)
  out := ""
  err := ""

/-- The content of a file in the working directory. -/
def content? (world : World) (name : String) : Option String :=
  world.files.lookup (Place.working ++ [name])

/-- Replaces the content of a file. -/
def setContent (world : World) (place : Place) (content : String) : World :=
  { world with files := (place, content) :: world.files.filter (·.1 ≠ place) }

/-- Whether there is a file at a place. -/
def isFile (world : World) (place : Place) : Bool :=
  (Device.at? place).isSome || (world.files.lookup place).isSome

/-- No name on a path has more bytes. -/
def nameLimit : Nat := 255

/-- No path has more bytes. -/
def pathLimit : Nat := 4095

/-- Goes on from a directory along a path. -/
def enter (world : World) : Place → List String → Except FileFault Place
  | place, [] => .ok place
  | place, name :: rest =>
    if name = "." then world.enter place rest
    else if name = ".." then world.enter place.dropLast rest
    else if name.utf8ByteSize > nameLimit then .error .nameTooLong
    else
      let next := place ++ [name]
      if Place.isDirectory next then world.enter next rest
      else .error (if world.isFile next then .notADirectory else .notFound)

/-- The file at the end of a path, which may be one that is about to be made. A
slash at the end asks for a directory. -/
def find (world : World) (path : String) (making : Bool) : Except FileFault Place :=
  let parts := fields '/' path
  let start := if parts.head? = some "" then [] else Place.working
  let slashed := parts.getLast? = some ""
  let names := parts.filter (· ≠ "")
  if path.utf8ByteSize > pathLimit then .error .nameTooLong
  else if path = "" then .error .notFound
  else do
    let directory ← world.enter start names.dropLast
    match names.getLast? with
    | none | some "." | some ".." => .error .isADirectory
    | some name =>
      let place := directory ++ [name]
      if making && slashed then .error .isADirectory
      else if name.utf8ByteSize > nameLimit then .error .nameTooLong
      else if Place.isDirectory place then .error .isADirectory
      else if slashed && world.isFile place then .error .notADirectory
      else if Device.at? place = some .terminal then .error .noDevice
      else if making || world.isFile place then .ok place
      else .error .notFound

/-- Reads a file that is there. Devices have nothing to read. -/
def read (world : World) (path : String) : Except FileFault String := do
  let place ← world.find path false
  return (world.files.lookup place).getD ""

/-- Makes a file empty, whether it is there or not. -/
def create (world : World) (path : String) : Except FileFault World := do
  let place ← world.find path true
  return if (Device.at? place).isSome then world else world.setContent place ""

/-- Adds text to the end of a file. -/
def append (world : World) (path text : String) : Except FileFault World := do
  let place ← world.find path true
  match Device.at? place with
  | none => return world.setContent place ((world.files.lookup place).getD "" ++ text)
  | some .output => return { world with out := world.out ++ text }
  | some .errors => return { world with err := world.err ++ text }
  | some .full => if text = "" then return world else .error .full
  | some .null | some .terminal => return world

/-- Takes a step that may fail and leaves the world as it is if it does. -/
def step (change : World → Except FileFault World) : StateM World (Except String Unit) := do
  match change (← get) with
  | .ok world =>
    set world
    return .ok ()
  | .error fault => return .error fault.message

/-- The command's view of the world. -/
def host : Host (StateM World) where
  read path := return ((← get).read path).mapError FileFault.message
  create path := step (·.create path)
  append path text := step (·.append path text)
  out text := step fun world => .ok { world with out := world.out ++ text }
  err line := modify fun world => { world with err := world.err ++ line ++ "\n" }

end World

end KernelGuard
