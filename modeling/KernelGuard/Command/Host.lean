/-! What the command asks of the world around it. -/
namespace KernelGuard

/-- The requests of the command. Failures carry the reason as the system words
it. -/
structure Host (m : Type → Type) where
  read : String → m (Except String String)
  create : String → m (Except String Unit)
  append : String → String → m (Except String Unit)
  out : String → m (Except String Unit)
  err : String → m Unit

namespace Host

variable {m : Type → Type} [Monad m]

/-- Makes the output file, if one is asked for. -/
def opening (host : Host m) : Option String → m (Except String Unit)
  | none => return .ok ()
  | some path => host.create path

/-- Writes to the end of the output file or, if none is asked for, to standard
output. -/
def write (host : Host m) : Option String → String → m (Except String Unit)
  | none => host.out
  | some path => host.append path

end Host

/-- Why a path does not lead to a file, or the file does not take a text. -/
inductive FileFault where
  | notFound
  | noDevice
  | notADirectory
  | isADirectory
  | full
  | nameTooLong
deriving DecidableEq, Repr

def FileFault.message : FileFault → String
  | notFound => "No such file or directory (os error 2)"
  | noDevice => "No such device or address (os error 6)"
  | notADirectory => "Not a directory (os error 20)"
  | isADirectory => "Is a directory (os error 21)"
  | full => "No space left on device (os error 28)"
  | nameTooLong => "File name too long (os error 36)"

end KernelGuard
