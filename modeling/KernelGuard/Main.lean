import KernelGuard.Command.Run

/-! The command in the real world. -/
namespace KernelGuard

/-- The reason in the system's words, with its number where it has one. -/
def systemReason : IO.Error → String
  | .noFileOrDirectory .. => FileFault.notFound.message
  | .alreadyExists _ code details | .resourceBusy code details | .resourceVanished code details
  | .unsupportedOperation code details | .hardwareFault code details
  | .unsatisfiedConstraints code details | .illegalOperation code details
  | .protocolError code details | .timeExpired code details | .interrupted _ code details
  | .invalidArgument _ code details | .permissionDenied _ code details
  | .resourceExhausted _ code details | .inappropriateType _ code details
  | .noSuchThing _ code details | .otherError code details =>
    details ++ " (os error " ++ toString code ++ ")"
  | other => toString other

/-- Runs an action, with the system's reason if it fails. -/
def attempt {α : Type} (action : IO α) : IO (Except String α) := do
  try
    return .ok (← action)
  catch error => return .error (systemReason error)

/-- Files, standard output and standard error of the process. -/
def processHost : Host IO where
  read path := attempt (IO.FS.readFile path)
  create path := attempt (IO.FS.writeFile path "")
  append path text := attempt do
    let file ← IO.FS.Handle.mk path .append
    file.putStr text
    file.flush
  out text := attempt (IO.print text)
  err line := IO.eprintln line

end KernelGuard

def main (args : List String) : IO UInt32 := do
  let filter ← IO.getEnv "RUST_LOG"
  let code ← KernelGuard.Command.run KernelGuard.processHost args filter
  return code.toUInt32
