import MatrixLang.Command.Basic

/-!
# The program

Reads the file that the arguments name, if they name one, and writes the reply
of the command.
-/

namespace MatrixLang

/-- The words of the system for a failure to read. -/
def systemReason : IO.Error → String
  | .otherError code details | .resourceBusy code details | .resourceVanished code details
  | .unsupportedOperation code details | .hardwareFault code details
  | .unsatisfiedConstraints code details | .illegalOperation code details
  | .protocolError code details | .timeExpired code details
  | .alreadyExists _ code details | .interrupted _ code details
  | .noFileOrDirectory _ code details | .invalidArgument _ code details
  | .permissionDenied _ code details | .resourceExhausted _ code details
  | .inappropriateType _ code details | .noSuchThing _ code details =>
      s!"{details} (os error {code})"
  | .unexpectedEof => "unexpected end of file"
  | .userError text => text

def readProgram (path : String) : IO FileContent := do
  try
    return .ofBytes (← IO.FS.readBinFile path)
  catch
    | .noFileOrDirectory .. => return .missing
    | .permissionDenied .. => return .forbidden
    | e => return .unreadable (systemReason e)

end MatrixLang

def main (args : List String) : IO UInt32 := do
  let command := MatrixLang.Command.ofArgs args
  let content ← match command.path? with
    | some path => MatrixLang.readProgram path
    | none => pure .missing
  let reply := command.reply MatrixLang.ampleBudget fun _ => content
  IO.print reply.stdout
  IO.eprint reply.stderr
  return UInt32.ofNat reply.exitCode
