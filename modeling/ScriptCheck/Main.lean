import ScriptCheck.CommandLine.Run

/-!
# The program

Carries out a command line on the files of the disk.
-/

namespace ScriptCheck

/-- The cause that a system gives by a code and a text of its own. -/
def FileError.ofCode (code : UInt32) (text : String) : FileError :=
  match code.toNat with
  | 2 => .notFound
  | 20 => .notDirectory
  | 21 => .isDirectory
  | 28 => .noSpace
  | 36 => .nameTooLong
  | n => .other s!"{text} (os error {n})"

/-- The cause of a failed operation on the disk. -/
def FileError.ofSystem : IO.Error → FileError
  | .noFileOrDirectory _ code text
  | .inappropriateType _ code text
  | .invalidArgument _ code text
  | .permissionDenied _ code text
  | .resourceExhausted _ code text
  | .noSuchThing _ code text
  | .alreadyExists _ code text
  | .interrupted _ code text
  | .otherError code text
  | .resourceBusy code text
  | .resourceVanished code text
  | .unsupportedOperation code text
  | .hardwareFault code text
  | .unsatisfiedConstraints code text
  | .illegalOperation code text
  | .protocolError code text
  | .timeExpired code text => .ofCode code text
  | e => .other e.toString

/-- Access to the disk. -/
def disk : FileAccess IO where
  read path := do
    if Path.holdsNul path then return .error .nulInName
    try
      return .ok (← IO.FS.readBinFile path)
    catch e =>
      return .error (.ofSystem e)
  write path text := do
    if Path.holdsNul path then return .error .nulInName
    try
      IO.FS.writeFile path text
      return .ok ()
    catch e =>
      return .error (.ofSystem e)

end ScriptCheck

def main (args : List String) : IO UInt32 := do
  let output ← ScriptCheck.CommandLine.run ScriptCheck.disk args
  IO.print output.stdout
  IO.eprint output.stderr
  return output.status.toUInt32
