import ClassScript.Command

/-!
# The program

Reads the file of a command, and prints what the command leaves behind.
-/

namespace ClassScript.Main

def content (path : String) : IO (Except Command.FileProblem String) := do
  match ← (IO.FS.readBinFile path).toBaseIO with
  | .ok bytes => return Command.decode bytes
  | .error (.noFileOrDirectory ..) => return .error .missing
  | .error (.permissionDenied ..) => return .error .denied
  | .error (.inappropriateType _ code _) =>
    -- the number of the error comes negated
    return .error (if -code = 20 then .notDirectory else .directory)
  | .error e => throw e

def report (args : List String) : IO Command.Report := do
  match Command.ofArgs? args with
  | some command => return command.perform (← content command.file)
  | none => return .misuse

end ClassScript.Main

def main (args : List String) : IO UInt32 := do
  let report ← ClassScript.Main.report args
  (← IO.getStdout).putStr report.out
  (← IO.getStderr).putStr report.err
  return report.status
