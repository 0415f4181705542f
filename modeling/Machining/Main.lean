import Machining.CommandLine

/-!
The two tools as one program, which is the one or the other by the name under which it is run.
-/

namespace Machining

/-- The cause that a system error has. Some of its numbers come negated. -/
def ReadError.ofNumber (number : UInt32) (reason : String) : ReadError :=
  let number := min number (0 - number)
  if number = 2 then .notFound
  else if number = 20 then .notDirectory
  else if number = 21 then .isDirectory
  else .other (reason ++ " (os error " ++ toString number ++ ")")

def readFile (path : String) : IO (Except ReadError String) := do
  try
    return decodeText (← IO.FS.readBinFile path)
  catch
    | .noFileOrDirectory .. => return .error .notFound
    | .permissionDenied _ number _ => return .error (.ofNumber number "Permission denied")
    | .inappropriateType _ number reason | .illegalOperation number reason | .otherError number reason =>
      return .error (.ofNumber number reason)
    | e => return .error (.other (toString e))

end Machining

def main (args : List String) : IO UInt32 := do
  let name := (← IO.appPath).fileName.getD ""
  let tool := if name = "ngc-structure" then Machining.CommandLine.Tool.outline else .zigzag
  let outcome ← tool.run Machining.readFile (fun _ => "expected the two rules") args
  (← IO.getStdout).putStr outcome.stdout
  (← IO.getStderr).putStr outcome.stderr
  return UInt32.ofNat outcome.code
