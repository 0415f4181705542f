/-!
Reading a file as text. Bytes that are not UTF-8 are refused, whatever they stand for; nothing else is looked at.
-/

namespace Machining

inductive ReadError
  | notFound
  | isDirectory
  | notDirectory
  | notText
  /-- Any other cause, as the system words it. -/
  | other (reason : String)
  deriving DecidableEq, Repr

def ReadError.reason : ReadError → String
  | .notFound => "No such file or directory (os error 2)"
  | .isDirectory => "Is a directory (os error 21)"
  | .notDirectory => "Not a directory (os error 20)"
  | .notText => "stream did not contain valid UTF-8"
  | .other reason => reason

def decodeText (bytes : ByteArray) : Except ReadError String :=
  match String.fromUTF8? bytes with
  | some text => .ok text
  | none => .error .notText

end Machining
