import Machining.Json.Basic

/-!
Writing a document over several lines. Every item and every member has a line of its own, indented by two blanks for
each bracket around it; an empty array or object is a pair of brackets. In strings the quote, the backslash and
the characters below the blank are escaped, the latter with their short escapes where they have one.
-/

namespace Machining.Json

def escape (c : Char) : List Char :=
  if c = '"' then ['\\', '"']
  else if c = '\\' then ['\\', '\\']
  else if c = '\x08' then ['\\', 'b']
  else if c = '\x0c' then ['\\', 'f']
  else if c = '\n' then ['\\', 'n']
  else if c = '\r' then ['\\', 'r']
  else if c = '\t' then ['\\', 't']
  else if c.toNat < 0x20 then ['\\', 'u', '0', '0', Nat.digitChar (c.toNat / 16), Nat.digitChar (c.toNat % 16)]
  else [c]

/-- A string in quotes. A spelled half of a surrogate pair stands for all strings without a text. -/
def quoted : Option String → List Char
  | some s => '"' :: s.toList.flatMap escape ++ ['"']
  | none => "\"\\ud800\"".toList

def append (out : String) (cs : List Char) : String := cs.foldl String.push out

def newLine (depth : Nat) (out : String) : String := (out.push '\n').pushn ' ' (2 * depth)

def writeKey (key : Option String) (out : String) : String := ((append out (quoted key)).push ':').push ' '

mutual

def write (depth : Nat) (out : String) : Json → String
  | .null => out ++ "null"
  | .bool b => out ++ (if b then "true" else "false")
  | .nat n => out ++ toString n
  | .otherNumber => out ++ "-0"
  | .str s => append out (quoted s)
  | .arr [] => out ++ "[]"
  | .arr (v :: vs) =>
    (newLine depth (writeItems (depth + 1) (write (depth + 1) (newLine (depth + 1) (out.push '[')) v) vs)).push ']'
  | .obj [] => (out.push '{').push '}'
  | .obj ((k, v) :: ms) =>
    (newLine depth (writeMembers (depth + 1)
      (write (depth + 1) (writeKey k (newLine (depth + 1) (out.push '{'))) v) ms)).push '}'

def writeItems (depth : Nat) (out : String) : List Json → String
  | [] => out
  | v :: vs => writeItems depth (write depth (newLine depth (out.push ',')) v) vs

def writeMembers (depth : Nat) (out : String) : List (Option String × Json) → String
  | [] => out
  | (k, v) :: ms => writeMembers depth (write depth (writeKey k (newLine depth (out.push ','))) v) ms

end

def pretty (v : Json) : String := write 0 "" v

end Machining.Json
