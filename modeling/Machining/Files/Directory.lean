import Machining.Files.Basic

/-!
A directory held in memory, which answers a read as a disk would. Files are named by their path from the directory, and
the directories between are there with them. A path is walked from left to right; nothing lies below a file, not even
the file itself by way of `.` or of a slash at the end. Above the directory there are only directories without files.
-/

namespace Machining

structure Directory where
  files : List (List String × ByteArray)

namespace Directory

def segments (path : String) : List String := (path.toList.splitOn '/').map String.ofList

def ofFiles (files : List (String × ByteArray)) : Directory := ⟨files.map fun f => (segments f.1, f.2)⟩

/-- A place that a walk has come to. Directories are named from the inside out. -/
inductive Place
  | directory (names : List String)
  | above
  | file (bytes : ByteArray)

def descend (d : Directory) (names : List String) : Except ReadError Place :=
  let path := names.reverse
  match d.files.find? (·.1 == path) with
  | some f => .ok (.file f.2)
  | none => if d.files.any (path.isPrefixOf ·.1) then .ok (.directory names) else .error .notFound

def walk (d : Directory) : Place → String → Except ReadError Place
  | .file _, _ => .error .notDirectory
  | .above, name => if ["", ".", ".."].contains name then .ok .above else .error .notFound
  | .directory names, name =>
    if name = "" ∨ name = "." then .ok (.directory names)
    else if name = ".." then
      match names with
      | [] => .ok .above
      | _ :: outer => .ok (.directory outer)
    else d.descend (name :: names)

def readBytes (d : Directory) (path : String) : Except ReadError ByteArray :=
  let start := if path.startsWith "/" then Place.above else .directory []
  if path = "" then .error .notFound
  else
    match (segments path).foldlM d.walk start with
    | .ok (.file bytes) => .ok bytes
    | .ok _ => .error .isDirectory
    | .error e => .error e

def read (d : Directory) (path : String) : Except ReadError String := (d.readBytes path).bind decodeText

end Directory

end Machining
