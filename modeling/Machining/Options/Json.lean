import Machining.Json.Reader
import Machining.Options

/-!
Options in JSON: an object or an array of the two rules, each of which may be missing and is then the default. A rule
is given by its name, or by an object with the name as its only key and null under it.
-/

namespace Machining

def Json.choice? : Json → Option String
  | .str s => s
  | .obj [(key, .null)] => key
  | _ => none

def BoundaryRule.ofJson? (v : Json) : Option BoundaryRule := v.choice?.bind ofName?

def TrailingRule.ofJson? (v : Json) : Option TrailingRule := v.choice?.bind ofName?

namespace Options

def ofJson? (v : Json) : Option Options :=
  match v.fields? ["boundary", "trailing"] with
  | some [boundary, trailing] => do
    return ⟨← (boundary.map BoundaryRule.ofJson?).getD (some .lineNumberOrToolChange),
      ← (trailing.map TrailingRule.ofJson?).getD (some .keep)⟩
  | _ => none

def parse? (text : String) : Option Options := (Json.read? text).bind ofJson?

end Options

end Machining
