/-!
Documents in JSON. A value keeps what a reader of documents can ask for. A number counts as natural when it is spelled
with digits only; any other number is known to be one and no more. A string that is spelled with half of a
surrogate pair stands for no text. Members keep their order, and a key may be given twice.
-/

namespace Machining

inductive Json
  | null
  | bool (b : Bool)
  | nat (n : Nat)
  | otherNumber
  | str (text : Option String)
  | arr (items : List Json)
  | obj (members : List (Option String × Json))
  deriving Inhabited

namespace Json

def object (members : List (String × Json)) : Json := .obj (members.map fun m => (some m.1, m.2))

def text (s : String) : Json := .str (some s)

def texts (ls : List String) : Json := .arr (ls.map text)

def text? : Json → Option String
  | .str s => s
  | _ => none

def below? (limit : Nat) : Json → Option Nat
  | .nat n => if n < limit then some n else none
  | _ => none

def list? {α : Type} (item? : Json → Option α) : Json → Option (List α)
  | .arr items => items.mapM item?
  | _ => none

def texts? : Json → Option (List String) := list? text?

/-- What stands under a key: nothing at all when the key is given twice, `some none` when it is not given. -/
def member? (members : List (Option String × Json)) (key : String) : Option (Option Json) :=
  match members.filter (·.1 == some key) with
  | [] => some none
  | [m] => some (some m.2)
  | _ => none

/-- The fields of a record, each of them possibly absent. A record is an object, whose other members are ignored, or an
array of the fields in order, which may end early. The keys of the object have to be texts. -/
def fields? (keys : List String) : Json → Option (List (Option Json))
  | .obj members => if members.all (·.1.isSome) then keys.mapM (member? members) else none
  | .arr items =>
    if items.length ≤ keys.length then some (items.map some ++ List.replicate (keys.length - items.length) none)
    else none
  | _ => none

end Json

end Machining
