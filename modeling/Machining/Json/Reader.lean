import Machining.Json.Symbol

/-!
Reading a document, one symbol at a time. The reader knows what may stand next and which arrays and objects are
open around it, so a document may be nested to any depth. A document is one value; behind it there may be blanks only.
-/

namespace Machining.Json

inductive Frame
  | array (items : Array Json)
  | object (members : Array (Option String × Json)) (key : Option String)

inductive Expected
  | value
  | firstItem
  | itemEnd (items : Array Json)
  | firstKey
  | key (members : Array (Option String × Json))
  | colon (members : Array (Option String × Json)) (key : Option String)
  | memberEnd (members : Array (Option String × Json))
  | nothing (v : Json)

structure Reader where
  expected : Expected
  frames : List Frame

namespace Reader

def start : Reader := ⟨.value, []⟩

def give (v : Json) : List Frame → Reader
  | [] => ⟨.nothing v, []⟩
  | .array items :: frames => ⟨.itemEnd (items.push v), frames⟩
  | .object members key :: frames => ⟨.memberEnd (members.push (key, v)), frames⟩

def takeValue (frames : List Frame) : Symbol → Option Reader
  | .scalar v => some (give v frames)
  | .mark '[' => some ⟨.firstItem, frames⟩
  | .mark '{' => some ⟨.firstKey, frames⟩
  | _ => none

def takeKey (members : Array (Option String × Json)) (frames : List Frame) : Symbol → Option Reader
  | .scalar (.str key) => some ⟨.colon members key, frames⟩
  | _ => none

def take (r : Reader) (s : Symbol) : Option Reader :=
  match r.expected, s with
  | .value, s => takeValue r.frames s
  | .firstItem, .mark ']' => some (give (.arr []) r.frames)
  | .firstItem, s => takeValue (.array #[] :: r.frames) s
  | .itemEnd items, .mark ',' => some ⟨.value, .array items :: r.frames⟩
  | .itemEnd items, .mark ']' => some (give (.arr items.toList) r.frames)
  | .firstKey, .mark '}' => some (give (.obj []) r.frames)
  | .firstKey, s => takeKey #[] r.frames s
  | .key members, s => takeKey members r.frames s
  | .colon members key, .mark ':' => some ⟨.value, .object members key :: r.frames⟩
  | .memberEnd members, .mark ',' => some ⟨.key members, r.frames⟩
  | .memberEnd members, .mark '}' => some (give (.obj members.toList) r.frames)
  | _, _ => none

def step (r : Reader) : Symbol → Option Reader
  | .blank => some r
  | s => r.take s

def result? : Reader → Option Json
  | ⟨.nothing v, []⟩ => some v
  | _ => none

end Reader

def read? (text : String) : Option Json := ((symbols text).foldlM Reader.step .start).bind Reader.result?

end Machining.Json
