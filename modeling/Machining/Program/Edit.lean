import Machining.Program.ZigZag

/-!
Edits of a program, one after the other. An edit that names an operation by its index has no result where there is
none. Nothing else is checked, so edits may leave a program whose parts do not fit its source.
-/

namespace Machining

inductive Edit
  | load (p : Program)
  | segment (o : Options) (text : String)
  | resegment (o : Options)
  | zigzag
  | classify (i : Nat)
  | setSource (i : Nat) (ls : List String)
  | setFirstLine (i : Nat) (n : Nat)
  | reverse (i : Nat)
  | drop (i : Nat)
  /-- Takes out the operation at `i` and puts it at index `j` of those that are left. -/
  | move (i j : Nat)
  | setLeading (ls : List String)
  | setTrailing (ls : List String)

namespace Program

def modifyAt? (p : Program) (i : Nat) (f : Operation → Operation) : Option Program :=
  if i < p.operations.length then some { p with operations := p.operations.modify i f } else none

def drop? (p : Program) (i : Nat) : Option Program :=
  if i < p.operations.length then some { p with operations := p.operations.eraseIdx i } else none

def move? (p : Program) (i j : Nat) : Option Program :=
  match p.operations[i]? with
  | some op =>
    if j < p.operations.length then some { p with operations := (p.operations.eraseIdx i).insertIdx j op } else none
  | none => none

end Program

def Edit.run? (p : Program) : Edit → Option Program
  | .load q => some q
  | .segment o text => some (Machining.segment o text)
  | .resegment o => some (Machining.segment o p.text)
  | .zigzag => some p.zigzag
  | .classify i => p.modifyAt? i Operation.classify
  | .setSource i ls => p.modifyAt? i fun op => { op with source := ls }
  | .setFirstLine i n => p.modifyAt? i fun op => { op with firstLine := n }
  | .reverse i => p.modifyAt? i Operation.reverse
  | .drop i => p.drop? i
  | .move i j => p.move? i j
  | .setLeading ls => some { p with leading := ls }
  | .setTrailing ls => some { p with trailing := ls }

end Machining
