import Machining.Program.Segment

/-!
Reversing every second operation. A machine that works on several fixtures ends an operation at the last one and
would return to the first for the next operation. It saves the way back if the second, fourth, sixth, … operation
visits its fixtures in reverse. Only blocks change places, and only in an operation with more than one.
-/

namespace Machining

def Operation.isPlanned (i : Nat) (op : Operation) : Bool := i % 2 == 1 && decide (1 < op.blocks.length)

def Operation.reverse (op : Operation) : Operation := { op with blocks := op.blocks.reverse }

namespace Program

def plan (p : Program) : List Nat :=
  p.operations.zipIdx.filterMap fun (op, i) => if op.isPlanned i then some i else none

def zigzag (p : Program) : Program :=
  { p with operations := p.operations.mapIdx fun i op => if op.isPlanned i then op.reverse else op }

end Program

/-- The text with its operations reversed where planned. A text without operations stays as it is, line ends
included. -/
def optimize (o : Options) (text : String) : String :=
  let p := segment o text
  if p.operations.isEmpty then text else p.zigzag.text

end Machining
