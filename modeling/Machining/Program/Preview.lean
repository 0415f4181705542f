import Machining.Program.ZigZag

/-!
What the reversal would do, one summary for each operation, and these as a table. Columns are filled up with blanks
to their width, counted in characters, and never cut.
-/

namespace Machining

structure Summary where
  /-- The line number of the operation, or its place, from 1 on, if it has none. Places are cut to 32 bits. -/
  ordinal : Nat
  name : Option String
  tool : Option String
  blockCount : Nat
  isReversed : Bool
  deriving DecidableEq, Repr

def Operation.summary (i : Nat) (op : Operation) : Summary :=
  { ordinal := if op.ordinal = 0 then (i + 1) % numberLimit else op.ordinal
    name := op.name
    tool := op.tool
    blockCount := op.blocks.length
    isReversed := op.isPlanned i }

def Program.preview (p : Program) : List Summary := p.operations.mapIdx fun i op => op.summary i

namespace Preview

def padLeft (width : Nat) (s : String) : String := "".pushn ' ' (width - s.length) ++ s

def padRight (width : Nat) (s : String) : String := s.pushn ' ' (width - s.length)

def row (operation name tool blocks order : String) : String :=
  padLeft 6 operation ++ "  " ++ padRight 24 name ++ " " ++ padRight 6 tool ++ " " ++ padLeft 4 blocks ++ "  "
    ++ order ++ "\n"

def heading : String := row "OP" "NAME" "TOOL" "WCS" "ORDER"

end Preview

def Summary.row (s : Summary) : String :=
  Preview.row ("N" ++ toString s.ordinal) (s.name.getD "-") (s.tool.getD "-") (toString s.blockCount)
    (if s.isReversed then "reversed" else "kept")

def Program.previewTable (p : Program) : String :=
  Preview.heading ++ String.join (p.preview.map Summary.row) ++ toString p.operations.length ++ " operation(s)"

end Machining
