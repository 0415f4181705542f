import Machining.Program.Journal
import Machining.Proofs.Reading

/-!
Dividing a text line by line with a journal kept on the way. Opening an operation is recorded before its lines are known,
what a line does to the division before it is stored, and the extent of an operation when it is closed, which for the
last one is after its closing lines are cut off. All records of an operation come from its first line, its ordinal and
its source as it was closed, so reading in this way ends in the program of `segment` and in the records of its operations.
-/

namespace Machining

structure Journaled (α : Type) where
  value : α
  records : List Record

namespace Progress

def stepJournaled (p : Journaled Progress) (text : String) (n : Nat) : Journaled Progress :=
  let turn := Turn.of p.value.phase (Line.read text)
  let turned := p.value.turn n turn
  ⟨turned.store n text, p.records ++ Record.turned n turn ++ [Record.stored n turned.phase]⟩

end Progress

namespace Operation

def closeJournaled (op : Operation) (records : List Record) : Journaled Operation :=
  let p := (op.source.zipIdx op.firstLine).foldl (fun p l => Progress.stepJournaled p l.1 l.2) ⟨{}, records⟩
  let closed := { op with
    header := p.value.header.toList, blocks := p.value.blocks.toList, footer := p.value.footer.toList }
  ⟨closed, p.records ++ [Record.closed closed]⟩

end Operation

namespace Reading

def closeJournaled (r : Journaled Reading) : Journaled Reading :=
  match r.value.current with
  | none => r
  | some op =>
    let closed := op.closeJournaled r.records
    ⟨{ r.value with closed := r.value.closed ++ [closed.value], current := none }, closed.records⟩

def openJournaled (rule : BoundaryRule) (text : String) (n : Nat) (r : Journaled Reading) : Journaled Reading :=
  if opensOperation rule text then
    let r := closeJournaled r
    let op : Operation := { ordinal := (Line.read text).ordinal, firstLine := n }
    ⟨{ r.value with current := some op }, r.records ++ [Record.opened op]⟩
  else r

def stepJournaled (rule : BoundaryRule) (r : Journaled Reading) (text : String) (n : Nat) : Journaled Reading :=
  let r := openJournaled rule text n r
  ⟨r.value.store text n, r.records⟩

end Reading

namespace Operation

end Operation

namespace Reading

/-- What has been recorded when the reading has come this far: the open operation has been opened and no more. -/
def records (r : Reading) : List Record :=
  r.closed.flatMap Operation.records ++ (r.current.map Record.opened).toList

end Reading

end Machining
