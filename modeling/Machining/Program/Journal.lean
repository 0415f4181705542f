import Machining.Program.ZigZag

/-!
The journal of a run: what happens while a text is divided and its program reversed. Each operation is reported when
it opens, then the division of its lines one by one, then its extent; the last record counts the reversals.
-/

namespace Machining

inductive Level
  | trace
  | debug
  | info
  deriving DecidableEq, Repr

structure Record where
  level : Level
  message : String
  deriving DecidableEq, Repr

def Phase.name : Phase → String
  | .beforeOffset => "BeforeWcs"
  | .inOffset => "InWcs"
  | .inFooter => "InFooter"

namespace Record

def opened (op : Operation) : Record := ⟨.debug, s!"line {op.firstLine}: operation N{op.ordinal} starts"⟩

def closed (op : Operation) : Record :=
  ⟨.debug, s!"lines {op.firstLine}-{op.lastLine}: {op.caption}, {op.blocks.length} WCS block(s)"⟩

def turned (n : Nat) : Turn → List Record
  | .stay => []
  | .openBlock code => [⟨.debug, s!"line {n}: {code} block"⟩]
  | .startFooter => [⟨.debug, s!"line {n}: footer starts"⟩]

def stored (n : Nat) (phase : Phase) : Record := ⟨.trace, s!"line {n}: {phase.name}"⟩

def reversed (p : Program) : Record :=
  ⟨.info, s!"zig-zag: reversed {p.plan.length} of {p.operations.length} operations"⟩

end Record

namespace Operation

def divisionRecords (phase : Phase) (done : Array Record) : List (String × Nat) → Array Record
  | [] => done
  | (text, n) :: rest =>
    let turn := Turn.of phase (Line.read text)
    let next := turn.phase phase
    divisionRecords next ((done ++ (Record.turned n turn).toArray).push (Record.stored n next)) rest

def classifyRecords (op : Operation) : List Record :=
  (divisionRecords .beforeOffset #[] (op.source.zipIdx op.firstLine)).toList

def records (op : Operation) : List Record := Record.opened op :: op.classifyRecords ++ [Record.closed op]

end Operation

def journal (o : Options) (text : String) : List Record :=
  let p := segment o text
  p.operations.flatMap Operation.records ++ [Record.reversed p]

end Machining
