import Machining.Line.Codes
import Machining.Program.Basic

/-!
Dividing an operation into header, offset blocks and footer. Lines are header until a work offset is selected. Each
selection opens a block, and once there is a block, a footer trigger starts the footer, which takes all lines that
are left. A line that selects an offset and is a footer trigger too is a footer trigger only; in front of the
first block it is header like any other.
-/

namespace Machining

inductive Phase
  | beforeOffset
  | inOffset
  | inFooter
  deriving DecidableEq, Repr

inductive Turn
  | stay
  | openBlock (code : String)
  | startFooter
  deriving DecidableEq, Repr

def Turn.of (phase : Phase) (line : Line) : Turn :=
  match phase, line.isFooterTrigger, line.offsetCode? with
  | .inFooter, _, _ => .stay
  | _, false, some code => .openBlock code
  | .inOffset, true, _ => .startFooter
  | _, _, _ => .stay

def Turn.phase (before : Phase) : Turn → Phase
  | .stay => before
  | .openBlock _ => .inOffset
  | .startFooter => .inFooter

structure OpenBlock where
  code : String
  firstLine : Nat
  lastLine : Nat
  lines : Array String
  deriving DecidableEq, Repr

def OpenBlock.close (b : OpenBlock) : OffsetBlock := ⟨b.code, b.firstLine, b.lastLine, b.lines.toList⟩

structure Progress where
  phase : Phase := .beforeOffset
  header : Array String := #[]
  closed : Array OffsetBlock := #[]
  current : Option OpenBlock := none
  footer : Array String := #[]
  deriving DecidableEq, Repr

namespace Progress

def blocks (p : Progress) : Array OffsetBlock :=
  match p.current with
  | some b => p.closed.push b.close
  | none => p.closed

def turn (p : Progress) (n : Nat) : Turn → Progress
  | .stay => p
  | .openBlock code =>
    { p with phase := .inOffset, closed := p.blocks, current := some ⟨code, n, n, #[]⟩ }
  | .startFooter => { p with phase := .inFooter, closed := p.blocks, current := none }

/-- Puts line `n` where the phase says. Without an open block a line within the offsets would be footer. -/
def store (p : Progress) (n : Nat) (text : String) : Progress :=
  match p.phase, p.current with
  | .beforeOffset, _ => { p with header := p.header.push text }
  | .inOffset, some b => { p with current := some ⟨b.code, b.firstLine, n, b.lines.push text⟩ }
  | .inOffset, none => { p with footer := p.footer.push text }
  | .inFooter, _ => { p with footer := p.footer.push text }

theorem phase_store (p : Progress) (n : Nat) (text : String) : (p.store n text).phase = p.phase := by
  unfold store
  split <;> rfl

def step (p : Progress) (text : String) (n : Nat) : Progress :=
  (p.turn n (Turn.of p.phase (Line.read text))).store n text

def run (first : Nat) (ls : List String) : Progress :=
  (ls.zipIdx first).foldl (fun p l => p.step l.1 l.2) {}

/-- The run in which a line gets its number from its place among the lines. -/
def runBy (number : Nat → Nat) (ls : List String) : Progress :=
  ls.zipIdx.foldl (fun p l => p.step l.1 (number l.2)) {}

end Progress

namespace Operation

def withParts (op : Operation) (p : Progress) : Operation :=
  { op with header := p.header.toList, blocks := p.blocks.toList, footer := p.footer.toList }

/-- Divides the source anew; all that does not depend on the division stays. Line numbers have no bound here. -/
def classify (op : Operation) : Operation := op.withParts (Progress.run op.firstLine op.source)

def classifyBy (number : Nat → Nat) (op : Operation) : Operation := op.withParts (Progress.runBy number op.source)

/-- The bound of line numbers that are machine words. -/
def lineLimit : Nat := Nat.pow 2 64

/-- The sum of two machine words without a check: it wraps around. -/
def wrappedSum (first offset : Nat) : Nat := (first + offset) % lineLimit

def classifyWrapped (op : Operation) : Operation := op.classifyBy (wrappedSum op.firstLine)

end Operation

end Machining
