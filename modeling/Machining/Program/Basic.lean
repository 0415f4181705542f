import Machining.Text.Lines

/-!
A program for a machine tool: leading lines, operations, trailing lines. An operation has a header, one block of
lines for each work offset that it selects, and a footer; its source is all its lines in the order in which they
were read. Names, tools and line numbers are for information. The text of a program is made of its header, block
and footer lines only, so it follows the order of the blocks and not the source.
-/

namespace Machining

structure OffsetBlock where
  code : String
  firstLine : Nat
  lastLine : Nat
  lines : List String
  deriving DecidableEq, Repr, Inhabited

structure Operation where
  /-- The line number that opened the operation, or 0. -/
  ordinal : Nat := 0
  name : Option String := none
  tool : Option String := none
  toolDescription : Option String := none
  firstLine : Nat := 0
  lastLine : Nat := 0
  header : List String := []
  blocks : List OffsetBlock := []
  footer : List String := []
  source : List String := []
  deriving DecidableEq, Repr, Inhabited

structure Program where
  leading : List String := []
  operations : List Operation := []
  trailing : List String := []
  deriving DecidableEq, Repr, Inhabited

def OffsetBlock.caption (b : OffsetBlock) : String := s!"{b.code} (lines {b.firstLine}-{b.lastLine})"

namespace Operation

def blockLines (op : Operation) : List String := op.blocks.flatMap OffsetBlock.lines

def lines (op : Operation) : List String := op.header ++ op.blockLines ++ op.footer

def isPartitioned (op : Operation) : Bool := op.lines == op.source

def caption (op : Operation) : String :=
  let name := match op.name with | some name => ": " ++ name | none => ""
  let tool := match op.tool with | some tool => " (" ++ tool ++ ")" | none => ""
  "Op" ++ toString op.ordinal ++ name ++ tool

end Operation

namespace Program

def lines (p : Program) : List String := p.leading ++ p.operations.flatMap Operation.lines ++ p.trailing

def text (p : Program) : String := Text.join p.lines

def isPartitioned (p : Program) : Bool := p.operations.all Operation.isPartitioned

end Program

end Machining
