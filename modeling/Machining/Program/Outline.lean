import Machining.Program.Basic

/-!
The outline of a program: its operations with their blocks, and the number of lines in all other parts. Every entry has
a line of its own.
-/

namespace Machining

def Operation.outline (op : Operation) : List String :=
  let description := match op.toolDescription with | some text => " " ++ text | none => ""
  [op.caption ++ s!" [lines {op.firstLine}-{op.lastLine}]" ++ description,
    s!"    header: {op.header.length} line(s)"]
    ++ op.blocks.map (fun b => "    " ++ b.caption)
    ++ [s!"    footer: {op.footer.length} line(s)"]

def Program.outline (p : Program) : String :=
  let entries := [s!"{p.leading.length} leading line(s)"] ++ p.operations.flatMap Operation.outline
    ++ [s!"{p.trailing.length} trailing line(s)"]
  String.join (entries.map (· ++ "\n"))

end Machining
