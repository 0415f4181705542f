import Machining.Json.Basic
import Machining.Program.Basic

/-!
Programs in JSON. Each record is written as an object of all its fields. To be read, a record may have further
members, which are ignored, or be an array of its fields in order; only name, tool and description of an
operation may be missing. Nothing is checked for consistency, but an ordinal has to fit into 32 bits and a line number
into 64.
-/

namespace Machining

namespace Json

def optionalText : Option String → Json
  | some s => text s
  | none => null

def optionalText? : Option Json → Option (Option String)
  | none => some none
  | some .null => some none
  | some v => v.text?.map some

def ordinal? : Json → Option Nat := below? (Nat.pow 2 32)

def lineNumber? : Json → Option Nat := below? (Nat.pow 2 64)

end Json

namespace OffsetBlock

def toJson (b : OffsetBlock) : Json :=
  .object [("wcs_code", .text b.code), ("start_line", .nat b.firstLine), ("end_line", .nat b.lastLine),
    ("lines", .texts b.lines)]

def ofJson? (v : Json) : Option OffsetBlock :=
  match v.fields? ["wcs_code", "start_line", "end_line", "lines"] with
  | some [some code, some firstLine, some lastLine, some lines] => do
    return ⟨← code.text?, ← firstLine.lineNumber?, ← lastLine.lineNumber?, ← lines.texts?⟩
  | _ => none

end OffsetBlock

namespace Operation

def toJson (op : Operation) : Json :=
  .object [("ordinal", .nat op.ordinal), ("name", .optionalText op.name), ("tool_number", .optionalText op.tool),
    ("tool_description", .optionalText op.toolDescription), ("start_line", .nat op.firstLine),
    ("end_line", .nat op.lastLine), ("header_lines", .texts op.header),
    ("wcs_blocks", .arr (op.blocks.map OffsetBlock.toJson)), ("footer_lines", .texts op.footer),
    ("raw_lines", .texts op.source)]

def ofJson? (v : Json) : Option Operation :=
  match v.fields? ["ordinal", "name", "tool_number", "tool_description", "start_line", "end_line", "header_lines",
    "wcs_blocks", "footer_lines", "raw_lines"] with
  | some [some ordinal, name, tool, toolDescription, some firstLine, some lastLine, some header, some blocks,
      some footer, some source] => do
    return ⟨← ordinal.ordinal?, ← Json.optionalText? name, ← Json.optionalText? tool,
      ← Json.optionalText? toolDescription, ← firstLine.lineNumber?, ← lastLine.lineNumber?, ← header.texts?,
      ← blocks.list? OffsetBlock.ofJson?, ← footer.texts?, ← source.texts?⟩
  | _ => none

end Operation

namespace Program

def toJson (p : Program) : Json :=
  .object [("leading_lines", .texts p.leading), ("operations", .arr (p.operations.map Operation.toJson)),
    ("trailing_lines", .texts p.trailing)]

def ofJson? (v : Json) : Option Program :=
  match v.fields? ["leading_lines", "operations", "trailing_lines"] with
  | some [some leading, some operations, some trailing] => do
    return ⟨← leading.texts?, ← operations.list? Operation.ofJson?, ← trailing.texts?⟩
  | _ => none

end Program

end Machining
