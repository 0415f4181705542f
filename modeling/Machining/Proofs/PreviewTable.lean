import Machining.Program.Preview
import Machining.Proofs.Headings
import Machining.Proofs.Numbering
import Machining.Proofs.Rendering
import Machining.Proofs.Reversal
import Machining.Proofs.Rows

/-!
The preview as a table that program text cannot break. Names and tools are taken from lines, in which no line end is
left, and so each summary takes one line of the table. Its last column says what the reversal does to the operation: the
blocks of one that is planned are in another order afterwards, and every other operation is as it was.
-/

namespace Machining
open Machining.Text

variable {o : Options} {text : String} {op : Operation} {i : Nat}

namespace Line

theorem exists_begins_of_mem_tokens {cs : List Char} {t : Token} (ht : t ∈ (ofChars cs).tokens) :
    ∃ (p : Piece) (rest more : List Char), Piece.Begins rest p more ∧ rest <:+ cs ∧ p.token? = some t := by
  obtain ⟨lead, mid, ps, hlead, hps⟩ := exists_lead_row cs
  rw [ofChars_of_lead hlead hps] at ht
  obtain ⟨p, hp, htoken⟩ := List.mem_filterMap.1 ht
  obtain ⟨before, after, rfl⟩ := List.append_of_mem hp
  obtain ⟨rest, hbefore, hrest⟩ := hps.exists_of_append
  cases hrest with
  | cons hbegins hafter =>
    refine ⟨p, rest, _, hbegins, ?_, htoken⟩
    rw [← hlead.source_append, ← hbefore.source_append, ← List.append_assoc]
    exact List.suffix_append _ _

theorem comment_subset {cs comment : List Char} (h : .comment comment ∈ (ofChars cs).tokens) : comment ⊆ cs := by
  obtain ⟨p, rest, more, hbegins, hrest, htoken⟩ := exists_begins_of_mem_tokens h
  refine List.Subset.trans ?_ hrest.subset
  cases hbegins <;> cases htoken
  case comment => exact fun c hc => List.mem_cons_of_mem _ (List.mem_append_left _ hc)
  all_goals exact List.subset_cons_self _ _

theorem isDigit_of_toolComment {cs digits description : List Char}
    (h : .toolComment digits description ∈ (ofChars cs).tokens) : ∀ c ∈ digits, c.isDigit = true := by
  obtain ⟨p, rest, more, hbegins, -, htoken⟩ := exists_begins_of_mem_tokens h
  cases hbegins <;> cases htoken
  case toolComment text _ htool =>
    simp only [toolComment?, Option.ite_none_right_eq_some] at htool
    obtain ⟨-, htool⟩ := htool
    split at htool
    · next d tail description hdigits hrest =>
      cases htool
      rw [← hdigits]
      exact fun c hc => List.mem_takeWhile_imp hc
    · cases htool

theorem unbroken_toolRemark {line : String} {found : String × String} (h : (read line).toolRemark? = some found) :
    Unbroken found.1.toList := by
  obtain ⟨before, t, after, hsplit, ⟨digits, description, rfl, rfl⟩, -⟩ := isFirst_toolRemark.2 h
  have hmem : .toolComment digits description ∈ (ofChars line.toList).tokens := by
    change _ ∈ (read line).tokens
    simp [hsplit]
  simp only [String.toList_append, String.toList_ofList]
  exact unbroken_append_iff.2 ⟨by decide, unbroken_of_isDigit (isDigit_of_toolComment hmem)⟩

theorem unbroken_toolWord {line tool : String} (h : (read line).toolWord? = some tool) : Unbroken tool.toList := by
  obtain ⟨before, w, after, -, ⟨digits, -, -, hdigits, -, rfl⟩, -⟩ := isFirst_toolWord.2 h
  simp only [String.toList_append, String.toList_ofList]
  exact unbroken_append_iff.2 ⟨by decide, unbroken_of_isDigit (List.all_eq_true.1 hdigits)⟩

theorem unbroken_operationName {line name : String} (hline : Unbroken line.toList)
    (h : (read line).operationName? = some name) : Unbroken name.toList := by
  obtain ⟨before, comment, after, hsplit, ⟨-, front, rest, hcomment, -, htrimmed, -⟩, -⟩ := isFirst_operationName.2 h
  obtain ⟨blanks, blanks', hrest, -⟩ := htrimmed
  have hmem : .comment comment ∈ (ofChars line.toList).tokens := by
    have hmem : comment ∈ (read line).comments := by simp [hsplit]
    obtain ⟨t, ht, hcomment⟩ := List.mem_filterMap.1 hmem
    cases t <;> cases hcomment
    exact ht
  refine (hline.mono (comment_subset hmem)).mono ?_
  rw [hcomment, hrest]
  intro c hc
  simp [hc]

end Line

theorem mem_lines_of_mem_source (hop : op ∈ (segment o text).operations) {l : String} (hl : l ∈ op.source) :
    l ∈ Text.lines text := by
  have hlines := (segments_segmentLines o (Text.lines text)).source_eq
  rw [← hlines]
  exact List.mem_append_left _ (List.mem_append_right _ (List.mem_flatMap_of_mem hop hl))

namespace Operation

theorem unbroken_name (hop : op ∈ (segment o text).operations) {name : String} (hname : op.name = some name) :
    Unbroken name.toList := by
  have hheading := congrArg Heading.name (heading_segmentLines hop)
  rw [Heading.name_ofLines] at hheading
  change op.name = _ at hheading
  rw [hname] at hheading
  obtain ⟨l, hl, hread⟩ := List.exists_of_findSome?_eq_some hheading.symm
  have hline : l ∈ Text.lines text := mem_lines_of_mem_source hop (List.mem_reverse.1 hl)
  exact Line.unbroken_operationName (unbroken_of_mem_lines hline) hread

theorem unbroken_tool (hop : op ∈ (segment o text).operations) {tool : String} (htool : op.tool = some tool) :
    Unbroken tool.toList := by
  have hheading := congrArg Heading.tool (heading_segmentLines hop)
  rw [Heading.tool_ofLines] at hheading
  change op.tool = _ at hheading
  rw [htool] at hheading
  rcases Option.or_eq_some_iff.1 hheading.symm with hremark | ⟨-, hword⟩
  · obtain ⟨found, hfound, rfl⟩ := Option.map_eq_some_iff.1 hremark
    obtain ⟨l, -, hread⟩ := List.exists_of_findSome?_eq_some hfound
    exact Line.unbroken_toolRemark hread
  · obtain ⟨l, -, hread⟩ := List.exists_of_findSome?_eq_some hword
    exact Line.unbroken_toolWord hread

end Operation

namespace Preview

def columns (operation name tool blocks order : String) : String :=
  padLeft 6 operation ++ "  " ++ padRight 24 name ++ " " ++ padRight 6 tool ++ " " ++ padLeft 4 blocks ++ "  " ++ order

theorem unbroken_padLeft (width : Nat) {s : String} (h : Unbroken s.toList) : Unbroken (padLeft width s).toList := by
  rw [padLeft, String.toList_append, toList_pushn]
  exact unbroken_append_iff.2 ⟨unbroken_replicate (by decide) _, h⟩

theorem unbroken_padRight (width : Nat) {s : String} (h : Unbroken s.toList) : Unbroken (padRight width s).toList := by
  rw [padRight, toList_pushn]
  exact unbroken_append_iff.2 ⟨h, unbroken_replicate (by decide) _⟩

theorem unbroken_columns {operation name tool blocks order : String} (hoperation : Unbroken operation.toList)
    (hname : Unbroken name.toList) (htool : Unbroken tool.toList) (hblocks : Unbroken blocks.toList)
    (horder : Unbroken order.toList) : Unbroken (columns operation name tool blocks order).toList := by
  have hone : Unbroken " ".toList := by decide
  have htwo : Unbroken "  ".toList := by decide
  simp only [columns, String.toList_append, unbroken_append_iff]
  simp only [unbroken_padLeft, unbroken_padRight, hoperation, hname, htool, hblocks, horder, hone, htwo, and_self]

end Preview

def Summary.order (s : Summary) : String := if s.isReversed then "reversed" else "kept"

def Summary.columns (s : Summary) : String :=
  Preview.columns ("N" ++ toString s.ordinal) (s.name.getD "-") (s.tool.getD "-") (toString s.blockCount) s.order

theorem Summary.unbroken_columns {s : Summary} (hname : ∀ name ∈ s.name, Unbroken name.toList)
    (htool : ∀ tool ∈ s.tool, Unbroken tool.toList) : Unbroken s.columns.toList := by
  have hgetD {x : Option String} (hx : ∀ y ∈ x, Unbroken y.toList) : Unbroken (x.getD "-").toList := by
    cases x with
    | none => decide
    | some y => exact hx y rfl
  have hordinal : Unbroken ("N" ++ toString s.ordinal).toList := by
    rw [String.toList_append]
    exact unbroken_append_iff.2 ⟨by decide, unbroken_toString _⟩
  have horder : Unbroken s.order.toList := by
    unfold order
    split <;> decide
  exact Preview.unbroken_columns hordinal (hgetD hname) (hgetD htool) (unbroken_toString _) horder

theorem Summary.endsIn_reversed_iff (s : Summary) : "reversed".toList <:+ s.columns.toList ↔ s.isReversed = true := by
  obtain ⟨front, hfront⟩ : ∃ front : String, s.columns = front ++ s.order := ⟨_, rfl⟩
  rw [hfront, String.toList_append, order]
  cases s.isReversed with
  | true => exact iff_of_true (List.suffix_append _ _) rfl
  | false =>
    refine iff_of_false (fun h => ?_) Bool.false_ne_true
    obtain ⟨before, hbefore⟩ := h
    have hlast := congrArg List.getLast? hbefore
    simp at hlast

namespace Text

theorem join_concat (ls : List String) (last : String) :
    join (ls ++ [last]) = String.join (ls.map (· ++ "\n")) ++ last := by
  apply String.toList_inj.1
  rw [toList_join]
  induction ls with
  | nil => simp
  | cons l ls ih =>
    rw [List.cons_append, List.map_cons, List.intercalate_cons_of_ne_nil (by simp), ih]
    simp

theorem splitOn_join {ls : List String} (h : ∀ l ∈ ls, Unbroken l.toList) (hne : ls ≠ []) :
    (join ls).toList.splitOn '\n' = ls.map String.toList := by
  rw [toList_join]
  refine List.splitOn_intercalate '\n' (fun l hl => ?_) (by simpa using hne)
  obtain ⟨s, hs, rfl⟩ := List.mem_map.1 hl
  exact (h s hs).1

end Text

namespace Program

def previewLines (p : Program) : List String :=
  Preview.columns "OP" "NAME" "TOOL" "WCS" "ORDER" :: p.preview.map Summary.columns ++
    [toString p.operations.length ++ " operation(s)"]

theorem previewTable_eq (p : Program) : p.previewTable = join p.previewLines := by
  have hrows : p.preview.map Summary.row = (p.preview.map Summary.columns).map (· ++ "\n") := by
    rw [List.map_map]
    rfl
  rw [previewLines, join_concat, List.map_cons, String.join_cons, ← hrows, previewTable, String.append_assoc]
  rfl

theorem length_previewLines (p : Program) : p.previewLines.length = p.operations.length + 2 := by
  simp [previewLines, preview]

theorem getElem?_previewLines {p : Program} (hop : p.operations[i]? = some op) :
    p.previewLines[i + 1]? = some (op.summary i).columns := by
  have hlt : i < p.operations.length := (List.getElem?_eq_some_iff.1 hop).1
  rw [previewLines, List.cons_append, List.getElem?_cons_succ, List.getElem?_append_left (by simpa [preview] using hlt)]
  simp [preview, hop]

end Program

theorem unbroken_of_mem_previewLines {l : String} (hl : l ∈ (segment o text).previewLines) : Unbroken l.toList := by
  rw [Program.previewLines, List.mem_append, List.mem_cons, List.mem_singleton] at hl
  rcases hl with (rfl | hl) | rfl
  · exact Preview.unbroken_columns (by decide) (by decide) (by decide) (by decide) (by decide)
  · obtain ⟨s, hs, rfl⟩ := List.mem_map.1 hl
    obtain ⟨i, hi, rfl⟩ := List.mem_mapIdx.1 hs
    have hop : (segment o text).operations[i] ∈ (segment o text).operations := List.getElem_mem hi
    exact Summary.unbroken_columns (fun _ => Operation.unbroken_name hop) (fun _ => Operation.unbroken_tool hop)
  · rw [String.toList_append]
    exact unbroken_append_iff.2 ⟨unbroken_toString _, by decide⟩

/-- Blocks that follow each other begin in different lines, so the order of two or more of them shows. -/
theorem OffsetBlock.reverse_chain_ne {first : Nat} {gs : List (List String)} (h : ∀ g ∈ gs, g ≠ [])
    (hcount : 1 < gs.length) : (chain first gs).reverse ≠ chain first gs := by
  intro hreverse
  obtain ⟨g, rest, rfl⟩ := List.exists_cons_of_length_pos (Nat.zero_lt_of_lt hcount)
  have hpos : 0 < g.length := List.length_pos_iff.2 (h g List.mem_cons_self)
  have hrest : chain (first + g.length) rest ≠ [] := by
    rw [← List.length_pos_iff, length_chain]
    simpa using hcount
  have hlast : (chain first (g :: rest)).getLast? = some (ofLines first g) := by
    rw [← List.head?_reverse, hreverse]
    rfl
  rw [chain, List.getLast?_cons_of_ne_nil hrest] at hlast
  obtain ⟨before, after, -, hfirst⟩ := exists_split_of_mem_chain (List.mem_of_getLast? hlast)
  have hfirst : first = first + g.length + before.length := hfirst
  omega

namespace Operation

theorem reverse_blocks_ne (h : op.classify = op) (hplan : op.isPlanned i = true) : op.reverse.blocks ≠ op.blocks := by
  obtain ⟨gs, hd, hblocks⟩ := exists_groups h
  have hcount := one_lt_length_blocks hplan
  rw [hblocks, OffsetBlock.length_chain] at hcount
  change op.blocks.reverse ≠ op.blocks
  rw [hblocks]
  exact OffsetBlock.reverse_chain_ne (fun g hg => (hd.groups_run g hg).ne_nil) hcount

end Operation

/-- The table has a heading, a line for each operation in order and the number of operations, and nothing in the text
makes it more lines or fewer. -/
theorem lines_previewTable (o : Options) (text : String) :
    ∃ lines : List String, '\r' ∉ (segment o text).previewTable.toList ∧
      (segment o text).previewTable.toList.splitOn '\n' = lines.map String.toList ∧
      lines.length = (segment o text).operations.length + 2 ∧
      lines.getLast? = some (toString (segment o text).operations.length ++ " operation(s)") ∧
      ∀ i op, (segment o text).operations[i]? = some op → ∃ line op', lines[i + 1]? = some line ∧
        (op.summary i).row = line ++ "\n" ∧ (segment o text).zigzag.operations[i]? = some op' ∧
        ("reversed".toList <:+ line.toList ↔ i ∈ (segment o text).plan) ∧
        (i ∈ (segment o text).plan → op' = op.reverse ∧ op'.blocks ≠ op.blocks) ∧
        (i ∉ (segment o text).plan → op' = op) := by
  have hunbroken : ∀ l ∈ (segment o text).previewLines, Unbroken l.toList := fun _ => unbroken_of_mem_previewLines
  refine ⟨(segment o text).previewLines, ?_, ?_, Program.length_previewLines _, ?_, ?_⟩
  · rw [Program.previewTable_eq]
    exact return_notMem_join hunbroken
  · rw [Program.previewTable_eq]
    exact splitOn_join hunbroken (by simp [Program.previewLines])
  · rw [Program.previewLines, List.getLast?_concat]
  · intro i op hop
    have hplan : i ∈ (segment o text).plan ↔ op.isPlanned i = true := by
      rw [Program.mem_plan_iff, hop]
      simp
    have hdivided : op.classify = op :=
      (segments_segmentLines o (Text.lines text)).divided op (List.mem_of_getElem? hop)
    have hturned : (segment o text).zigzag.operations[i]? = some (op.turned i) := by
      rw [Program.operations_zigzag, Operation.getElem?_turnFrom, hop, Nat.zero_add]
      rfl
    refine ⟨_, _, Program.getElem?_previewLines hop, rfl, hturned, ?_, ?_, ?_⟩
    · rw [hplan]
      exact (op.summary i).endsIn_reversed_iff
    · intro hmem
      rw [Operation.turned, if_pos (hplan.1 hmem)]
      exact ⟨rfl, Operation.reverse_blocks_ne hdivided (hplan.1 hmem)⟩
    · intro hmem
      rw [Operation.turned, if_neg (hmem ∘ hplan.2)]

theorem lines_previewTable_planned :
    ∃ lines : List String,
      (segment {} "N1 G54\r\nN2 T07 (Operation: A)\rG54\nG55").previewTable.toList.splitOn '\n' =
        lines.map String.toList ∧
      lines.length = 4 ∧ lines.getLast? = some "2 operation(s)" ∧
      ∃ (op : Operation) (line : String), op.heading = ⟨some "A", some "T07", none⟩ ∧ lines[2]? = some line ∧
        (op.summary 1).row = line ++ "\n" ∧ "reversed".toList <:+ line.toList := by
  have hheading : (segment {} "N1 G54\r\nN2 T07 (Operation: A)\rG54\nG55").operations[1]?.map Operation.heading =
      some ⟨some "A", some "T07", none⟩ := by decide
  have hplan : 1 ∈ (segment {} "N1 G54\r\nN2 T07 (Operation: A)\rG54\nG55").plan := by decide
  have hcount : (segment {} "N1 G54\r\nN2 T07 (Operation: A)\rG54\nG55").operations.length = 2 := by decide
  obtain ⟨lines, -, hsplit, hlength, hlast, hlines⟩ :=
    lines_previewTable {} "N1 G54\r\nN2 T07 (Operation: A)\rG54\nG55"
  obtain ⟨op, hop, hheading⟩ := Option.map_eq_some_iff.1 hheading
  obtain ⟨line, op', hline, hrow, -, hreversed, -⟩ := hlines 1 op hop
  rw [hcount] at hlength hlast
  exact ⟨lines, hsplit, hlength, hlast, op, line, hheading, hline, hrow, hreversed.2 hplan⟩

end Machining
