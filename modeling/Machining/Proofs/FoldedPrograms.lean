import Machining.Proofs.FoldedLines
import Machining.Proofs.Reversal

/-!
Dividing and reversing a text with its letters folded. All questions put to a line are blind to case, so runs, groups
and closing lines are the same lines, folded. Ordinals, tools, offset codes and line numbers stay as they are, and so
does the plan.
-/

namespace Machining
open Machining.Text

section

variable (text : String)

theorem opensOperation_foldCase (rule : BoundaryRule) :
    opensOperation rule (foldCase text) = opensOperation rule text := by
  rw [opensOperation, Line.read_foldCase, Line.isBoundary_foldCase, opensOperation]

theorem selectsOffset_foldCase : selectsOffset (foldCase text) = selectsOffset text := by
  simp only [selectsOffset, Line.read_foldCase, Line.offsetCode?_foldCase, Line.isFooterTrigger_foldCase]

theorem triggersFooter_foldCase : triggersFooter (foldCase text) = triggersFooter text := by
  rw [triggersFooter, Line.read_foldCase, Line.isFooterTrigger_foldCase, triggersFooter]

theorem isMarker_foldCase : isMarker (foldCase text) = isMarker text := by
  have hpercent : (trim text.toList).map Char.toUpper = ['%'] ↔ trim text.toList = ['%'] := by
    simp [List.map_eq_cons_iff, toUpper_eq_iff]
  rw [isMarker, toList_foldCase, trim_map_toUpper, isMarker, Bool.eq_iff_iff, beq_iff_eq, beq_iff_eq, hpercent]

theorem isIdle_foldCase : isIdle (foldCase text) = isIdle text := by
  simp only [isIdle, isMarker_foldCase, toList_foldCase, trim_map_toUpper, List.beq_nil_eq, List.isEmpty_map]

end

theorem read_headD_map (ls : List String) :
    Line.read ((ls.map foldCase).headD "") = (Line.read (ls.headD "")).foldCase := by
  cases ls with
  | nil => rfl
  | cons l ls => exact Line.read_foldCase l

theorem Divides.foldCase {source header footer : List String} {groups : List (List String)}
    (h : Divides source header groups footer) :
    Divides (source.map Text.foldCase) (header.map Text.foldCase) (groups.map (List.map Text.foldCase))
      (footer.map Text.foldCase) where
  source_eq := by simp [← h.source_eq, List.map_flatten]
  header_passive := List.forall_mem_map.2 fun l hl => by rw [selectsOffset_foldCase, h.header_passive l hl]
  groups_run := List.forall_mem_map.2 fun g hg => IsRun.map (h.groups_run g hg) selectsOffset_foldCase
  groups_open := by
    rw [← List.map_flatten]
    exact List.forall_mem_map.2 fun l hl => by rw [triggersFooter_foldCase, h.groups_open l hl]
  footer_head := by
    intro l hl
    rw [List.head?_map] at hl
    obtain ⟨m, hm, rfl⟩ := Option.mem_map.1 hl
    rw [triggersFooter_foldCase, h.footer_head m hm]
  footer_nil := fun hgroups => by rw [h.footer_nil (List.map_eq_nil_iff.1 hgroups), List.map_nil]

namespace OffsetBlock

def foldCase (b : OffsetBlock) : OffsetBlock := { b with lines := b.lines.map Text.foldCase }

theorem ofLines_map (first : Nat) (ls : List String) :
    ofLines first (ls.map Text.foldCase) = (ofLines first ls).foldCase := by
  simp only [ofLines, OpenBlock.ofLines, OpenBlock.close, foldCase, read_headD_map, Line.offsetCode?_foldCase,
    List.length_map]

theorem chain_map (first : Nat) (groups : List (List String)) :
    chain first (groups.map (List.map Text.foldCase)) = (chain first groups).map foldCase := by
  induction groups generalizing first with
  | nil => rfl
  | cons g groups ih => simp [chain, ofLines_map, ih]

end OffsetBlock

namespace Heading

def foldCase (h : Heading) : Heading :=
  { h with name := h.name.map Text.foldCase, toolDescription := h.toolDescription.map Text.foldCase }

theorem add_foldCase (h : Heading) (line : Line) : h.foldCase.add line.foldCase = (h.add line).foldCase := by
  simp only [add, addTool, addName, Line.toolRemark?_foldCase, Line.operationName?_foldCase, Line.toolWord?_foldCase]
  cases line.toolRemark? <;> cases line.operationName? <;> cases htool : h.tool <;> simp [foldCase, htool]

theorem ofLines_map (ls : List String) : ofLines (ls.map Text.foldCase) = (ofLines ls).foldCase := by
  simp only [ofLines, List.foldl_map, Line.read_foldCase]
  change List.foldl (fun h text => h.add (Line.read text).foldCase) (foldCase {}) ls = _
  exact List.foldl_hom foldCase fun h text => add_foldCase h (Line.read text)

end Heading

namespace Operation

def foldCase (op : Operation) : Operation :=
  { op with
    name := op.name.map Text.foldCase
    toolDescription := op.toolDescription.map Text.foldCase
    header := op.header.map Text.foldCase
    blocks := op.blocks.map OffsetBlock.foldCase
    footer := op.footer.map Text.foldCase
    source := op.source.map Text.foldCase }

theorem ofLines_map (first : Nat) (ls : List String) :
    ofLines first (ls.map Text.foldCase) = (ofLines first ls).foldCase := by
  simp only [ofLines, read_headD_map, Line.ordinal_foldCase, Heading.ofLines_map, Heading.foldCase, foldCase,
    List.length_map, List.map_nil]

theorem chain_map (first : Nat) (groups : List (List String)) :
    chain first (groups.map (List.map Text.foldCase)) = (chain first groups).map foldCase := by
  induction groups generalizing first with
  | nil => rfl
  | cons g groups ih => simp [chain_cons, ofLines_map, ih]

theorem dropEnd_foldCase (count : Nat) (op : Operation) : op.foldCase.dropEnd count = (op.dropEnd count).foldCase := by
  simp [dropEnd, foldCase]

theorem classify_foldCase (op : Operation) : op.foldCase.classify = op.classify.foldCase := by
  obtain ⟨header, groups, footer, hd⟩ := exists_divides op.source
  have hfold : Divides op.foldCase.source _ _ _ := hd.foldCase
  rw [classify_eq hfold, classify_eq hd, List.length_map, OffsetBlock.chain_map]
  rfl

theorem isPlanned_foldCase (i : Nat) (op : Operation) : op.foldCase.isPlanned i = op.isPlanned i := by
  simp [isPlanned, foldCase]

theorem turned_foldCase (i : Nat) (op : Operation) : op.foldCase.turned i = (op.turned i).foldCase := by
  simp only [turned, isPlanned_foldCase]
  split
  · simp [reverse, foldCase]
  · rfl

theorem turnFrom_map (k : Nat) (ops : List Operation) :
    turnFrom k (ops.map foldCase) = (turnFrom k ops).map foldCase := by
  induction ops generalizing k with
  | nil => rfl
  | cons op ops ih => simp only [List.map_cons, turnFrom, turned_foldCase, ih]

theorem lines_foldCase (op : Operation) : op.foldCase.lines = op.lines.map Text.foldCase := by
  simp [lines, blockLines, foldCase, List.map_flatMap, List.flatMap_map, OffsetBlock.foldCase]

end Operation

theorem closingLines_map (ls : List String) : closingLines (ls.map foldCase) = (closingLines ls).map foldCase := by
  simp only [closingLines, ← List.map_drop, ← List.map_reverse, List.takeWhile_map, List.dropWhile_map,
    Function.comp_def, isIdle_foldCase, isMarker_foldCase]

theorem trailingLines_map (rule : TrailingRule) (groups : List (List String)) :
    trailingLines rule (groups.map (List.map foldCase)) = (trailingLines rule groups).map foldCase := by
  cases rule with
  | keep => rfl
  | sentinel =>
    simp only [trailingLines, List.getLast?_map, ← closingLines_map]
    cases groups.getLast? <;> rfl

namespace Program

def foldCase (p : Program) : Program :=
  ⟨p.leading.map Text.foldCase, p.operations.map Operation.foldCase, p.trailing.map Text.foldCase⟩

theorem plan_foldCase (p : Program) : p.foldCase.plan = p.plan := by
  simp [plan, foldCase, List.zipIdx_map, List.filterMap_map, Operation.isPlanned_foldCase]

theorem zigzag_foldCase (p : Program) : p.foldCase.zigzag = p.zigzag.foldCase := by
  have hoperations : p.foldCase.zigzag.operations = p.zigzag.operations.map Operation.foldCase := by
    rw [operations_zigzag, operations_zigzag]
    exact Operation.turnFrom_map 0 p.operations
  exact congrArg (Program.mk p.foldCase.leading · p.foldCase.trailing) hoperations

theorem lines_foldCase (p : Program) : p.foldCase.lines = p.lines.map Text.foldCase := by
  simp [lines, foldCase, List.map_flatMap, List.flatMap_map, Operation.lines_foldCase]

end Program

theorem segmentLines_map (o : Options) (ls : List String) :
    segmentLines o (ls.map foldCase) = (segmentLines o ls).foldCase := by
  obtain ⟨lead, gs, hlead, hgs, rfl⟩ := exists_runs (opensOperation o.boundary) ls
  have hlead' : ∀ l ∈ lead.map foldCase, opensOperation o.boundary l = false :=
    List.forall_mem_map.2 fun l hl => by rw [opensOperation_foldCase, hlead l hl]
  rcases List.eq_nil_or_concat' gs with rfl | ⟨gs, g, rfl⟩
  · rw [List.flatten_nil, List.append_nil, segmentLines_leading hlead, segmentLines_leading hlead']
    rfl
  · have hgs' : ∀ g' ∈ gs.map (List.map foldCase) ++ [g.map foldCase], IsRun (opensOperation o.boundary) g' := by
      have hmap : gs.map (List.map foldCase) ++ [g.map foldCase] = (gs ++ [g]).map (List.map foldCase) := by simp
      rw [hmap]
      exact List.forall_mem_map.2 fun g' hg' => (hgs g' hg').map fun l => opensOperation_foldCase l o.boundary
    have hlines : (lead ++ (gs ++ [g]).flatten).map foldCase =
        lead.map foldCase ++ (gs.map (List.map foldCase) ++ [g.map foldCase]).flatten := by
      simp [List.map_flatten]
    have htrailing : trailingLines o.trailing (gs.map (List.map foldCase) ++ [g.map foldCase]) =
        (trailingLines o.trailing (gs ++ [g])).map foldCase := by
      simp [← trailingLines_map]
    rw [hlines, segmentLines_append hlead' hgs', segmentLines_append hlead hgs, htrailing]
    simp only [Program.foldCase, ← List.map_flatten, List.length_map, Operation.chain_map, Operation.ofLines_map,
      Operation.dropEnd_foldCase, Operation.classify_foldCase, List.map_append, List.map_singleton, List.map_map,
      Function.comp_def]

theorem segment_foldCase (o : Options) (text : String) : segment o (foldCase text) = (segment o text).foldCase := by
  rw [segment, lines_foldCase, segmentLines_map, segment]

theorem optimize_foldCase (o : Options) (text : String) : optimize o (foldCase text) = foldCase (optimize o text) := by
  have hempty : (segment o text).foldCase.operations.isEmpty = (segment o text).operations.isEmpty := List.isEmpty_map
  simp only [optimize, segment_foldCase, hempty]
  split
  · rfl
  · rw [Program.text, Program.zigzag_foldCase, Program.lines_foldCase, join_foldCase, Program.text]

/-- Two texts that are the same but for the case of their letters, comments included, give the same operations and
blocks, plan and reversal, but for the case of letters in lines, names and descriptions. -/
theorem segment_up_to_case (o : Options) {text text' : String} (h : foldCase text = foldCase text') :
    (segment o text).foldCase = (segment o text').foldCase ∧
      (segment o text).plan = (segment o text').plan ∧
      foldCase (optimize o text) = foldCase (optimize o text') := by
  have hsegment : (segment o text).foldCase = (segment o text').foldCase := by
    rw [← segment_foldCase, h, segment_foldCase]
  have hplan : (segment o text).plan = (segment o text').plan := by
    rw [← Program.plan_foldCase, hsegment, Program.plan_foldCase]
  refine ⟨hsegment, hplan, ?_⟩
  rw [← optimize_foldCase, h, optimize_foldCase]

theorem segment_up_to_case_remark :
    foldCase "n1\nN2 (Tool 3: face)\ng54\nx1\nG55\nx2" = "N1\nN2 (TOOL 3: FACE)\nG54\nX1\nG55\nX2" ∧
    (segment {} "n1\nN2 (Tool 3: face)\ng54\nx1\nG55\nx2").foldCase =
      { operations :=
          [{ ordinal := 1, firstLine := 1, lastLine := 1, header := ["N1"], source := ["N1"] },
           { ordinal := 2, tool := some "T3", toolDescription := some "FACE", firstLine := 2, lastLine := 6
             header := ["N2 (TOOL 3: FACE)"]
             blocks := [⟨"G54", 3, 4, ["G54", "X1"]⟩, ⟨"G55", 5, 6, ["G55", "X2"]⟩]
             source := ["N2 (TOOL 3: FACE)", "G54", "X1", "G55", "X2"] }] } ∧
    (segment {} "n1\nN2 (Tool 3: face)\ng54\nx1\nG55\nx2").plan = [1] ∧
    foldCase (optimize {} "n1\nN2 (Tool 3: face)\ng54\nx1\nG55\nx2") =
      "N1\nN2 (TOOL 3: FACE)\nG55\nX2\nG54\nX1" := by
  have hfold : foldCase "n1\nN2 (Tool 3: face)\ng54\nx1\nG55\nx2" =
      "N1\nN2 (TOOL 3: FACE)\nG54\nX1\nG55\nX2" := by decide
  have htwice : foldCase "N1\nN2 (TOOL 3: FACE)\nG54\nX1\nG55\nX2" =
      "N1\nN2 (TOOL 3: FACE)\nG54\nX1\nG55\nX2" := by decide
  obtain ⟨hsegment, hplan, hoptimize⟩ := segment_up_to_case {} (hfold.trans htwice.symm)
  rw [hsegment, hplan, hoptimize]
  refine ⟨hfold, ?_, ?_, ?_⟩ <;> decide

end Machining
