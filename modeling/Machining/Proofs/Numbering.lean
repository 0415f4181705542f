import Mathlib.Data.List.Chain
import Machining.Proofs.Reading

/-!
Line numbers. The lines of a text are counted from 1 on. Its operations follow each other without gap from behind the
leading lines to the trailing ones, and the blocks of an operation from behind its header to its footer. So the numbers
that an operation and its blocks carry are those of their lines in the text.
-/

namespace Machining

variable {rule : BoundaryRule} {ls : List String} {p : Program}

def lineAt? (ls : List String) : Nat → Option String
  | 0 => none
  | n + 1 => ls[n]?

theorem lineAt?_append {before part after : List String} {first j : Nat} (hfirst : first = before.length + 1)
    (hj : j < part.length) : lineAt? (before ++ part ++ after) (first + j) = part[j]? := by
  have hline : first + j = before.length + j + 1 := by omega
  have hlt : before.length + j < (before ++ part).length := by
    rw [List.length_append]
    omega
  rw [hline, lineAt?, List.getElem?_append_left hlt, List.getElem?_append_right (by omega)]
  simp

namespace OffsetBlock

/-- Each block begins on the line behind the one before it, the first on line `first`, and line `stop` is behind all. -/
def Tile : Nat → Nat → List OffsetBlock → Prop
  | first, stop, [] => first = stop
  | first, stop, b :: rest =>
    b.firstLine = first ∧ first ≤ b.lastLine ∧ b.lastLine + 1 = first + b.lines.length ∧ Tile (b.lastLine + 1) stop rest

theorem lastLine_ofLines {first : Nat} {g : List String} (hg : g ≠ []) :
    (ofLines first g).lastLine + 1 = first + g.length := by
  have hpos : 0 < g.length := List.length_pos_iff.2 hg
  change first + g.length - 1 + 1 = first + g.length
  omega

theorem tile_chain {first : Nat} {groups : List (List String)} (h : ∀ g ∈ groups, g ≠ []) :
    Tile first (first + groups.flatten.length) (chain first groups) := by
  induction groups generalizing first with
  | nil => exact rfl
  | cons g groups ih =>
    obtain ⟨hg, hrest⟩ := List.forall_mem_cons.1 h
    have hpos : 0 < g.length := List.length_pos_iff.2 hg
    have hlast : (ofLines first g).lastLine + 1 = first + g.length := lastLine_ofLines hg
    refine ⟨rfl, by omega, hlast, ?_⟩
    rw [hlast, List.flatten_cons, List.length_append, ← Nat.add_assoc]
    exact ih hrest

theorem exists_split_of_mem_chain {first : Nat} {groups : List (List String)} {b : OffsetBlock}
    (hb : b ∈ chain first groups) :
    ∃ before after, groups.flatten = before ++ b.lines ++ after ∧ b.firstLine = first + before.length := by
  induction groups generalizing first with
  | nil => exact absurd hb List.not_mem_nil
  | cons g groups ih =>
    rcases List.mem_cons.1 hb with rfl | hb
    · exact ⟨[], groups.flatten, rfl, rfl⟩
    · obtain ⟨before, after, hsplit, hfirst⟩ := ih hb
      refine ⟨g ++ before, after, ?_, ?_⟩
      · simp only [List.flatten_cons, hsplit, List.append_assoc]
      · rw [hfirst, List.length_append]
        omega

end OffsetBlock

structure Operation.Numbered (ls : List String) (op : Operation) : Prop where
  length_pos : 0 < op.source.length
  lastLine_eq : op.lastLine = op.firstLine + op.source.length - 1
  source_at : ∀ j < op.source.length, lineAt? ls (op.firstLine + j) = op.source[j]?
  footer_le : op.footer.length ≤ op.lastLine
  blocks_tile : OffsetBlock.Tile (op.firstLine + op.header.length) (op.lastLine - op.footer.length + 1) op.blocks
  block_at : ∀ b ∈ op.blocks, ∀ j < b.lines.length, lineAt? ls (b.firstLine + j) = b.lines[j]?

structure Program.Numbered (ls : List String) (p : Program) : Prop where
  head : ∀ op ∈ p.operations.head?, op.firstLine = p.leading.length + 1
  next : p.operations.IsChain fun op next => next.firstLine = op.lastLine + 1
  last : ∀ op ∈ p.operations.getLast?, op.lastLine + p.trailing.length = ls.length
  operations : ∀ op ∈ p.operations, op.Numbered ls

namespace Operation

theorem Follow.head {first : Nat} {ops : List Operation} (h : Follow rule first ops) :
    ∀ op ∈ ops.head?, op.firstLine = first := by
  cases ops with
  | nil => simp
  | cons op ops => simpa using h.1.firstLine_eq

theorem Follow.isChain {first : Nat} {ops : List Operation} (h : Follow rule first ops) :
    ops.IsChain fun op next => next.firstLine = op.lastLine + 1 := by
  induction ops generalizing first with
  | nil => exact .nil
  | cons op ops ih =>
    obtain ⟨hspans, hrest⟩ := h
    refine List.isChain_cons.2 ⟨fun next hnext => ?_, ih hrest⟩
    have hnext := hrest.head next hnext
    have hlast := hspans.lastLine_eq
    omega

theorem Spans.numbered {op : Operation} {before after : List String} (h : op.Spans rule (before.length + 1))
    (hclassify : op.classify = op) : op.Numbered (before ++ op.source ++ after) := by
  have hpos : 0 < op.source.length := List.length_pos_iff.2 h.run.ne_nil
  have hfirst := h.firstLine_eq
  have hlast := h.lastLine_eq
  obtain ⟨groups, hd, hblocks⟩ := exists_groups hclassify
  have hlength : op.header.length + groups.flatten.length + op.footer.length = op.source.length := by
    rw [← hd.source_eq, List.length_append, List.length_append]
  constructor
  · exact hpos
  · omega
  · intro j hj
    exact lineAt?_append hfirst hj
  · omega
  · have hstop : op.lastLine - op.footer.length + 1 = op.firstLine + op.header.length + groups.flatten.length := by
      omega
    rw [hblocks, hstop]
    apply OffsetBlock.tile_chain
    intro g hg
    exact (hd.groups_run g hg).ne_nil
  · intro b hb j hj
    rw [hblocks] at hb
    obtain ⟨front, rear, hsplit, hb⟩ := OffsetBlock.exists_split_of_mem_chain hb
    have hlines : before ++ op.source ++ after =
        (before ++ op.header ++ front) ++ b.lines ++ (rear ++ op.footer ++ after) := by
      rw [← hd.source_eq, hsplit]
      simp only [List.append_assoc]
    rw [hlines]
    apply lineAt?_append _ hj
    simp only [List.length_append]
    omega

end Operation

theorem Program.Segments.numbered (h : p.Segments rule ls) : p.Numbered ls := by
  constructor
  · exact h.follow.head
  · exact h.follow.isChain
  · intro op hop
    obtain ⟨ops, hops⟩ := List.getLast?_eq_some_iff.1 hop
    have hfollow := h.follow
    rw [hops, Operation.follow_append] at hfollow
    have hlast := hfollow.2.1.lastLine_eq
    rw [← h.source_eq, hops]
    simp only [List.flatMap_append, List.flatMap_singleton, List.length_append]
    omega
  · intro op hop
    obtain ⟨before, after, hsplit, hspans⟩ := h.exists_split hop
    rw [hsplit]
    exact hspans.numbered (h.divided op hop)

/-- All line numbers of a divided text are right, and computing them with checks gives the same program. -/
theorem segment_numbered (o : Options) (text : String) :
    (segment o text).Numbered (Text.lines text) ∧ readProgram? o text = some (segment o text) := by
  have h : (segment o text).Segments o.boundary (Text.lines text) := segments_segmentLines o (Text.lines text)
  exact ⟨h.numbered, readProgram?_eq o text⟩

theorem segment_numbered_marker :
    readProgram? ⟨.annotated, .sentinel⟩ "%\nN1 (A)\nG54\nN2\nG55\nM5\n%\n" =
      some (segment ⟨.annotated, .sentinel⟩ "%\nN1 (A)\nG54\nN2\nG55\nM5\n%\n") ∧
    OffsetBlock.Tile 3 6 [⟨"G54", 3, 4, ["G54", "N2"]⟩, ⟨"G55", 5, 5, ["G55"]⟩] ∧
    lineAt? ["%", "N1 (A)", "G54", "N2", "G55", "M5", "%", ""] (3 + 1) = some "N2" := by
  obtain ⟨hnumbered, hread⟩ := segment_numbered ⟨.annotated, .sentinel⟩ "%\nN1 (A)\nG54\nN2\nG55\nM5\n%\n"
  have hop : { ordinal := 1, firstLine := 2, lastLine := 6, header := ["N1 (A)"]
               blocks := [⟨"G54", 3, 4, ["G54", "N2"]⟩, ⟨"G55", 5, 5, ["G55"]⟩], footer := ["M5"]
               source := ["N1 (A)", "G54", "N2", "G55", "M5"] } ∈
      (segment ⟨.annotated, .sentinel⟩ "%\nN1 (A)\nG54\nN2\nG55\nM5\n%\n").operations := by decide
  have hop := hnumbered.operations _ hop
  exact ⟨hread, hop.blocks_tile, hop.block_at _ List.mem_cons_self 1 (by decide)⟩

end Machining
