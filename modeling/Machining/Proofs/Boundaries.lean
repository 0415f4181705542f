import Machining.Proofs.Segmentation

/-!
Where operations begin. Each operation is opened by a boundary line and holds no other one, and no boundary line stands
outside of the operations: what is in front of the first boundary is leading, and the closing lines are taken off
behind the line that opens the last operation. So a text has as many operations as boundary lines.
-/

namespace Machining

variable {rule : BoundaryRule} {ls : List String} {p : Program}

theorem Program.Segments.exists_opening (h : p.Segments rule ls) {op : Operation} (hop : op ∈ p.operations) :
    ∃ opening rest, op.source = opening :: rest ∧ opensOperation rule opening = true ∧
      (∀ l ∈ rest, opensOperation rule l = false) ∧ op.ordinal = (Line.read opening).ordinal := by
  obtain ⟨before, after, -, hspans⟩ := h.exists_split hop
  obtain ⟨opening, rest, hsource, hopens, hrest⟩ := hspans.run
  have hordinal := hspans.ordinal_eq
  rw [hsource] at hordinal
  exact ⟨opening, rest, hsource, hopens, hrest, hordinal⟩

theorem Program.Segments.length_operations (h : p.Segments rule ls) :
    p.operations.length = ls.countP (opensOperation rule) := by
  have hleading : p.leading.countP (opensOperation rule) = 0 :=
    List.countP_eq_zero.2 fun l hl => by simp [h.leading_passive l hl]
  have htrailing : p.trailing.countP (opensOperation rule) = 0 :=
    List.countP_eq_zero.2 fun l hl => by simp [h.trailing_passive l hl]
  have hsources : (p.operations.flatMap Operation.source).countP (opensOperation rule) = p.operations.length := by
    simpa only [List.flatMap_def, List.length_map] using countP_flatten_runs h.follow.isRun_source
  rw [← h.source_eq]
  simp only [List.countP_append]
  omega

/-- Dividing a text cuts its lines, all of them and in their order, in front of every boundary line and nowhere else. -/
theorem segment_at_boundaries (o : Options) (text : String) :
    (∀ l ∈ (segment o text).leading, opensOperation o.boundary l = false) ∧
    (∀ op ∈ (segment o text).operations, ∃ opening rest, op.source = opening :: rest ∧
      opensOperation o.boundary opening = true ∧ (∀ l ∈ rest, opensOperation o.boundary l = false) ∧
      op.ordinal = (Line.read opening).ordinal) ∧
    (∀ l ∈ (segment o text).trailing, opensOperation o.boundary l = false) ∧
    (segment o text).leading ++ (segment o text).operations.flatMap Operation.source ++ (segment o text).trailing =
      Text.lines text ∧
    (segment o text).operations.length = (Text.lines text).countP (opensOperation o.boundary) := by
  have h : (segment o text).Segments o.boundary (Text.lines text) := segments_segmentLines o (Text.lines text)
  refine ⟨h.leading_passive, ?_, h.trailing_passive, h.source_eq, h.length_operations⟩
  intro op hop
  exact h.exists_opening hop

theorem segment_at_boundaries_annotated :
    (segment ⟨.annotated, .sentinel⟩ "N1 (FACE)\nN2 X1\nM6\nX2\n%\n").operations.length = 2 ∧
    (∀ l ∈ ["N2 X1"], opensOperation .annotated l = false) ∧ ∀ l ∈ ["%", ""], opensOperation .annotated l = false := by
  obtain ⟨-, hopenings, htrailing, -, hcount⟩ :=
    segment_at_boundaries ⟨.annotated, .sentinel⟩ "N1 (FACE)\nN2 X1\nM6\nX2\n%\n"
  have hop : { ordinal := 1, firstLine := 1, lastLine := 2, header := ["N1 (FACE)", "N2 X1"]
               source := ["N1 (FACE)", "N2 X1"] } ∈
      (segment ⟨.annotated, .sentinel⟩ "N1 (FACE)\nN2 X1\nM6\nX2\n%\n").operations := by decide
  obtain ⟨opening, rest, hsource, -, hrest, -⟩ := hopenings _ hop
  obtain ⟨rfl, rfl⟩ := List.cons.inj hsource
  have hlines : (Text.lines "N1 (FACE)\nN2 X1\nM6\nX2\n%\n").countP (opensOperation .annotated) = 2 := by decide
  exact ⟨hcount.trans hlines, hrest, htrailing⟩

end Machining
