import Machining.Proofs.Reversal

/-!
Reversing a text twice. The reversed text is divided anew: its blocks are found with the same edges, and reversing
them again gives the first text back, as long as each planned operation keeps its opening line in front. An opening
line that went behind other blocks opens its operation there; what stands in front of it falls to the operation
before, which is never planned, and so these lines stay where the first reversal put them.
-/

namespace Machining

variable {o : Options} {q : String → Bool} {g : List String} {gs : List (List String)}

/-- The lines of an operation as the reversal writes them, for an operation of the lines `g` at index `i`. -/
def written (i : Nat) (g : List String) : List String := ((Operation.ofLines 0 g).classify.turned i).lines

def Steady (i : Nat) (g : List String) : Prop :=
  (Operation.ofLines 0 g).classify.isPlanned i = true → (Operation.ofLines 0 g).classify.header ≠ []

def writtenFrom (k : Nat) : List (List String) → List (List String)
  | [] => []
  | g :: gs => written k g :: writtenFrom (k + 1) gs

theorem written_eq {header footer : List String} {groups : List (List String)} (h : Divides g header groups footer)
    (i : Nat) :
    written i g = if i % 2 = 1 ∧ 1 < groups.length then header ++ groups.reverse.flatten ++ footer else g :=
  Operation.lines_turned_classify h i

theorem lines_turned_eq_written {op : Operation} (hop : op.classify = op) (i : Nat) :
    (op.turned i).lines = written i op.source := by
  obtain ⟨header, groups, footer, hd⟩ := exists_divides op.source
  rw [written_eq hd, ← Operation.lines_turned_classify hd, hop]

theorem steady_iff {op : Operation} (hop : op.classify = op) (i : Nat) :
    Steady i op.source ↔ (op.isPlanned i = true → op.header ≠ []) := by
  obtain ⟨groups, hd, -⟩ := Operation.exists_groups hop
  have hplan := Operation.isPlanned_classify hd i
  have hd' : Divides (Operation.ofLines 0 op.source).source op.header groups op.footer := hd
  rw [hop] at hplan
  rw [Steady, Operation.isPlanned_classify hd', hplan, Operation.classify_eq hd']

theorem written_even {i : Nat} (hi : i % 2 = 0) (g : List String) : written i g = g := by
  obtain ⟨header, groups, footer, hd⟩ := exists_divides g
  rw [written_eq hd, if_neg (by omega)]

theorem steady_even {i : Nat} (hi : i % 2 = 0) (g : List String) : Steady i g := by
  obtain ⟨header, groups, footer, hd⟩ := exists_divides (Operation.ofLines 0 g).source
  intro hplan
  have hodd := ((Operation.isPlanned_classify hd i).1 hplan).1
  omega

theorem written_written (i : Nat) (g : List String) : written i (written i g) = g := by
  obtain ⟨header, groups, footer, hd⟩ := exists_divides g
  rw [written_eq hd]
  by_cases hplan : i % 2 = 1 ∧ 1 < groups.length
  · rw [if_pos hplan, written_eq hd.reverse, if_pos (by simpa using hplan), List.reverse_reverse, hd.source_eq]
  · rw [if_neg hplan, written_eq hd, if_neg hplan]

theorem run_written {i : Nat} (hrun : IsRun q g) (h : Steady i g) :
    IsRun q (written i g) ∧ (written i g).head? = g.head? := by
  apply Operation.run_lines_turned _ (Operation.classify_classify _) h
  rwa [Operation.source_classify, Operation.source_ofLines]

theorem split_written {i : Nat} (hrun : IsRun q g) (h : ¬ Steady i g) :
    ∃ y spill own, written i g = y :: spill ++ own ∧ IsRun q own ∧ ∀ l ∈ y :: spill, q l = false := by
  obtain ⟨hplan, hheader⟩ := Classical.not_imp.1 h
  apply Operation.split_lines_turned _ (Operation.classify_classify _) hplan (Classical.not_not.1 hheader)
  rwa [Operation.source_classify, Operation.source_ofLines]

theorem flatMap_lines_turnFrom {ops : List Operation} (hops : ∀ op ∈ ops, op.classify = op) (k : Nat) :
    (Operation.turnFrom k ops).flatMap Operation.lines = (writtenFrom k (ops.map Operation.source)).flatten := by
  induction ops generalizing k with
  | nil => rfl
  | cons op ops ih =>
    rw [Operation.turnFrom, List.flatMap_cons, lines_turned_eq_written (hops op List.mem_cons_self),
      ih fun op' hop' => hops op' (List.mem_cons_of_mem op hop')]
    rfl

theorem forall_getElem?_cons {α : Type} {P : Nat → α → Prop} {k : Nat} {x : α} {xs : List α} :
    (∀ i y, (x :: xs)[i]? = some y → P (k + i) y) ↔ P k x ∧ ∀ i y, xs[i]? = some y → P (k + 1 + i) y := by
  constructor
  · intro h
    refine ⟨h 0 x rfl, fun i y hy => ?_⟩
    rw [Nat.add_right_comm, Nat.add_assoc]
    exact h (i + 1) y hy
  · rintro ⟨hx, hxs⟩ i y hy
    cases i with
    | zero =>
      rw [List.getElem?_cons_zero, Option.some.injEq] at hy
      exact hy ▸ hx
    | succ i =>
      have h := hxs i y hy
      rwa [Nat.add_right_comm, Nat.add_assoc] at h

/-- The lines that the reversal writes, cut into runs anew and reversed once more. Operations come in pairs here: one
that is never planned, and one that may be, whose front falls to the first if its opening line has moved. -/
theorem exists_runs_written {k : Nat} (hk : k % 2 = 0) (hgs : ∀ g ∈ gs, IsRun q g) :
    ∃ gs', (∀ g ∈ gs', IsRun q g) ∧ gs'.flatten = (writtenFrom k gs).flatten ∧
      ((writtenFrom k gs').flatten = gs.flatten ↔ ∀ i g, gs[i]? = some g → Steady (k + i) g) := by
  induction gs using List.twoStepInduction generalizing k with
  | nil => exact ⟨[], by simp, rfl, by simp [writtenFrom]⟩
  | singleton g =>
    refine ⟨[g], hgs, by rw [writtenFrom, written_even hk]; rfl, ?_⟩
    rw [forall_getElem?_cons, writtenFrom, written_even hk]
    simp [writtenFrom, steady_even hk]
  | cons_cons g g' gs ih _ =>
    obtain ⟨hg, hgs⟩ := List.forall_mem_cons.1 hgs
    obtain ⟨hg', hgs⟩ := List.forall_mem_cons.1 hgs
    have hk' : (k + 1 + 1) % 2 = 0 := by omega
    obtain ⟨gs', hruns, hflatten, hiff⟩ := ih hk' hgs
    rw [forall_getElem?_cons, forall_getElem?_cons, ← hiff]
    by_cases hsteady : Steady (k + 1) g'
    · refine ⟨g :: written (k + 1) g' :: gs', ?_, ?_, ?_⟩
      · exact List.forall_mem_cons.2 ⟨hg, List.forall_mem_cons.2 ⟨(run_written hg' hsteady).1, hruns⟩⟩
      · simp only [writtenFrom, written_even hk, List.flatten_cons, hflatten]
      · simp only [writtenFrom, written_even hk, written_written, List.flatten_cons, List.append_cancel_left_eq,
          steady_even hk, hsteady, true_and]
    · obtain ⟨y, spill, own, hwritten, hown, hspill⟩ := split_written hg' hsteady
      refine ⟨(g ++ y :: spill) :: own :: gs', ?_, ?_, ?_⟩
      · exact List.forall_mem_cons.2 ⟨hg.append hspill, List.forall_mem_cons.2 ⟨hown, hruns⟩⟩
      · simp only [writtenFrom, written_even hk, hwritten, List.flatten_cons, hflatten, List.append_assoc]
      · -- the first line behind `g` opens an operation in the one list and none in the other
        obtain ⟨x, rest, rfl, hx, -⟩ := hg'
        have hne : y ≠ x := by
          rintro rfl
          exact Bool.false_ne_true (hspill y List.mem_cons_self ▸ hx)
        simp only [writtenFrom, written_even hk, List.flatten_cons, List.append_assoc, List.append_cancel_left_eq,
          List.cons_append, List.cons.injEq, hne, hsteady, false_and, and_false]

theorem length_written (i : Nat) (g : List String) : (written i g).length = g.length := by
  have hlines := Operation.lines_eq_source (Operation.classify_classify (Operation.ofLines 0 g))
  rw [written, Operation.length_lines_turned, hlines]
  rfl

/-- Two operations are the same but for names, tools and the line numbers of their blocks. The one may have read its
lines in another order. -/
structure Operation.SameParts (op op' : Operation) : Prop where
  ordinal_eq : op.ordinal = op'.ordinal
  firstLine_eq : op.firstLine = op'.firstLine
  lastLine_eq : op.lastLine = op'.lastLine
  header_eq : op.header = op'.header
  footer_eq : op.footer = op'.footer
  codes_eq : op.blocks.map OffsetBlock.code = op'.blocks.map OffsetBlock.code
  lines_eq : op.blocks.map OffsetBlock.lines = op'.blocks.map OffsetBlock.lines

theorem divides_written {header footer : List String} {groups : List (List String)}
    (h : Divides g header groups footer) (i : Nat) :
    Divides (written i g) header (if i % 2 = 1 ∧ 1 < groups.length then groups.reverse else groups) footer := by
  rw [written_eq h]
  split
  · exact h.reverse
  · exact h

theorem sameParts_written {i : Nat} (hrun : IsRun q g) (hsteady : Steady i g) (first : Nat) :
    (Operation.ofLines first (written i g)).classify.SameParts ((Operation.ofLines first g).classify.turned i) := by
  obtain ⟨header, groups, footer, hg⟩ := exists_divides g
  have hd : Divides (Operation.ofLines first g).source header groups footer := hg
  have hd' : Divides (Operation.ofLines first (written i g)).source header
      (if i % 2 = 1 ∧ 1 < groups.length then groups.reverse else groups) footer := divides_written hg i
  have hplan := Operation.isPlanned_classify hd i
  constructor
  · rw [Operation.ordinal_turned, Operation.ordinal_classify, Operation.ordinal_classify, Operation.ordinal_ofLines,
      Operation.ordinal_ofLines, List.headD_eq_head?_getD, (run_written hrun hsteady).2, List.headD_eq_head?_getD]
  · rw [Operation.firstLine_turned, Operation.firstLine_classify, Operation.firstLine_classify,
      Operation.firstLine_ofLines, Operation.firstLine_ofLines]
  · rw [Operation.lastLine_turned, Operation.lastLine_classify, Operation.lastLine_classify,
      Operation.lastLine_ofLines, Operation.lastLine_ofLines, length_written]
  · rw [Operation.header_turned, Operation.classify_eq hd', Operation.classify_eq hd]
  · rw [Operation.footer_turned, Operation.classify_eq hd', Operation.classify_eq hd]
  · simp only [Operation.blocks_turned, hplan]
    rw [Operation.classify_eq hd', Operation.classify_eq hd, OffsetBlock.map_code_chain]
    split
    · rw [List.map_reverse, List.map_reverse, OffsetBlock.map_code_chain]
    · rw [OffsetBlock.map_code_chain]
  · simp only [Operation.blocks_turned, hplan]
    rw [Operation.classify_eq hd', Operation.classify_eq hd, OffsetBlock.map_lines_chain]
    split
    · rw [List.map_reverse, OffsetBlock.map_lines_chain]
    · rw [OffsetBlock.map_lines_chain]

theorem forall₂_sameParts {k first : Nat} (hgs : ∀ g ∈ gs, IsRun q g)
    (hsteady : ∀ i g, gs[i]? = some g → Steady (k + i) g) :
    List.Forall₂ Operation.SameParts ((Operation.chain first (writtenFrom k gs)).map Operation.classify)
      (Operation.turnFrom k ((Operation.chain first gs).map Operation.classify)) := by
  induction gs generalizing k first with
  | nil => exact .nil
  | cons g gs ih =>
    obtain ⟨hg, hrest⟩ := forall_getElem?_cons.1 hsteady
    obtain ⟨hrun, hgs⟩ := List.forall_mem_cons.1 hgs
    rw [writtenFrom, Operation.chain_cons, Operation.chain_cons, List.map_cons, List.map_cons, Operation.turnFrom,
      length_written]
    exact .cons (sameParts_written hrun hg first) (ih hgs hrest)

theorem run_writtenFrom {k : Nat} (hgs : ∀ g ∈ gs, IsRun q g) (hsteady : ∀ i g, gs[i]? = some g → Steady (k + i) g) :
    ∀ g ∈ writtenFrom k gs, IsRun q g := by
  induction gs generalizing k with
  | nil => exact fun g hg => absurd hg List.not_mem_nil
  | cons g gs ih =>
    obtain ⟨hg, hrest⟩ := forall_getElem?_cons.1 hsteady
    obtain ⟨hrun, hgs⟩ := List.forall_mem_cons.1 hgs
    exact List.forall_mem_cons.2 ⟨(run_written hrun hg).1, ih hgs hrest⟩

def Program.PlannedHeaders (p : Program) : Prop :=
  ∀ i ∈ p.plan, ∀ op, p.operations[i]? = some op → op.header ≠ []

theorem Program.plannedHeaders_iff {p : Program} (hdivided : ∀ op ∈ p.operations, op.classify = op) :
    p.PlannedHeaders ↔ ∀ i g, (p.operations.map Operation.source)[i]? = some g → Steady (0 + i) g := by
  constructor
  · intro h i g hg
    rw [List.getElem?_map] at hg
    obtain ⟨op, hop, rfl⟩ := Option.map_eq_some_iff.1 hg
    rw [Nat.zero_add, steady_iff (hdivided op (List.mem_of_getElem? hop))]
    exact fun hplan => h i (mem_plan_iff.2 ⟨op, hop, hplan⟩) op hop
  · intro h i hi op hop
    obtain ⟨op', hop', hplan⟩ := mem_plan_iff.1 hi
    rw [hop, Option.some.injEq] at hop'
    subst hop'
    have hsteady := h i op.source (by rw [List.getElem?_map, hop]; rfl)
    rw [Nat.zero_add, steady_iff (hdivided op (List.mem_of_getElem? hop))] at hsteady
    exact hsteady hplan

structure Program.SameParts (p p' : Program) : Prop where
  leading_eq : p.leading = p'.leading
  operations : List.Forall₂ Operation.SameParts p.operations p'.operations
  trailing_eq : p.trailing = p'.trailing

section

variable {o : Options} {ls lead : List String} {text : String}

theorem lines_zigzag_append (hkeep : o.trailing = .keep) (hlead : ∀ l ∈ lead, opensOperation o.boundary l = false)
    (hgs : ∀ g ∈ gs, IsRun (opensOperation o.boundary) g) :
    (segmentLines o (lead ++ gs.flatten)).zigzag.lines = lead ++ (writtenFrom 0 gs).flatten := by
  rw [segmentLines_keep hkeep hlead hgs, Program.lines, Program.operations_zigzag,
    flatMap_lines_turnFrom (fun _ hop => Operation.classify_of_mem_map hop), Operation.map_source_chain]
  exact List.append_nil _

theorem plannedHeaders_append_iff (hkeep : o.trailing = .keep)
    (hlead : ∀ l ∈ lead, opensOperation o.boundary l = false) (hgs : ∀ g ∈ gs, IsRun (opensOperation o.boundary) g) :
    (segmentLines o (lead ++ gs.flatten)).PlannedHeaders ↔ ∀ i g, gs[i]? = some g → Steady (0 + i) g := by
  rw [Program.plannedHeaders_iff (segments_segmentLines o _).divided, segmentLines_keep hkeep hlead hgs,
    Operation.map_source_chain]

theorem zigzag_zigzag_iff (hkeep : o.trailing = .keep) :
    (segmentLines o (segmentLines o ls).zigzag.lines).zigzag.lines = ls ↔ (segmentLines o ls).PlannedHeaders := by
  obtain ⟨lead, gs, hlead, hgs, rfl⟩ := exists_runs (opensOperation o.boundary) ls
  obtain ⟨gs', hgs', hflatten, hiff⟩ := exists_runs_written (k := 0) rfl hgs
  rw [plannedHeaders_append_iff hkeep hlead hgs, ← hiff, lines_zigzag_append hkeep hlead hgs, ← hflatten,
    lines_zigzag_append hkeep hlead hgs', List.append_cancel_left_eq]

theorem sameParts_zigzag (hkeep : o.trailing = .keep) (h : (segmentLines o ls).PlannedHeaders) :
    (segmentLines o (segmentLines o ls).zigzag.lines).SameParts (segmentLines o ls).zigzag := by
  obtain ⟨lead, gs, hlead, hgs, rfl⟩ := exists_runs (opensOperation o.boundary) ls
  rw [plannedHeaders_append_iff hkeep hlead hgs] at h
  rw [lines_zigzag_append hkeep hlead hgs, segmentLines_keep hkeep hlead (run_writtenFrom hgs h),
    segmentLines_keep hkeep hlead hgs]
  refine ⟨rfl, ?_, rfl⟩
  rw [Program.operations_zigzag]
  exact forall₂_sameParts hgs h

theorem operations_optimize_ne_nil (hops : (segment o text).operations ≠ []) :
    (segment o (optimize o text)).operations ≠ [] := by
  have hseg := segments_segmentLines o (Text.lines text)
  have hseg' := segments_segmentLines o (Text.lines (optimize o text))
  obtain ⟨l, hl, hopens⟩ := hseg.operations_ne_nil_iff.1 hops
  refine hseg'.operations_ne_nil_iff.2 ⟨l, ?_, hopens⟩
  rw [lines_optimize hops]
  exact (perm_lines_zigzag_segment o text).mem_iff.2 hl

/-- The second reversal undoes the first one, but for line ends, if and only if the planned operations have headers.
Then the text between the two is divided just as the reversed program is. -/
theorem optimize_optimize (o : Options) (text : String) (hkeep : o.trailing = .keep)
    (hops : (segment o text).operations ≠ []) :
    (optimize o (optimize o text) = Text.unifyEnds text ↔ (segment o text).PlannedHeaders) ∧
      ((segment o text).PlannedHeaders → (segment o (optimize o text)).SameParts (segment o text).zigzag) := by
  have hlines := lines_optimize hops
  have hops' := operations_optimize_ne_nil hops
  have hlines' := lines_optimize hops'
  constructor
  · have htext : optimize o (optimize o text) = Text.unifyEnds text ↔
        (segment o (optimize o text)).zigzag.lines = Text.lines text := by
      constructor
      · intro h
        rw [← hlines', h, Text.lines_unifyEnds]
      · intro h
        rw [optimize_of_operations hops', h, Text.join_lines]
    rw [htext, segment, hlines]
    exact zigzag_zigzag_iff hkeep
  · intro h
    rw [segment, hlines]
    exact sameParts_zigzag hkeep h

theorem optimize_optimize_two_blocks :
    (segment {} "N1\r\nN2\r\nG54\r\nG55").operations ≠ [] ∧
    optimize {} (optimize {} "N1\r\nN2\r\nG54\r\nG55") = "N1\nN2\nG54\nG55" ∧
    (segment {} (optimize {} "N1\r\nN2\r\nG54\r\nG55")).SameParts
      (segment {} "N1\r\nN2\r\nG54\r\nG55").zigzag := by
  have hops : (segment {} "N1\r\nN2\r\nG54\r\nG55").operations ≠ [] := by decide
  have hheaders : (segment {} "N1\r\nN2\r\nG54\r\nG55").PlannedHeaders := by
    intro i hi op hop
    have hplan : (segment {} "N1\r\nN2\r\nG54\r\nG55").plan = [1] := by decide
    rw [hplan, List.mem_singleton] at hi
    have hsecond : (segment {} "N1\r\nN2\r\nG54\r\nG55").operations[1]? = some
        { ordinal := 2, firstLine := 2, lastLine := 4, header := ["N2"]
          blocks := [⟨"G54", 3, 3, ["G54"]⟩, ⟨"G55", 4, 4, ["G55"]⟩], source := ["N2", "G54", "G55"] } := rfl
    rw [hi, hsecond, Option.some.injEq] at hop
    rw [← hop]
    exact List.cons_ne_nil _ _
  obtain ⟨htwice, hparts⟩ := optimize_optimize {} "N1\r\nN2\r\nG54\r\nG55" rfl hops
  have hends : Text.unifyEnds "N1\r\nN2\r\nG54\r\nG55" = "N1\nN2\nG54\nG55" := by decide
  exact ⟨hops, (htwice.2 hheaders).trans hends, hparts hheaders⟩

end

end Machining
