import Machining.Proofs.Numbering
import Machining.Proofs.Sentinel

/-!
A text divided by two rules, of which one opens no operation that the other does not open. The rule that opens fewer
merges operations of the other: each of its operations is made of those that begin within it, and what stands in front of
its first operation is leading. The lines taken off the end are the same, as they are those of the whole text. The
annotated rule opens fewer operations than the one that opens an operation at every numbered line.
-/

namespace Machining

variable {rule rule' : BoundaryRule} {ls : List String} {p q : Program}

def boundaryNumbers (rule : BoundaryRule) (first : Nat) (ls : List String) : List Nat :=
  ((ls.zipIdx first).filter fun l => opensOperation rule l.1).map Prod.snd

structure Program.Merges (p q : Program) : Prop where
  firstLines : (q.operations.map Operation.firstLine).Sublist (p.operations.map Operation.firstLine)
  source_eq : ∀ op ∈ q.operations, op.source =
    (p.operations.filter fun d => op.firstLine ≤ d.firstLine ∧ d.firstLine ≤ op.lastLine).flatMap Operation.source
  leading_eq : q.leading = p.leading ++
    (p.operations.filter fun d => q.operations.head?.all (d.firstLine < ·.firstLine)).flatMap Operation.source
  trailing_eq : q.trailing = p.trailing

theorem opensOperation_of_annotated {l : String} (h : opensOperation .annotated l = true) :
    opensOperation .lineNumberOrToolChange l = true := by
  simp only [opensOperation, Line.isBoundary, Bool.or_eq_true, Bool.and_eq_true] at h ⊢
  exact h.imp_left And.left

theorem boundaryNumbers_append (rule : BoundaryRule) (first : Nat) (ls more : List String) :
    boundaryNumbers rule first (ls ++ more) =
      boundaryNumbers rule first ls ++ boundaryNumbers rule (first + ls.length) more := by
  simp only [boundaryNumbers, List.zipIdx_append, List.filter_append, List.map_append]

theorem boundaryNumbers_passive {first : Nat} (h : ∀ l ∈ ls, opensOperation rule l = false) :
    boundaryNumbers rule first ls = [] := by
  simp only [boundaryNumbers, List.map_eq_nil_iff, List.filter_eq_nil_iff]
  intro l hl
  simp [h l.1 (List.fst_mem_of_mem_zipIdx hl)]

theorem boundaryNumbers_run {first : Nat} {g : List String} (h : IsRun (opensOperation rule) g) :
    boundaryNumbers rule first g = [first] := by
  obtain ⟨x, rest, rfl, hx, hrest⟩ := h
  have hone : boundaryNumbers rule first [x] = [first] := by simp [boundaryNumbers, hx]
  rw [← List.singleton_append, boundaryNumbers_append, hone, boundaryNumbers_passive hrest, List.append_nil]

theorem boundaryNumbers_sublist (hrule : ∀ l, opensOperation rule' l = true → opensOperation rule l = true)
    (first : Nat) (ls : List String) : (boundaryNumbers rule' first ls).Sublist (boundaryNumbers rule first ls) := by
  apply List.Sublist.map
  apply List.monotone_filter_right
  intro l hl
  exact hrule l.1 hl

namespace Operation

variable {first : Nat} {ops : List Operation}

theorem Follow.map_firstLine (h : Follow rule first ops) :
    ops.map firstLine = boundaryNumbers rule first (ops.flatMap source) := by
  induction ops generalizing first with
  | nil => rfl
  | cons op ops ih =>
    obtain ⟨hspans, hrest⟩ := h
    rw [List.map_cons, List.flatMap_cons, boundaryNumbers_append, boundaryNumbers_run hspans.run, ← ih hrest,
      hspans.firstLine_eq, List.singleton_append]

theorem Follow.firstLine_mem (h : Follow rule first ops) {op : Operation} (hop : op ∈ ops) :
    first ≤ op.firstLine ∧ op.firstLine < first + (ops.flatMap source).length := by
  induction ops generalizing first with
  | nil => exact absurd hop List.not_mem_nil
  | cons d ops ih =>
    obtain ⟨hspans, hrest⟩ := h
    have hpos : 0 < d.source.length := List.length_pos_iff.2 hspans.run.ne_nil
    have hfirst := hspans.firstLine_eq
    rw [List.flatMap_cons, List.length_append]
    rcases List.mem_cons.1 hop with rfl | hop
    · omega
    · have hbounds := ih hrest hop
      omega

theorem Follow.head_opens (h : Follow rule first ops) :
    ∀ l ∈ (ops.flatMap source).head?, opensOperation rule l = true := by
  rw [List.flatMap_def]
  exact head_flatten_runs h.isRun_source

theorem Follow.exists_cut (h : Follow rule first ops) {lead front rear : List String}
    (hlead : ∀ l ∈ lead, opensOperation rule l = false) (hlines : lead ++ ops.flatMap source = front ++ rear)
    (hrear : ∀ l ∈ rear.head?, opensOperation rule l = true) :
    ∃ before after, ops = before ++ after ∧ front = lead ++ before.flatMap source ∧ rear = after.flatMap source := by
  obtain ⟨gs, gs', hgroups, hfront, hback⟩ := exists_cut_runs hlines hlead h.isRun_source hrear
  obtain ⟨before, after, hops, rfl, rfl⟩ := List.map_eq_append_iff.1 hgroups
  exact ⟨before, after, hops, hfront, hback⟩

theorem Follow.exists_part (h : Follow rule first ops) {lead front middle rear : List String}
    (hlead : ∀ l ∈ lead, opensOperation rule l = false)
    (hlines : lead ++ ops.flatMap source = front ++ (middle ++ rear))
    (hmiddle : ∀ l ∈ (middle ++ rear).head?, opensOperation rule l = true)
    (hrear : ∀ l ∈ rear.head?, opensOperation rule l = true) :
    ∃ before part after, ops = before ++ part ++ after ∧ front = lead ++ before.flatMap source ∧
      middle = part.flatMap source := by
  obtain ⟨before, rest, rfl, hfront, hrest⟩ := h.exists_cut hlead hlines hmiddle
  obtain ⟨-, hfollow⟩ := follow_append.1 h
  have hnone : ∀ l ∈ ([] : List String), opensOperation rule l = false := by simp
  obtain ⟨part, after, rfl, hpart, -⟩ := hfollow.exists_cut hnone hrest.symm hrear
  exact ⟨before, part, after, (List.append_assoc before part after).symm, hfront, hpart⟩

theorem Follow.filter_part {r : Operation → Bool} {before part after : List Operation}
    (h : Follow rule first (before ++ part ++ after))
    (hr : ∀ d ∈ before ++ part ++ after, r d = true ↔
      first + (before.flatMap source).length ≤ d.firstLine ∧
        d.firstLine < first + (before.flatMap source).length + (part.flatMap source).length) :
    (before ++ part ++ after).filter r = part := by
  obtain ⟨hfront, hafter⟩ := follow_append.1 h
  obtain ⟨hbefore, hpart⟩ := follow_append.1 hfront
  rw [List.flatMap_append, List.length_append] at hafter
  have hfirst : before.filter r = [] := by
    apply List.filter_eq_nil_iff.2
    intro d hd
    have hbounds := hbefore.firstLine_mem hd
    rw [hr d (by simp [hd])]
    omega
  have hmiddle : part.filter r = part := by
    apply List.filter_eq_self.2
    intro d hd
    exact (hr d (by simp [hd])).2 (hpart.firstLine_mem hd)
  have hlast : after.filter r = [] := by
    apply List.filter_eq_nil_iff.2
    intro d hd
    have hbounds := hafter.firstLine_mem hd
    rw [hr d (by simp [hd])]
    omega
  rw [List.filter_append, List.filter_append, hfirst, hmiddle, hlast, List.nil_append, List.append_nil]

end Operation

namespace Program

theorem Segments.firstLines_eq (h : p.Segments rule ls) :
    p.operations.map Operation.firstLine = boundaryNumbers rule 1 ls := by
  rw [h.follow.map_firstLine, ← h.source_eq, boundaryNumbers_append, boundaryNumbers_append,
    boundaryNumbers_passive h.leading_passive, boundaryNumbers_passive h.trailing_passive, Nat.add_comm 1]
  simp

section

variable (hp : p.Segments rule ls) (hq : q.Segments rule' ls) (htrailing : q.trailing = p.trailing)

include hp hq htrailing

theorem lines_eq_of_trailing :
    p.leading ++ p.operations.flatMap Operation.source = q.leading ++ q.operations.flatMap Operation.source := by
  have hsource := hp.source_eq.trans hq.source_eq.symm
  rw [htrailing] at hsource
  exact List.append_cancel_right hsource

variable (hrule : ∀ l, opensOperation rule' l = true → opensOperation rule l = true)

include hrule

theorem source_eq_of_merged {op : Operation} (hop : op ∈ q.operations) :
    op.source = (p.operations.filter fun d => op.firstLine ≤ d.firstLine ∧ d.firstLine ≤ op.lastLine).flatMap
      Operation.source := by
  obtain ⟨ops, more, hsplit⟩ := List.append_of_mem hop
  have hmerged := hq.follow
  rw [hsplit, Operation.follow_append] at hmerged
  have hspans : op.Spans rule' (q.leading.length + 1 + (ops.flatMap Operation.source).length) := hmerged.2.1
  have hfirst := hspans.firstLine_eq
  have hlast := hspans.lastLine_eq
  have hopens : ∀ l ∈ (op.source ++ more.flatMap Operation.source).head?, opensOperation rule l = true :=
    fun l hl => hrule l (hmerged.2.head_opens l hl)
  have hmore : ∀ l ∈ (more.flatMap Operation.source).head?, opensOperation rule l = true :=
    fun l hl => hrule l (hmerged.2.2.head_opens l hl)
  have hlines := lines_eq_of_trailing hp hq htrailing
  rw [hsplit, List.flatMap_append, ← List.append_assoc, List.flatMap_cons] at hlines
  obtain ⟨before, part, after, hops, hfront, hpart⟩ := hp.follow.exists_part hp.leading_passive hlines hopens hmore
  have hcount : q.leading.length + (ops.flatMap Operation.source).length =
      p.leading.length + (before.flatMap Operation.source).length := by
    simpa only [List.length_append] using congrArg List.length hfront
  have hfollow := hp.follow
  rw [hops] at hfollow ⊢
  rw [hfollow.filter_part, hpart]
  intro d _
  rw [hpart] at hlast
  simp only [decide_eq_true_eq]
  omega

theorem leading_eq_of_merged :
    q.leading = p.leading ++
      (p.operations.filter fun d => q.operations.head?.all (d.firstLine < ·.firstLine)).flatMap Operation.source := by
  have hopens : ∀ l ∈ (q.operations.flatMap Operation.source).head?, opensOperation rule l = true :=
    fun l hl => hrule l (hq.follow.head_opens l hl)
  have hlines := lines_eq_of_trailing hp hq htrailing
  obtain ⟨part, after, hops, hfront, hrear⟩ := hp.follow.exists_cut hp.leading_passive hlines hopens
  have hcount : q.leading.length = p.leading.length + (part.flatMap Operation.source).length := by
    rw [hfront, List.length_append]
  have hfollow := hp.follow
  rw [hops, ← List.nil_append part] at hfollow ⊢
  rw [hfollow.filter_part, hfront]
  intro d hd
  have hbounds := hfollow.firstLine_mem hd
  cases hmerged : q.operations with
  | nil =>
    rw [hmerged, List.flatMap_nil] at hrear
    simp [← hrear] at hbounds ⊢
    omega
  | cons op ops =>
    have hfirst : op.firstLine = q.leading.length + 1 := hq.follow.head op (by simp [hmerged])
    simp only [List.head?_cons, Option.all_some, decide_eq_true_eq, List.flatMap_nil, List.length_nil]
    omega

theorem Segments.merges : p.Merges q := by
  constructor
  · rw [hp.firstLines_eq, hq.firstLines_eq]
    exact boundaryNumbers_sublist hrule 1 ls
  · intro op hop
    exact source_eq_of_merged hp hq htrailing hrule hop
  · exact leading_eq_of_merged hp hq htrailing hrule
  · exact htrailing

end

end Program

/-- The annotated rule merges operations of the other one, under both trailing rules. Only if it finds no operation at
all, it cannot take closing lines off the last one as the other rule may do. -/
theorem merges_annotated (trailing : TrailingRule) (text : String)
    (h : (segment ⟨.annotated, trailing⟩ text).operations ≠ [] ∨ trailing = .keep) :
    (segment ⟨.lineNumberOrToolChange, trailing⟩ text).Merges (segment ⟨.annotated, trailing⟩ text) := by
  have hp : (segment ⟨.lineNumberOrToolChange, trailing⟩ text).Segments .lineNumberOrToolChange (Text.lines text) :=
    segments_segmentLines ⟨.lineNumberOrToolChange, trailing⟩ (Text.lines text)
  have hq : (segment ⟨.annotated, trailing⟩ text).Segments .annotated (Text.lines text) :=
    segments_segmentLines ⟨.annotated, trailing⟩ (Text.lines text)
  refine hp.merges hq ?_ fun _ => opensOperation_of_annotated
  cases trailing with
  | keep => rfl
  | sentinel =>
    have hops : (segment ⟨.annotated, .sentinel⟩ text).operations ≠ [] := h.resolve_right (by simp)
    obtain ⟨l, hl, hopens⟩ := hq.operations_ne_nil_iff.1 hops
    have hannotated := longestClosingEnd_trailing ⟨l, hl, hopens⟩
    have hnumbered := longestClosingEnd_trailing ⟨l, hl, opensOperation_of_annotated hopens⟩
    exact hannotated.unique hnumbered

theorem merges_annotated_dense :
    (segment ⟨.annotated, .sentinel⟩ "N1\nN2 (A)\nN3 X1\nN4 M6\nN5\n%\n").leading = ["N1"] ∧
    ["N2 (A)", "N3 X1"] =
      ((segment ⟨.lineNumberOrToolChange, .sentinel⟩ "N1\nN2 (A)\nN3 X1\nN4 M6\nN5\n%\n").operations.filter
        fun d => 2 ≤ d.firstLine ∧ d.firstLine ≤ 3).flatMap Operation.source ∧
    (segment ⟨.annotated, .sentinel⟩ "N1\nN2 (A)\nN3 X1\nN4 M6\nN5\n%\n").trailing =
      (segment ⟨.lineNumberOrToolChange, .sentinel⟩ "N1\nN2 (A)\nN3 X1\nN4 M6\nN5\n%\n").trailing := by
  have hops : (segment ⟨.annotated, .sentinel⟩ "N1\nN2 (A)\nN3 X1\nN4 M6\nN5\n%\n").operations ≠ [] := by decide
  have hmerges := merges_annotated .sentinel _ (.inl hops)
  have hop : { ordinal := 2, firstLine := 2, lastLine := 3, header := ["N2 (A)", "N3 X1"]
               source := ["N2 (A)", "N3 X1"] } ∈
      (segment ⟨.annotated, .sentinel⟩ "N1\nN2 (A)\nN3 X1\nN4 M6\nN5\n%\n").operations := by decide
  have hleading : ["N1"] = (segment ⟨.annotated, .sentinel⟩ "N1\nN2 (A)\nN3 X1\nN4 M6\nN5\n%\n").leading := by decide
  exact ⟨hleading.symm, hmerges.source_eq _ hop, hmerges.trailing_eq⟩

end Machining
