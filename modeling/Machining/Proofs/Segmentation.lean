import Machining.Program.Segment
import Machining.Proofs.Division
import Machining.Proofs.LineEnds

/-!
What dividing a text into a program keeps. `Segments` states it for lines: leading lines, the sources of the
operations and trailing lines are all lines in their order, every source is a run that its boundary opens, and the
operations follow each other without gap. Cutting off a closing marker takes no boundary, so both trailing rules
keep the same. Since a classified operation has the lines of its source, dividing loses nothing.
-/

namespace Machining

variable {rule : BoundaryRule} {o : Options} {ls lead g : List String} {gs : List (List String)}

namespace Operation

structure Spans (rule : BoundaryRule) (first : Nat) (op : Operation) : Prop where
  run : IsRun (opensOperation rule) op.source
  firstLine_eq : op.firstLine = first
  lastLine_eq : op.lastLine + 1 = first + op.source.length
  ordinal_eq : op.ordinal = (Line.read (op.source.headD "")).ordinal

def Follow (rule : BoundaryRule) : Nat → List Operation → Prop
  | _, [] => True
  | first, op :: rest => op.Spans rule first ∧ Follow rule (first + op.source.length) rest

theorem follow_append {first : Nat} {ops more : List Operation} :
    Follow rule first (ops ++ more) ↔
      Follow rule first ops ∧ Follow rule (first + (ops.flatMap source).length) more := by
  induction ops generalizing first with
  | nil => simp [Follow]
  | cons op ops ih =>
    rw [List.cons_append, Follow, Follow, ih, and_assoc, List.flatMap_cons, List.length_append, Nat.add_assoc]

theorem Follow.isRun_source {first : Nat} {ops : List Operation} (h : Follow rule first ops) :
    ∀ g ∈ ops.map source, IsRun (opensOperation rule) g := by
  induction ops generalizing first with
  | nil => simp
  | cons op ops ih => exact List.forall_mem_cons.2 ⟨h.1.run, ih h.2⟩

@[simp] theorem ordinal_ofLines (first : Nat) (ls : List String) :
    (ofLines first ls).ordinal = (Line.read (ls.headD "")).ordinal := rfl

@[simp] theorem firstLine_ofLines (first : Nat) (ls : List String) : (ofLines first ls).firstLine = first := rfl

@[simp] theorem lastLine_ofLines (first : Nat) (ls : List String) :
    (ofLines first ls).lastLine = first + ls.length - 1 := rfl

@[simp] theorem source_ofLines (first : Nat) (ls : List String) : (ofLines first ls).source = ls := rfl

theorem spans_ofLines (first : Nat) (hg : IsRun (opensOperation rule) g) : (ofLines first g).Spans rule first where
  run := hg
  firstLine_eq := rfl
  lastLine_eq := by
    have hpos : 0 < g.length := List.length_pos_iff.2 hg.ne_nil
    rw [lastLine_ofLines, source_ofLines]
    omega
  ordinal_eq := rfl

theorem Spans.dropEnd {first : Nat} {op : Operation} {t : List String} (h : op.Spans rule first)
    (ht : t <:+ op.source.drop 1) : (op.dropEnd t.length).Spans rule first where
  run := (h.run.cut ht).1
  firstLine_eq := h.firstLine_eq
  lastLine_eq := by
    have hlast := h.lastLine_eq
    have hlength := ht.length_le
    change op.lastLine - t.length + 1 = first + (op.source.take (op.source.length - t.length)).length
    rw [List.length_drop] at hlength
    rw [List.length_take]
    have hpos : 0 < op.source.length := List.length_pos_iff.2 h.run.ne_nil
    omega
  ordinal_eq := by
    obtain ⟨x, rest, hsource, -⟩ := h.run
    obtain ⟨y, rest', hcut, -⟩ := (h.run.cut ht).1
    have hjoin := (h.run.cut ht).2.1
    rw [hcut, hsource, List.cons_append, List.cons.injEq] at hjoin
    change op.ordinal = (Line.read ((op.source.take (op.source.length - t.length)).headD "")).ordinal
    rw [hcut, h.ordinal_eq, hsource, hjoin.1]
    rfl

theorem Spans.classify {first : Nat} {op : Operation} (h : op.Spans rule first) : op.classify.Spans rule first :=
  ⟨h.run, h.firstLine_eq, h.lastLine_eq, h.ordinal_eq⟩

theorem follow_chain {first : Nat} (hgs : ∀ g ∈ gs, IsRun (opensOperation rule) g) :
    Follow rule first ((chain first gs).map Operation.classify) := by
  induction gs generalizing first with
  | nil => exact trivial
  | cons g gs ih =>
    obtain ⟨hg, hgs⟩ := List.forall_mem_cons.1 hgs
    rw [chain_cons, List.map_cons]
    exact ⟨(spans_ofLines first hg).classify, ih hgs⟩

theorem map_source_chain (first : Nat) (gs : List (List String)) :
    ((chain first gs).map Operation.classify).map source = gs := by
  induction gs generalizing first with
  | nil => rfl
  | cons g gs ih =>
    rw [chain_cons, List.map_cons, List.map_cons, ih]
    rfl

theorem flatMap_source_chain (first : Nat) (gs : List (List String)) :
    ((chain first gs).map Operation.classify).flatMap source = gs.flatten := by
  rw [List.flatMap_def, map_source_chain]

theorem classify_of_mem_map {op : Operation} {ops : List Operation} (hop : op ∈ ops.map Operation.classify) :
    op.classify = op := by
  obtain ⟨op, -, rfl⟩ := List.mem_map.1 hop
  exact op.classify_classify

theorem chain_append (first : Nat) (gs more : List (List String)) :
    chain first (gs ++ more) = chain first gs ++ chain (first + gs.flatten.length) more := by
  induction gs generalizing first with
  | nil => rfl
  | cons g gs ih =>
    rw [List.cons_append, chain_cons, chain_cons, ih, List.flatten_cons, List.length_append, Nat.add_assoc]
    rfl

theorem chain_concat (first : Nat) (gs : List (List String)) (g : List String) :
    chain first (gs ++ [g]) = chain first gs ++ [ofLines (first + gs.flatten.length) g] :=
  chain_append first gs [g]

end Operation

theorem operationLines_append (hlead : ∀ l ∈ lead, opensOperation rule l = false)
    (hgs : ∀ g ∈ gs, IsRun (opensOperation rule) g) : operationLines rule (lead ++ gs.flatten) = gs := by
  rw [operationLines, dropWhile_append_stop (fun l hl => by simp [hlead l hl])
    (fun l hl => by simp [head_flatten_runs hgs l hl])]
  exact splitBy_flatten_runs hgs

theorem leading_append (hlead : ∀ l ∈ lead, opensOperation rule l = false)
    (hgs : ∀ g ∈ gs, IsRun (opensOperation rule) g) :
    (lead ++ gs.flatten).takeWhile (!opensOperation rule ·) = lead :=
  takeWhile_append_stop (fun l hl => by simp [hlead l hl]) (fun l hl => by simp [head_flatten_runs hgs l hl])

theorem closingLines_suffix (g : List String) : closingLines g <:+ g.drop 1 := by
  refine (List.dropWhile_suffix _).trans ?_
  rw [← List.reverse_prefix, List.reverse_reverse]
  exact List.takeWhile_prefix _

theorem trailingLines_suffix (rule : TrailingRule) (gs : List (List String)) (g : List String) :
    trailingLines rule (gs ++ [g]) <:+ g.drop 1 := by
  cases rule with
  | keep => exact List.nil_suffix
  | sentinel => simpa [trailingLines] using closingLines_suffix g

theorem segmentLines_leading (hlead : ∀ l ∈ lead, opensOperation o.boundary l = false) :
    segmentLines o lead = { leading := lead } := by
  have hgs : ∀ g ∈ ([] : List (List String)), IsRun (opensOperation o.boundary) g := by simp
  have hgroups := operationLines_append hlead hgs
  have hleading := leading_append hlead hgs
  rw [List.flatten_nil, List.append_nil] at hgroups hleading
  rw [segmentLines, hgroups, hleading]
  cases htrailing : o.trailing <;> rfl

theorem segmentLines_append (hlead : ∀ l ∈ lead, opensOperation o.boundary l = false)
    (hgs : ∀ g' ∈ gs ++ [g], IsRun (opensOperation o.boundary) g') :
    segmentLines o (lead ++ (gs ++ [g]).flatten) =
      { leading := lead
        operations := (Operation.chain (lead.length + 1) gs).map Operation.classify ++
          [((Operation.ofLines (lead.length + 1 + gs.flatten.length) g).dropEnd
            (trailingLines o.trailing (gs ++ [g])).length).classify]
        trailing := trailingLines o.trailing (gs ++ [g]) } := by
  rw [segmentLines, operationLines_append hlead hgs, leading_append hlead hgs, Operation.chain_concat,
    List.dropLast_concat, List.getLast?_concat, Option.map_some, Option.toList_some, List.map_append,
    List.map_singleton]

theorem Operation.dropEnd_zero (op : Operation) : op.dropEnd 0 = op := by
  rw [dropEnd, Nat.sub_zero, Nat.sub_zero, List.take_length]

theorem segmentLines_keep (hkeep : o.trailing = .keep) (hlead : ∀ l ∈ lead, opensOperation o.boundary l = false)
    (hgs : ∀ g ∈ gs, IsRun (opensOperation o.boundary) g) :
    segmentLines o (lead ++ gs.flatten) =
      { leading := lead, operations := (Operation.chain (lead.length + 1) gs).map Operation.classify } := by
  rcases List.eq_nil_or_concat' gs with rfl | ⟨gs, g, rfl⟩
  · rw [List.flatten_nil, List.append_nil, segmentLines_leading hlead]
    rfl
  · rw [segmentLines_append hlead hgs, hkeep, trailingLines, List.length_nil, Operation.dropEnd_zero,
      Operation.chain_concat, List.map_append, List.map_singleton]

structure Program.Segments (rule : BoundaryRule) (ls : List String) (p : Program) : Prop where
  source_eq : p.leading ++ p.operations.flatMap Operation.source ++ p.trailing = ls
  leading_passive : ∀ l ∈ p.leading, opensOperation rule l = false
  follow : Operation.Follow rule (p.leading.length + 1) p.operations
  divided : ∀ op ∈ p.operations, op.classify = op
  trailing_passive : ∀ l ∈ p.trailing, opensOperation rule l = false

theorem segments_segmentLines (o : Options) (ls : List String) : (segmentLines o ls).Segments o.boundary ls := by
  obtain ⟨lead, gs, hlead, hgs, rfl⟩ := exists_runs (opensOperation o.boundary) ls
  rcases List.eq_nil_or_concat' gs with rfl | ⟨gs, g, rfl⟩
  · rw [List.flatten_nil, List.append_nil, segmentLines_leading hlead]
    exact ⟨by simp, hlead, trivial, by simp, by simp⟩
  · have hsuffix := trailingLines_suffix o.trailing gs g
    have hspans := Operation.spans_ofLines (lead.length + 1 + gs.flatten.length) (hgs g (by simp))
    obtain ⟨-, hcut, hpassive⟩ := (hgs g (by simp)).cut hsuffix
    rw [segmentLines_append hlead hgs]
    generalize trailingLines o.trailing (gs ++ [g]) = t at *
    refine ⟨?_, hlead, ?_, ?_, hpassive⟩
    · change lead ++ List.flatMap _ (_ ++ [_]) ++ t = _
      rw [List.flatMap_append, Operation.flatMap_source_chain, List.flatMap_singleton, List.flatten_append,
        List.flatten_singleton, List.append_assoc, List.append_assoc]
      exact congrArg (fun last => lead ++ (gs.flatten ++ last)) hcut
    · refine Operation.follow_append.2 ⟨?_, ?_, trivial⟩
      · exact Operation.follow_chain fun g' hg' => hgs g' (List.mem_append_left _ hg')
      · rw [Operation.flatMap_source_chain]
        exact (hspans.dropEnd hsuffix).classify
    · intro op hop
      rcases List.mem_append.1 hop with hop | hop
      · exact Operation.classify_of_mem_map hop
      · rw [List.mem_singleton.1 hop, Operation.classify_classify]

theorem Program.Segments.lines_eq {p : Program} (h : p.Segments rule ls) : p.lines = ls := by
  have hops : p.operations.flatMap Operation.lines = p.operations.flatMap Operation.source :=
    List.flatMap_congr fun op hop => Operation.lines_eq_source (h.divided op hop)
  rw [Program.lines, hops, h.source_eq]

theorem Program.Segments.exists_split {p : Program} (h : p.Segments rule ls) {op : Operation}
    (hop : op ∈ p.operations) :
    ∃ before after, ls = before ++ op.source ++ after ∧ op.Spans rule (before.length + 1) := by
  obtain ⟨ops, more, hsplit⟩ := List.append_of_mem hop
  have hfollow := h.follow
  rw [hsplit, Operation.follow_append] at hfollow
  refine ⟨p.leading ++ ops.flatMap Operation.source, more.flatMap Operation.source ++ p.trailing, ?_, ?_⟩
  · rw [← h.source_eq, hsplit]
    simp only [List.flatMap_append, List.flatMap_cons, List.append_assoc]
  · rw [List.length_append, Nat.add_right_comm]
    exact hfollow.2.1

theorem Program.Segments.isRun_source {p : Program} (h : p.Segments rule ls) {op : Operation}
    (hop : op ∈ p.operations) : IsRun (opensOperation rule) op.source :=
  h.follow.isRun_source op.source (List.mem_map_of_mem hop)

theorem Program.Segments.operations_ne_nil_iff {p : Program} (h : p.Segments rule ls) :
    p.operations ≠ [] ↔ ∃ l ∈ ls, opensOperation rule l = true := by
  rw [← h.source_eq]
  constructor
  · intro hops
    obtain ⟨op, rest, hcons⟩ := List.exists_cons_of_ne_nil hops
    obtain ⟨x, more, hsource, hx, -⟩ := h.isRun_source (hcons ▸ List.mem_cons_self : op ∈ p.operations)
    refine ⟨x, ?_, hx⟩
    simp [hcons, hsource]
  · rintro ⟨l, hl, hopens⟩ hops
    rw [hops, List.flatMap_nil, List.append_nil, List.mem_append] at hl
    rcases hl with hl | hl
    · exact Bool.false_ne_true (h.leading_passive l hl ▸ hopens)
    · exact Bool.false_ne_true (h.trailing_passive l hl ▸ hopens)

/-- No line of a text is lost, moved or changed: its text is the one it was made from, with line feeds at all line
ends. -/
theorem text_segment (o : Options) (text : String) : (segment o text).text = Text.unifyEnds text := by
  rw [Program.text, segment, (segments_segmentLines o (Text.lines text)).lines_eq, Text.join_lines]

theorem Program.Segments.lines_text {p : Program} {text : String} (h : p.Segments rule (Text.lines text)) :
    Text.lines p.text = Text.lines text := by
  rw [Program.text, h.lines_eq, Text.join_lines, Text.lines_unifyEnds]

/-- The text of a program is divided just as the text that the program was made from, also by other options than those
of the program. -/
theorem segment_text_segment (o o' : Options) (text : String) :
    segment o' (segment o text).text = segment o' text := by
  have hseg : (segment o text).Segments o.boundary (Text.lines text) := segments_segmentLines o (Text.lines text)
  exact congrArg (segmentLines o') hseg.lines_text

end Machining
