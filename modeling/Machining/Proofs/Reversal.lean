import Mathlib.Data.List.Perm.Basic
import Machining.Program.ZigZag
import Machining.Proofs.Segmentation

/-!
What the reversal does to the lines of an operation. It keeps header, footer and the lines of each block, so lines
change places only within the blocks. Whether the line that opens a planned operation stays in front depends on
its header: without one, that line belongs to the first block and goes behind the others.
-/

namespace Machining

variable {rule : BoundaryRule} {ls : List String}

theorem Divides.run_reverse {q : String → Bool} {source header footer : List String} {groups : List (List String)}
    (h : Divides source header groups footer) (hrun : IsRun q source) (hheader : header ≠ []) :
    IsRun q (header ++ groups.reverse.flatten ++ footer) ∧
      (header ++ groups.reverse.flatten ++ footer).head? = source.head? := by
  obtain ⟨x, rest, hsource, hx, hrest⟩ := hrun
  obtain ⟨y, more, rfl⟩ := List.exists_cons_of_ne_nil hheader
  have heq := h.source_eq
  rw [hsource, List.cons_append, List.cons_append, List.cons.injEq] at heq
  obtain ⟨rfl, rfl⟩ := heq
  rw [List.cons_append, List.cons_append, hsource]
  refine ⟨isRun_cons hx fun l hl => hrest l ?_, rfl⟩
  simpa only [List.mem_append, List.mem_flatten, List.mem_reverse] using hl

/-- Without a header the opening line is the first line of the first group, and the other groups go in front. -/
theorem Divides.split_reverse {q : String → Bool} {source footer : List String} {groups : List (List String)}
    (h : Divides source [] groups footer) (hrun : IsRun q source) (hgroups : 1 < groups.length) :
    ∃ y spill own, groups.reverse.flatten ++ footer = y :: spill ++ own ∧ IsRun q own ∧
      ∀ l ∈ y :: spill, q l = false := by
  obtain ⟨x, rest, hsource, hx, hrest⟩ := hrun
  match groups, h, hgroups with
  | g :: g' :: more, h, _ =>
    obtain ⟨y, tail, rfl, -⟩ := h.groups_run g List.mem_cons_self
    have heq := h.source_eq
    rw [hsource, List.nil_append, List.flatten_cons, List.cons_append, List.cons_append, List.cons.injEq] at heq
    obtain ⟨rfl, rfl⟩ := heq
    have hspill : (g' :: more).reverse.flatten ≠ [] := by
      have hg' := (h.groups_run g' (by simp)).ne_nil
      simp [hg']
    obtain ⟨z, spill, hz⟩ := List.exists_cons_of_ne_nil hspill
    refine ⟨z, spill, y :: tail ++ footer, ?_, ?_, ?_⟩
    · rw [← hz, List.reverse_cons, List.flatten_append, List.flatten_singleton, List.append_assoc]
    · refine isRun_cons hx fun l hl => hrest l ?_
      rcases List.mem_append.1 hl with hl | hl
      · exact List.mem_append_left _ (List.mem_append_left _ hl)
      · exact List.mem_append_right _ hl
    · intro l hl
      rw [← hz] at hl
      refine hrest l (List.mem_append_left _ (List.mem_append_right _ ?_))
      simpa only [List.mem_flatten, List.mem_reverse] using hl

namespace Operation

def reverseIf (b : Bool) (op : Operation) : Operation := if b then op.reverse else op

@[simp] theorem reverseIf_false (op : Operation) : op.reverseIf false = op := rfl

@[simp] theorem reverseIf_true (op : Operation) : op.reverseIf true = op.reverse := rfl

theorem perm_lines_reverseIf (b : Bool) (op : Operation) : (op.reverseIf b).lines.Perm op.lines := by
  cases b with
  | false => exact .refl _
  | true =>
    have hblocks : (op.blocks.reverse.flatMap OffsetBlock.lines).Perm op.blockLines :=
      (List.reverse_perm op.blocks).flatMap_right _
    exact (hblocks.append_left op.header).append_right op.footer

theorem perm_lines_mapIdx {f : Nat → Operation → Operation} (hf : ∀ i op, (f i op).lines.Perm op.lines)
    (ops : List Operation) : ((ops.mapIdx f).flatMap lines).Perm (ops.flatMap lines) := by
  induction ops generalizing f with
  | nil => exact .refl _
  | cons op ops ih =>
    simp only [List.mapIdx_cons, List.flatMap_cons]
    exact (hf 0 op).append (ih fun i => hf (i + 1))

def turned (i : Nat) (op : Operation) : Operation := if op.isPlanned i then op.reverse else op

def turnFrom (k : Nat) : List Operation → List Operation
  | [] => []
  | op :: ops => op.turned k :: turnFrom (k + 1) ops

theorem mapIdx_turned (k : Nat) (ops : List Operation) : (ops.mapIdx fun i => turned (k + i)) = turnFrom k ops := by
  induction ops generalizing k with
  | nil => rfl
  | cons op ops ih =>
    rw [List.mapIdx_cons, turnFrom, ← ih]
    simp only [Nat.add_zero, Nat.add_right_comm k 1, Nat.add_assoc]

theorem turnFrom_append (k : Nat) (ops more : List Operation) :
    turnFrom k (ops ++ more) = turnFrom k ops ++ turnFrom (k + ops.length) more := by
  induction ops generalizing k with
  | nil => rfl
  | cons op ops ih =>
    rw [List.cons_append, turnFrom, turnFrom, ih, List.length_cons, Nat.add_right_comm k, Nat.add_assoc]
    rfl

theorem getElem?_turnFrom (k : Nat) (ops : List Operation) (i : Nat) :
    (turnFrom k ops)[i]? = ops[i]?.map (turned (k + i)) := by
  rw [← mapIdx_turned, List.getElem?_mapIdx]

theorem turned_eq (i : Nat) (op : Operation) :
    op.turned i = { op with blocks := if op.isPlanned i then op.blocks.reverse else op.blocks } := by
  simp only [turned]
  split <;> rfl

@[simp] theorem ordinal_turned (i : Nat) (op : Operation) : (op.turned i).ordinal = op.ordinal := by rw [turned_eq]

@[simp] theorem firstLine_turned (i : Nat) (op : Operation) : (op.turned i).firstLine = op.firstLine := by
  rw [turned_eq]

@[simp] theorem lastLine_turned (i : Nat) (op : Operation) : (op.turned i).lastLine = op.lastLine := by rw [turned_eq]

@[simp] theorem header_turned (i : Nat) (op : Operation) : (op.turned i).header = op.header := by rw [turned_eq]

@[simp] theorem footer_turned (i : Nat) (op : Operation) : (op.turned i).footer = op.footer := by rw [turned_eq]

@[simp] theorem source_turned (i : Nat) (op : Operation) : (op.turned i).source = op.source := by rw [turned_eq]

theorem blocks_turned (i : Nat) (op : Operation) :
    (op.turned i).blocks = if op.isPlanned i then op.blocks.reverse else op.blocks := by rw [turned_eq]

theorem perm_lines_turned (i : Nat) (op : Operation) : (op.turned i).lines.Perm op.lines :=
  perm_lines_reverseIf (op.isPlanned i) op

theorem length_lines_turned (i : Nat) (op : Operation) : (op.turned i).lines.length = op.lines.length :=
  (perm_lines_turned i op).length_eq

theorem perm_lines_turnFrom (k : Nat) (ops : List Operation) :
    ((turnFrom k ops).flatMap lines).Perm (ops.flatMap lines) := by
  rw [← mapIdx_turned]
  exact perm_lines_mapIdx (fun i => perm_lines_turned (k + i)) ops

theorem isPlanned_classify {op : Operation} {header footer : List String} {groups : List (List String)}
    (h : Divides op.source header groups footer) (i : Nat) :
    op.classify.isPlanned i = true ↔ i % 2 = 1 ∧ 1 < groups.length := by
  rw [classify_eq h, isPlanned, OffsetBlock.length_chain]
  simp

theorem one_lt_length_blocks {op : Operation} {i : Nat} (h : op.isPlanned i = true) : 1 < op.blocks.length := by
  simp only [isPlanned, Bool.and_eq_true, decide_eq_true_eq] at h
  exact h.2

theorem lines_reverse (op : Operation) :
    op.reverse.lines = op.header ++ (op.blocks.map OffsetBlock.lines).reverse.flatten ++ op.footer := by
  simp only [lines, blockLines, reverse, List.flatMap_def, List.map_reverse]

theorem lines_turned {op : Operation} (hop : op.classify = op) (i : Nat) :
    (op.turned i).lines =
      if op.isPlanned i = true then op.header ++ (op.blocks.map OffsetBlock.lines).reverse.flatten ++ op.footer
      else op.source := by
  rw [turned]
  split
  · exact lines_reverse op
  · exact lines_eq_source hop

theorem lines_turned_classify {op : Operation} {header footer : List String} {groups : List (List String)}
    (h : Divides op.source header groups footer) (i : Nat) :
    (op.classify.turned i).lines =
      if i % 2 = 1 ∧ 1 < groups.length then header ++ groups.reverse.flatten ++ footer else op.source := by
  simp only [lines_turned (classify_classify op), isPlanned_classify h]
  simp only [classify_eq h, OffsetBlock.map_lines_chain]

section

variable {q : String → Bool} {op : Operation} {i : Nat}

theorem header_eq_nil_iff (hop : op.classify = op) {opening : String} (hopening : op.source.head? = some opening) :
    op.header = [] ↔ selectsOffset opening = true := by
  obtain ⟨rest, hsource⟩ := List.head?_eq_some_iff.1 hopening
  have hd := divides hop
  rw [hsource] at hd
  exact hd.header_eq_nil_iff

theorem run_lines_turned (hrun : IsRun q op.source) (hop : op.classify = op)
    (h : op.isPlanned i = true → op.header ≠ []) :
    IsRun q (op.turned i).lines ∧ (op.turned i).lines.head? = op.source.head? := by
  rw [lines_turned hop]
  split
  · next hplan => exact (divides hop).run_reverse hrun (h hplan)
  · exact ⟨hrun, rfl⟩

theorem split_lines_turned (hrun : IsRun q op.source) (hop : op.classify = op) (hp : op.isPlanned i = true)
    (h : op.header = []) :
    ∃ y spill own, (op.turned i).lines = y :: spill ++ own ∧ IsRun q own ∧ ∀ l ∈ y :: spill, q l = false := by
  have hd := divides hop
  have hcount : 1 < (op.blocks.map OffsetBlock.lines).length := by
    rw [List.length_map]
    exact one_lt_length_blocks hp
  rw [h] at hd
  rw [lines_turned hop, if_pos hp, h, List.nil_append]
  exact hd.split_reverse hrun hcount

end

end Operation

namespace Program

theorem operations_zigzag (p : Program) : p.zigzag.operations = Operation.turnFrom 0 p.operations := by
  rw [← Operation.mapIdx_turned]
  simp only [Nat.zero_add]
  rfl

theorem mem_plan_iff {p : Program} {i : Nat} :
    i ∈ p.plan ↔ ∃ op, p.operations[i]? = some op ∧ op.isPlanned i = true := by
  simp only [plan, List.mem_filterMap, Option.ite_none_right_eq_some, Option.some.injEq, Prod.exists,
    List.mk_mem_zipIdx_iff_getElem?]
  constructor
  · rintro ⟨op, j, hop, hplan, rfl⟩
    exact ⟨op, hop, hplan⟩
  · rintro ⟨op, hop, hplan⟩
    exact ⟨op, i, hop, hplan, rfl⟩

theorem perm_lines_zigzag (p : Program) : p.zigzag.lines.Perm p.lines := by
  rw [lines, lines, operations_zigzag]
  exact ((Operation.perm_lines_turnFrom 0 p.operations).append_left p.leading).append_right p.trailing

end Program

variable {o : Options} {text : String}

theorem perm_lines_zigzag_segment (o : Options) (text : String) :
    (segment o text).zigzag.lines.Perm (Text.lines text) := by
  have hlines := (segments_segmentLines o (Text.lines text)).lines_eq
  simpa only [segment, hlines] using (segment o text).perm_lines_zigzag

theorem unbroken_of_mem_zigzag {l : String} (hl : l ∈ (segment o text).zigzag.lines) : Text.Unbroken l.toList :=
  Text.unbroken_of_mem_lines ((perm_lines_zigzag_segment o text).mem_iff.1 hl)

theorem optimize_of_operations (h : (segment o text).operations ≠ []) :
    optimize o text = Text.join (segment o text).zigzag.lines := by
  rw [optimize, if_neg (by simpa using h)]
  rfl

theorem lines_optimize (h : (segment o text).operations ≠ []) :
    Text.lines (optimize o text) = (segment o text).zigzag.lines := by
  rw [optimize_of_operations h]
  refine Text.lines_join (fun l hl => unbroken_of_mem_zigzag hl) fun hempty => ?_
  have hperm := perm_lines_zigzag_segment o text
  rw [hempty, List.singleton_perm] at hperm
  exact Text.lines_ne_singleton_empty text hperm.symm

end Machining
