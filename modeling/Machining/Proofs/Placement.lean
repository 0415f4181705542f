import Machining.Proofs.Reversal

/-!
Where the lines of a text stand after the reversal. An operation is written with its opening line in front, unless
it is planned and that line selects an offset itself: then the line belongs to the first block, which is written
last. A line outside the blocks of the planned operations keeps its place in the text, and the place of these blocks
is taken by the same blocks in reverse.
-/

namespace Machining

variable {rule : BoundaryRule} {o : Options} {text : String}

/-- An operation is written with the line that opens it in front of all others, unless it is planned and that line
selects an offset. Then another line goes in front. -/
theorem opening_zigzag (o : Options) (text : String) {i : Nat} {op : Operation}
    (h : (segment o text).zigzag.operations[i]? = some op) :
    ∃ opening, op.source.head? = some opening ∧ opensOperation o.boundary opening = true ∧
      (¬ (i ∈ (segment o text).plan ∧ selectsOffset opening = true) →
        ∃ rest, op.lines = opening :: rest ∧ ∀ l ∈ rest, opensOperation o.boundary l = false) ∧
      (i ∈ (segment o text).plan ∧ selectsOffset opening = true →
        ∃ l rest, op.lines = l :: rest ∧ opensOperation o.boundary l = false) := by
  have hseg := segments_segmentLines o (Text.lines text)
  rw [Program.operations_zigzag, Operation.getElem?_turnFrom, Nat.zero_add] at h
  obtain ⟨op, hop, rfl⟩ := Option.map_eq_some_iff.1 h
  have hrun := hseg.isRun_source (List.mem_of_getElem? hop)
  have hclassify := hseg.divided op (List.mem_of_getElem? hop)
  have hplan : i ∈ (segment o text).plan ↔ op.isPlanned i = true := by
    rw [Program.mem_plan_iff, hop]
    simp
  obtain ⟨opening, rest, hsource, hopens, -⟩ := id hrun
  have hhead : op.source.head? = some opening := by rw [hsource]; rfl
  refine ⟨opening, by rw [Operation.source_turned, hhead], hopens, ?_, ?_⟩
  · intro hstays
    rw [hplan, ← Operation.header_eq_nil_iff hclassify hhead] at hstays
    obtain ⟨⟨x, rest', hlines, -, hrest⟩, hfront⟩ :=
      Operation.run_lines_turned hrun hclassify fun hp hnil => hstays ⟨hp, hnil⟩
    rw [hlines, hhead, List.head?_cons, Option.some.injEq] at hfront
    exact ⟨rest', by rw [hlines, hfront], hrest⟩
  · intro hmoves
    rw [hplan, ← Operation.header_eq_nil_iff hclassify hhead] at hmoves
    obtain ⟨y, spill, own, hlines, -, hspill⟩ := Operation.split_lines_turned hrun hclassify hmoves.1 hmoves.2
    exact ⟨y, spill ++ own, hlines, hspill y List.mem_cons_self⟩

theorem opening_zigzag_header : ∃ op, (segment {} "N1\nN2\nG54\nG55").zigzag.operations[1]? = some op ∧
    ∃ rest, op.lines = "N2" :: rest ∧ ∀ l ∈ rest, opensOperation .lineNumberOrToolChange l = false := by
  have h : (segment {} "N1\nN2\nG54\nG55").zigzag.operations[1]? = some
      { ordinal := 2, firstLine := 2, lastLine := 4, header := ["N2"]
        blocks := [⟨"G55", 4, 4, ["G55"]⟩, ⟨"G54", 3, 3, ["G54"]⟩], source := ["N2", "G54", "G55"] } := rfl
  obtain ⟨opening, hopening, -, hstays, -⟩ := opening_zigzag {} "N1\nN2\nG54\nG55" h
  obtain rfl : "N2" = opening := Option.some.inj hopening
  exact ⟨_, h, hstays (by decide)⟩

/-- Here the block of the second offset is worked with the tool of the operation before. -/
theorem opening_behind_block : ∃ op, (segment {} "T1 M6\nG54\nX1\nT2 M6 G54\nX2\nG55\nX3").zigzag.operations[1]? =
      some op ∧
    op.source.head? = some "T2 M6 G54" ∧ op.lines = ["G55", "X3", "T2 M6 G54", "X2"] :=
  ⟨_, rfl, rfl, rfl⟩

def stretch (first count : Nat) (ls : List String) : List String := (ls.drop (first - 1)).take count

theorem stretch_append {first count : Nat} {before part after : List String} (hfirst : before.length + 1 = first)
    (hcount : part.length = count) : stretch first count (before ++ part ++ after) = part := by
  rw [stretch, ← hfirst, Nat.add_sub_cancel, List.append_assoc, List.drop_left, List.take_left' hcount]

theorem getElem?_exchange {before part part' after : List String} {n : Nat} (hlength : part'.length = part.length)
    (hn : n < before.length ∨ before.length + part.length ≤ n) :
    (before ++ part' ++ after)[n]? = (before ++ part ++ after)[n]? := by
  rcases hn with hn | hn
  · rw [List.append_assoc, List.append_assoc, List.getElem?_append_left hn, List.getElem?_append_left hn]
  · rw [List.getElem?_append_right (by simpa [hlength] using hn), List.getElem?_append_right (by simpa using hn),
      List.length_append, List.length_append, hlength]

namespace Operation

def InBlocks (op : Operation) (n : Nat) : Prop :=
  op.firstLine + op.header.length ≤ n ∧ n < op.firstLine + op.header.length + op.blockLines.length

def blockStretch (op : Operation) (ls : List String) : List String :=
  stretch (op.firstLine + op.header.length) op.blockLines.length ls

theorem length_blockLines_reverse (op : Operation) : op.reverse.blockLines.length = op.blockLines.length :=
  ((List.reverse_perm op.blocks).flatMap_right OffsetBlock.lines).length_eq

theorem getElem?_lines_turned {i n : Nat} {op : Operation}
    (hn : op.isPlanned i = true → ¬ op.InBlocks (op.firstLine + n)) : (op.turned i).lines[n]? = op.lines[n]? := by
  simp only [turned]
  split
  · next hplan =>
    apply getElem?_exchange (length_blockLines_reverse op)
    have hout := hn hplan
    simp only [InBlocks] at hout
    change n < op.header.length ∨ op.header.length + op.blockLines.length ≤ n
    omega
  · rfl

theorem getElem?_lines_turnFrom {first k n : Nat} {ops : List Operation} (hfollow : Follow rule first ops)
    (hdivided : ∀ op ∈ ops, op.classify = op)
    (hn : ∀ (i : Nat) (op : Operation), ops[i]? = some op → op.isPlanned (k + i) = true →
      ¬ op.InBlocks (first + n)) :
    ((turnFrom k ops).flatMap lines)[n]? = (ops.flatMap lines)[n]? := by
  induction ops generalizing first k n with
  | nil => rfl
  | cons op ops ih =>
    obtain ⟨hspans, hrest⟩ := hfollow
    have hsource : op.lines.length = op.source.length := by rw [lines_eq_source (hdivided op List.mem_cons_self)]
    rw [turnFrom, List.flatMap_cons, List.flatMap_cons]
    by_cases hlt : n < op.lines.length
    · rw [List.getElem?_append_left hlt, List.getElem?_append_left (by rwa [length_lines_turned])]
      apply getElem?_lines_turned
      intro hplan
      rw [hspans.firstLine_eq]
      exact hn 0 op rfl hplan
    · have hle : op.lines.length ≤ n := Nat.le_of_not_lt hlt
      rw [List.getElem?_append_right hle, List.getElem?_append_right (by rwa [length_lines_turned]),
        length_lines_turned]
      apply ih hrest fun op' hop' => hdivided op' (List.mem_cons_of_mem op hop')
      intro i op' hop' hplan
      have hplan' : op'.isPlanned (k + (i + 1)) = true := by rwa [Nat.add_right_comm, Nat.add_assoc] at hplan
      have hout := hn (i + 1) op' hop' hplan'
      rwa [← hsource, Nat.add_assoc, Nat.add_sub_cancel' hle]

theorem length_blockLines_turned (i : Nat) (op : Operation) :
    (op.turned i).blockLines.length = op.blockLines.length := by
  simp only [turned]
  split
  · exact length_blockLines_reverse op
  · rfl

theorem blockStretch_lines {lead rear : List String} {before after : List Operation} {op op' : Operation}
    (hfirst : (lead ++ before.flatMap lines).length + 1 = op.firstLine) (hheader : op'.header = op.header)
    (hlength : op'.blockLines.length = op.blockLines.length) :
    op.blockStretch (lead ++ (before ++ op' :: after).flatMap lines ++ rear) = op'.blockLines := by
  have hsplit : lead ++ (before ++ op' :: after).flatMap lines ++ rear =
      (lead ++ before.flatMap lines ++ op'.header) ++ op'.blockLines ++
        (op'.footer ++ after.flatMap lines ++ rear) := by
    simp only [List.flatMap_append, List.flatMap_cons, lines, List.append_assoc]
  rw [blockStretch, hsplit]
  apply stretch_append _ hlength
  rw [List.length_append, hheader, ← hfirst]
  omega

end Operation

namespace Program.Segments

variable {p : Program} {ls : List String}

theorem firstLine_eq (h : p.Segments rule ls) {before after : List Operation} {op : Operation}
    (hops : p.operations = before ++ op :: after) :
    (p.leading ++ before.flatMap Operation.lines).length + 1 = op.firstLine := by
  have hfollow := h.follow
  rw [hops, Operation.follow_append] at hfollow
  have hlines : before.flatMap Operation.lines = before.flatMap Operation.source :=
    List.flatMap_congr fun op' hop' =>
      Operation.lines_eq_source (h.divided op' (hops ▸ List.mem_append_left _ hop'))
  rw [hfollow.2.1.firstLine_eq, hlines, List.length_append]
  omega

theorem operations_split {i : Nat} {op : Operation} (hop : p.operations[i]? = some op) :
    ∃ before after, p.operations = before ++ op :: after ∧ before.length = i := by
  obtain ⟨hi, hget⟩ := List.getElem?_eq_some_iff.1 hop
  refine ⟨p.operations.take i, p.operations.drop (i + 1), ?_, List.length_take_of_le hi.le⟩
  rw [← hget, ← List.drop_eq_getElem_cons hi, List.take_append_drop]

theorem stretch_eq (h : p.Segments rule ls) {i : Nat} {op : Operation} (hop : p.operations[i]? = some op) :
    stretch op.firstLine op.source.length ls = op.header ++ op.blockLines ++ op.footer := by
  have hmem : op ∈ p.operations := List.mem_of_getElem? hop
  have hlines : op.lines = op.source := Operation.lines_eq_source (h.divided op hmem)
  obtain ⟨before, after, hsplit, hspans⟩ := h.exists_split hmem
  rw [hsplit, stretch_append hspans.firstLine_eq.symm rfl]
  exact hlines.symm

theorem blockStretch_eq (h : p.Segments rule ls) {i : Nat} {op : Operation} (hop : p.operations[i]? = some op) :
    op.blockStretch ls = op.blockLines ∧ op.blockStretch p.zigzag.lines = (op.turned i).blockLines := by
  obtain ⟨before, after, hops, hlength⟩ := operations_split hop
  have hfirst := h.firstLine_eq hops
  constructor
  · rw [← h.lines_eq, Program.lines, hops]
    exact Operation.blockStretch_lines hfirst rfl rfl
  · rw [Program.lines, Program.operations_zigzag, hops, Operation.turnFrom_append, Operation.turnFrom, Nat.zero_add,
      hlength]
    apply Operation.blockStretch_lines _ (Operation.header_turned i op) (Operation.length_blockLines_turned i op)
    rw [← hfirst, List.length_append, List.length_append, (Operation.perm_lines_turnFrom 0 before).length_eq]
    rfl

theorem getElem?_lines_zigzag (h : p.Segments rule ls) {n : Nat}
    (hn : ∀ (i : Nat) (op : Operation), p.operations[i]? = some op → op.isPlanned i = true → ¬ op.InBlocks (n + 1)) :
    p.zigzag.lines[n]? = ls[n]? := by
  have hlength := (Operation.perm_lines_turnFrom 0 p.operations).length_eq
  rw [← h.lines_eq, Program.lines, Program.lines, Program.operations_zigzag]
  change (p.leading ++ _ ++ p.trailing)[n]? = _
  by_cases hout : n < p.leading.length ∨ p.leading.length + (p.operations.flatMap Operation.lines).length ≤ n
  · exact getElem?_exchange hlength hout
  · obtain ⟨hlead, hrear⟩ := not_or.1 hout
    have hle : p.leading.length ≤ n := Nat.le_of_not_lt hlead
    rw [List.append_assoc, List.append_assoc, List.getElem?_append_right hle, List.getElem?_append_right hle,
      List.getElem?_append_left (by omega), List.getElem?_append_left (by omega)]
    apply Operation.getElem?_lines_turnFrom h.follow h.divided
    intro i op hop hplan
    rw [Nat.zero_add] at hplan
    have hline : p.leading.length + 1 + (n - p.leading.length) = n + 1 := by omega
    rw [hline]
    exact hn i op hop hplan

end Program.Segments

/-- Which line stands where after the reversal. Without operations the text stays as it is. Else its lines end with
line feeds and are the same lines; each line outside the blocks of the planned operations has the number it had, and
in the place of a planned operation's blocks stand the same blocks in reverse. -/
theorem optimize_in_place (o : Options) (text : String) :
    ((segment o text).operations = [] → optimize o text = text) ∧
    ((segment o text).operations ≠ [] →
      '\r' ∉ (optimize o text).toList ∧
      (Text.lines (optimize o text)).Perm (Text.lines text) ∧
      (∀ n, (∀ i ∈ (segment o text).plan, ∀ op, (segment o text).operations[i]? = some op → ¬ op.InBlocks (n + 1)) →
        (Text.lines (optimize o text))[n]? = (Text.lines text)[n]?) ∧
      (∀ (i : Nat) (op : Operation), (segment o text).operations[i]? = some op →
        stretch op.firstLine op.source.length (Text.lines text) = op.header ++ op.blockLines ++ op.footer) ∧
      ∀ i ∈ (segment o text).plan, ∀ op, (segment o text).operations[i]? = some op →
        op.blockStretch (Text.lines text) = op.blocks.flatMap OffsetBlock.lines ∧
        op.blockStretch (Text.lines (optimize o text)) = op.blocks.reverse.flatMap OffsetBlock.lines) := by
  have hseg : (segment o text).Segments o.boundary (Text.lines text) := segments_segmentLines o (Text.lines text)
  constructor
  · intro hops
    rw [optimize, if_pos (by rw [hops]; rfl)]
  intro hops
  have hlines := lines_optimize hops
  refine ⟨?_, ?_, ?_, fun i op hop => hseg.stretch_eq hop, ?_⟩
  · rw [optimize_of_operations hops]
    exact Text.return_notMem_join fun l hl => unbroken_of_mem_zigzag hl
  · rw [hlines]
    exact perm_lines_zigzag_segment o text
  · intro n hn
    rw [hlines]
    exact hseg.getElem?_lines_zigzag fun i op hop hplan => hn i (Program.mem_plan_iff.2 ⟨op, hop, hplan⟩) op hop
  · intro i hi op hop
    obtain ⟨op', hop', hplan⟩ := Program.mem_plan_iff.1 hi
    rw [hop, Option.some.injEq] at hop'
    subst hop'
    obtain ⟨hbefore, hafter⟩ := hseg.blockStretch_eq hop
    rw [hlines, hafter, Operation.turned, if_pos hplan]
    exact ⟨hbefore, rfl⟩

theorem optimize_in_place_two_blocks :
    (segment {} "N1\r\nN2\r\nG54\r\nG55").operations ≠ [] ∧ 1 ∈ (segment {} "N1\r\nN2\r\nG54\r\nG55").plan ∧
    stretch 3 2 (Text.lines (optimize {} "N1\r\nN2\r\nG54\r\nG55")) = ["G55", "G54"] := by
  have hops : (segment {} "N1\r\nN2\r\nG54\r\nG55").operations ≠ [] := by decide
  have hplan : 1 ∈ (segment {} "N1\r\nN2\r\nG54\r\nG55").plan := by decide
  have hop : (segment {} "N1\r\nN2\r\nG54\r\nG55").operations[1]? = some
      { ordinal := 2, firstLine := 2, lastLine := 4, header := ["N2"]
        blocks := [⟨"G54", 3, 3, ["G54"]⟩, ⟨"G55", 4, 4, ["G55"]⟩], source := ["N2", "G54", "G55"] } := rfl
  have h := ((optimize_in_place {} "N1\r\nN2\r\nG54\r\nG55").2 hops).2.2.2.2 1 hplan _ hop
  exact ⟨hops, hplan, h.2⟩

end Machining
