import Machining.Proofs.Reversal
import Machining.Proofs.Sentinel

/-!
The marker that closes the tape, and where it stands after the reversal. With the sentinel rule it is taken off the
last operation and written behind all operations. Else the last operation keeps it. The marker still stays last, unless
that operation is planned and has no footer: then it belongs to the last block, which goes in front of the others.
-/

namespace Machining

variable {rule : BoundaryRule} {o : Options} {ls more g : List String} {l : String}

def lastVisible (ls : List String) : Option String := (ls.filter (!isWhite ·)).getLast?

def EndsMarked (ls : List String) : Prop := ∃ l, lastVisible ls = some l ∧ isMarker l = true

theorem lastVisible_append (ls more : List String) :
    lastVisible (ls ++ more) = (lastVisible more).or (lastVisible ls) := by
  simp only [lastVisible, List.filter_append, List.getLast?_append]

theorem exists_lastVisible (hl : l ∈ ls) (hwhite : isWhite l = false) : ∃ m, lastVisible ls = some m := by
  have hmem : l ∈ ls.filter (!isWhite ·) := List.mem_filter.2 ⟨hl, by simp [hwhite]⟩
  exact ⟨_, List.getLast?_eq_some_getLast (List.ne_nil_of_mem hmem)⟩

theorem lastVisible_append_of_mem (hl : l ∈ more) (hwhite : isWhite l = false) :
    lastVisible (ls ++ more) = lastVisible more := by
  obtain ⟨m, hm⟩ := exists_lastVisible hl hwhite
  rw [lastVisible_append, hm, Option.some_or]

theorem exists_split_of_lastVisible (h : lastVisible ls = some l) :
    ∃ front rear, ls = front ++ l :: rear ∧ ∀ m ∈ rear, isWhite m = true := by
  obtain ⟨init, hinit⟩ := List.getLast?_eq_some_iff.1 h
  obtain ⟨front, rear, rfl, -, hrear⟩ := List.filter_eq_append_iff.1 hinit
  obtain ⟨white, rest, rfl, -, -, hrest⟩ := List.filter_eq_cons_iff.1 hrear
  refine ⟨front ++ white, rest, by simp, fun m hm => ?_⟩
  simpa using List.filter_eq_nil_iff.1 hrest m hm

theorem isWhite_of_isMarker (h : isMarker l = true) : isWhite l = false := by
  simp only [isMarker, beq_iff_eq] at h
  simp [isWhite, h]

theorem lastVisible_append_run {q : String → Bool} (hrun : IsRun q g) (hq : ∀ l, isIdle l = true → q l = false) :
    lastVisible (ls ++ g) = lastVisible g := by
  obtain ⟨x, rest, rfl, hx, -⟩ := hrun
  exact lastVisible_append_of_mem List.mem_cons_self (isWhite_eq_false (hq x) hx)

theorem Divides.lastVisible_reverse {source header footer : List String} {groups : List (List String)}
    (h : Divides source header (g :: groups) footer) :
    lastVisible (header ++ (g :: groups).reverse.flatten ++ footer) =
      if footer = [] then lastVisible g else lastVisible source := by
  by_cases hfooter : footer = []
  · have hrun : IsRun selectsOffset g := h.groups_run g List.mem_cons_self
    rw [if_pos hfooter, hfooter, List.append_nil, List.reverse_cons, List.flatten_append, List.flatten_singleton,
      ← List.append_assoc, lastVisible_append_run hrun fun _ => selectsOffset_of_isIdle]
  · obtain ⟨x, rest, rfl⟩ := List.exists_cons_of_ne_nil hfooter
    have hx : isWhite x = false := isWhite_eq_false triggersFooter_of_isIdle (h.footer_head x rfl)
    rw [if_neg hfooter, lastVisible_append_of_mem List.mem_cons_self hx, ← h.source_eq,
      lastVisible_append_of_mem List.mem_cons_self hx]

namespace Operation

variable {op : Operation} {i : Nat}

theorem lastVisible_turned_of_isPlanned (hop : op.classify = op) (hp : op.isPlanned i = true) :
    ∃ b, op.blocks.head? = some b ∧
      lastVisible (op.turned i).lines = if op.footer = [] then lastVisible b.lines else lastVisible op.source := by
  obtain ⟨b, rest, hblocks⟩ := List.exists_cons_of_length_pos (Nat.zero_lt_of_lt (one_lt_length_blocks hp))
  have hd := divides hop
  rw [hblocks, List.map_cons] at hd
  refine ⟨b, by rw [hblocks, List.head?_cons], ?_⟩
  rw [lines_turned hop, if_pos hp, hblocks, List.map_cons]
  exact hd.lastVisible_reverse

/-- Reversing an operation changes which line is last only if there is no footer; then the first block goes last. -/
theorem lastVisible_turned (hop : op.classify = op) :
    (op.isPlanned i = true → op.footer = [] →
      ∃ b, op.blocks.head? = some b ∧ lastVisible (op.turned i).lines = lastVisible b.lines) ∧
    (¬ (op.isPlanned i = true ∧ op.footer = []) → lastVisible (op.turned i).lines = lastVisible op.source) := by
  constructor
  · intro hp hfooter
    obtain ⟨b, hb, hlast⟩ := lastVisible_turned_of_isPlanned hop hp
    exact ⟨b, hb, by rw [hlast, if_pos hfooter]⟩
  · intro hstays
    by_cases hp : op.isPlanned i = true
    · obtain ⟨b, -, hlast⟩ := lastVisible_turned_of_isPlanned hop hp
      rw [hlast, if_neg fun hfooter => hstays ⟨hp, hfooter⟩]
    · rw [lines_turned hop, if_neg hp]

end Operation

namespace Program

/-- The last operation is planned and has no footer, so that its blocks reach to its last line. -/
def EndsInBlocks (p : Program) : Prop :=
  ∃ op, p.operations.getLast? = some op ∧ p.operations.length - 1 ∈ p.plan ∧ op.footer = []

variable {p : Program} {op : Operation}

theorem Segments.lastVisible_eq (h : p.Segments rule ls) (hop : p.operations.getLast? = some op) :
    lastVisible ls = (lastVisible p.trailing).or (lastVisible op.source) := by
  obtain ⟨ops, hops⟩ := List.getLast?_eq_some_iff.1 hop
  have hrun := h.isRun_source (List.mem_of_getLast? hop)
  rw [← h.source_eq, lastVisible_append, hops, List.flatMap_append, List.flatMap_singleton, ← List.append_assoc,
    lastVisible_append_run hrun fun _ => opensOperation_of_isIdle rule]

theorem Segments.lastVisible_zigzag (h : p.Segments rule ls) (hop : p.operations.getLast? = some op) :
    lastVisible p.zigzag.lines =
      (lastVisible p.trailing).or (lastVisible (op.turned (p.operations.length - 1)).lines) := by
  obtain ⟨ops, hops⟩ := List.getLast?_eq_some_iff.1 hop
  have hmem : op ∈ p.operations := List.mem_of_getLast? hop
  obtain ⟨x, rest, hsource, hx, -⟩ := h.isRun_source hmem
  have hlength : p.operations.length - 1 = ops.length := by simp [hops]
  have hopening : x ∈ (op.turned ops.length).lines := by
    rw [(Operation.perm_lines_turned ops.length op).mem_iff, Operation.lines_eq_source (h.divided op hmem), hsource]
    exact List.mem_cons_self
  have hwhite : isWhite x = false := isWhite_eq_false (opensOperation_of_isIdle rule) hx
  have hlast : Operation.turnFrom (0 + ops.length) [op] = [op.turned ops.length] := by
    rw [Nat.zero_add]
    rfl
  rw [lines, operations_zigzag, lastVisible_append, hops, Operation.turnFrom_append, List.flatMap_append, hlast,
    List.flatMap_singleton, ← List.append_assoc, lastVisible_append_of_mem hopening hwhite]
  simp [zigzag]

theorem endsInBlocks_iff (hop : p.operations.getLast? = some op) :
    p.EndsInBlocks ↔ op.isPlanned (p.operations.length - 1) = true ∧ op.footer = [] := by
  have hget : p.operations[p.operations.length - 1]? = some op := by rw [← List.getLast?_eq_getElem?, hop]
  simp [EndsInBlocks, mem_plan_iff, hget, hop]

end Program

theorem trailing_segmentLines (hkeep : o.trailing = .keep) : (segmentLines o ls).trailing = [] := by
  simp only [segmentLines, hkeep, trailingLines]

theorem endsMarked_trailing (hsentinel : o.trailing = .sentinel) (hops : (segmentLines o ls).operations ≠ [])
    (h : EndsMarked ls) : EndsMarked (segmentLines o ls).trailing := by
  obtain ⟨rule, trailing⟩ := o
  obtain rfl : trailing = .sentinel := hsentinel
  have hopens := (segments_segmentLines ⟨rule, .sentinel⟩ ls).operations_ne_nil_iff.1 hops
  obtain ⟨l, hlast, hl⟩ := h
  obtain ⟨front, rear, rfl, hrear⟩ := exists_split_of_lastVisible hlast
  have hend : ClosingEnd (front ++ l :: rear) (l :: rear) := by
    refine ⟨List.suffix_append front (l :: rear), by simpa using hl, ?_⟩
    exact List.forall_mem_cons.2 ⟨isIdle_of_isMarker hl, fun m hm => isIdle_of_isWhite (hrear m hm)⟩
  -- all lines from the marker on are among the closing lines, and the marker is still the last one to be seen
  obtain ⟨more, hmore⟩ := (longestClosingEnd_trailing hopens).suffix_of hend
  have hsame : ∀ front : List String, lastVisible (front ++ l :: rear) = lastVisible (l :: rear) := fun front =>
    lastVisible_append_of_mem List.mem_cons_self (isWhite_of_isMarker hl)
  refine ⟨l, ?_, hl⟩
  rw [← hmore, hsame, ← hsame front, hlast]

/-- A marker that closes the text closes the reversed text too, unless the last operation keeps it and is reversed to
its end. Then the last operation ends with the lines of its first block. -/
theorem optimize_endsMarked (o : Options) (text : String) (h : EndsMarked (Text.lines text)) :
    (¬ (o.trailing = .keep ∧ (segment o text).EndsInBlocks) → EndsMarked (Text.lines (optimize o text))) ∧
    (o.trailing = .keep ∧ (segment o text).EndsInBlocks →
      ∃ op b, (segment o text).operations.getLast? = some op ∧ op.blocks.head? = some b ∧
        lastVisible (Text.lines (optimize o text)) = lastVisible b.lines) := by
  have hseg : (segment o text).Segments o.boundary (Text.lines text) := segments_segmentLines o (Text.lines text)
  cases hlast : (segment o text).operations.getLast? with
  | none =>
    have hops : (segment o text).operations = [] := List.getLast?_eq_none_iff.1 hlast
    constructor
    · intro _
      rwa [optimize, if_pos (by simp [hops])]
    · rintro ⟨-, op, hop, -⟩
      exact absurd (hlast.symm.trans hop) (Option.some_ne_none op).symm
  | some op =>
    have hmem : op ∈ (segment o text).operations := List.mem_of_getLast? hlast
    have hlines := lines_optimize (List.ne_nil_of_mem hmem)
    have hbefore := hseg.lastVisible_eq hlast
    have hafter := hseg.lastVisible_zigzag hlast
    have hturned := Operation.lastVisible_turned (hseg.divided op hmem) (i := (segment o text).operations.length - 1)
    rw [hlines, EndsMarked, hafter, Program.endsInBlocks_iff hlast]
    constructor
    · intro hsafe
      cases hrule : o.trailing with
      | keep =>
        rw [hturned.2 fun hends => hsafe ⟨hrule, hends⟩, ← hbefore]
        exact h
      | sentinel =>
        obtain ⟨l, hl, hmarker⟩ := endsMarked_trailing hrule (List.ne_nil_of_mem hmem) h
        exact ⟨l, by rw [segment, hl, Option.some_or], hmarker⟩
    · rintro ⟨hkeep, hplan, hfooter⟩
      obtain ⟨b, hb, hfirst⟩ := hturned.1 hplan hfooter
      have htrailing : (segment o text).trailing = [] := trailing_segmentLines hkeep
      exact ⟨op, b, rfl, hb, by rw [htrailing, hfirst]; rfl⟩

theorem optimize_endsMarked_footer :
    EndsMarked (Text.lines (optimize {} "N1\nN2\nG54\nX1\nG55\nX2\nM30\n%\n\t")) ∧
    lastVisible (Text.lines (optimize {} "N1\nN2\nG54\nX1\nG55\nX2\n%\n\t")) = some "X1" := by
  have hkept : EndsMarked (Text.lines "N1\nN2\nG54\nX1\nG55\nX2\nM30\n%\n\t") := ⟨"%", by decide, by decide⟩
  have hmoved : EndsMarked (Text.lines "N1\nN2\nG54\nX1\nG55\nX2\n%\n\t") := ⟨"%", by decide, by decide⟩
  have hfooter : ¬ (segment {} "N1\nN2\nG54\nX1\nG55\nX2\nM30\n%\n\t").EndsInBlocks := by
    rintro ⟨op, hop, -, hnil⟩
    have hlast : (segment {} "N1\nN2\nG54\nX1\nG55\nX2\nM30\n%\n\t").operations.getLast?.map Operation.footer =
        some ["M30", "%", "\t"] := by decide
    rw [hop, Option.map_some, hnil] at hlast
    exact absurd hlast (by decide)
  have hlast : (segment {} "N1\nN2\nG54\nX1\nG55\nX2\n%\n\t").operations.getLast? = some
      { ordinal := 2, firstLine := 2, lastLine := 8, header := ["N2"]
        blocks := [⟨"G54", 3, 4, ["G54", "X1"]⟩, ⟨"G55", 5, 8, ["G55", "X2", "%", "\t"]⟩]
        source := ["N2", "G54", "X1", "G55", "X2", "%", "\t"] } := rfl
  obtain ⟨op, b, hop, hb, hvisible⟩ := (optimize_endsMarked {} _ hmoved).2 ⟨rfl, _, hlast, by decide, rfl⟩
  obtain rfl := Option.some.inj (hlast.symm.trans hop)
  obtain rfl := Option.some.inj hb
  exact ⟨(optimize_endsMarked {} _ hkept).1 fun hends => hfooter hends.2, hvisible⟩

/-- Without a footer the marker goes in front of the first block, which is machined behind the end of the tape. -/
theorem marker_before_block :
    EndsMarked (Text.lines "N1\nN2\nG54\nX1\nG55\nX2\n%") ∧
    Text.lines (optimize {} "N1\nN2\nG54\nX1\nG55\nX2\n%") = ["N1", "N2", "G55", "X2", "%", "G54", "X1"] ∧
    ¬ EndsMarked (Text.lines (optimize {} "N1\nN2\nG54\nX1\nG55\nX2\n%")) := by
  have hlines : Text.lines (optimize {} "N1\nN2\nG54\nX1\nG55\nX2\n%") =
      ["N1", "N2", "G55", "X2", "%", "G54", "X1"] := by decide
  refine ⟨⟨"%", by decide, by decide⟩, hlines, ?_⟩
  rw [hlines]
  rintro ⟨l, hl, hmarker⟩
  obtain rfl : "X1" = l := Option.some.inj hl
  exact absurd hmarker (by decide)

end Machining
