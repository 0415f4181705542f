import Machining.Proofs.Division

/-!
Operations whose parts fit their source. `Operation.IsDivided` says it of an operation as it stands, without the
classifier: header, blocks and footer are the source, cut at every selection and at the first footer trigger behind one,
and each block has the code and the numbers of its own lines. Classifying an operation makes it so, and there is no other
way to do it. What the parts were before does not matter. The classifier never looks at a line number, so one run
stands for all ways to number the lines: its blocks get their numbers afterwards.
-/

namespace Machining

/-! ### Numbering the lines afterwards -/

def OpenBlock.renumber (number : Nat → Nat) (b : OpenBlock) : OpenBlock :=
  { b with firstLine := number b.firstLine, lastLine := number b.lastLine }

def OffsetBlock.renumber (number : Nat → Nat) (b : OffsetBlock) : OffsetBlock :=
  { b with firstLine := number b.firstLine, lastLine := number b.lastLine }

namespace Progress

def renumber (number : Nat → Nat) (p : Progress) : Progress :=
  { p with closed := p.closed.map (OffsetBlock.renumber number), current := p.current.map (OpenBlock.renumber number) }

theorem blocks_renumber (number : Nat → Nat) (p : Progress) :
    (p.renumber number).blocks = p.blocks.map (OffsetBlock.renumber number) := by
  cases hcurrent : p.current with
  | none => simp [blocks, renumber, hcurrent]
  | some b => simp [blocks, renumber, hcurrent, OpenBlock.close, OpenBlock.renumber, OffsetBlock.renumber]

theorem turn_renumber (number : Nat → Nat) (p : Progress) (n : Nat) (t : Turn) :
    (p.renumber number).turn (number n) t = (p.turn n t).renumber number := by
  cases t with
  | stay => rfl
  | openBlock code =>
    rw [turn, blocks_renumber]
    rfl
  | startFooter =>
    rw [turn, blocks_renumber]
    rfl

theorem store_renumber (number : Nat → Nat) (p : Progress) (n : Nat) (text : String) :
    (p.renumber number).store (number n) text = (p.store n text).renumber number := by
  obtain ⟨phase, header, closed, current, footer⟩ := p
  cases phase <;> cases current <;> rfl

theorem step_renumber (number : Nat → Nat) (p : Progress) (text : String) (n : Nat) :
    (p.renumber number).step text (number n) = (p.step text n).renumber number := by
  rw [step, step, ← store_renumber, ← turn_renumber]
  rfl

theorem runBy_append (number : Nat → Nat) (ls : List String) (text : String) :
    runBy number (ls ++ [text]) = (runBy number ls).step text (number ls.length) := by
  simp [runBy, List.zipIdx_append]

theorem runBy_eq_renumber (number : Nat → Nat) (ls : List String) :
    runBy number ls = (run 0 ls).renumber number := by
  induction ls using List.reverseRecOn with
  | nil => simp [runBy, run, renumber]
  | append_singleton ls text ih => rw [runBy_append, ih, run_append, Nat.zero_add, step_renumber]

theorem run_eq_runBy (first : Nat) (ls : List String) : run first ls = runBy (first + ·) ls := by
  induction ls using List.reverseRecOn with
  | nil => rfl
  | append_singleton ls text ih => rw [run_append, runBy_append, ih]

theorem runBy_congr {number number' : Nat → Nat} {ls : List String} (h : ∀ i < ls.length, number i = number' i) :
    runBy number ls = runBy number' ls := by
  induction ls using List.reverseRecOn with
  | nil => rfl
  | append_singleton ls text ih =>
    rw [List.length_append, List.length_singleton] at h
    have hfront : runBy number ls = runBy number' ls := ih fun i hi => h i (Nat.lt_succ_of_lt hi)
    have hlast : number ls.length = number' ls.length := h ls.length (Nat.lt_succ_self ls.length)
    rw [runBy_append, runBy_append, hfront, hlast]

end Progress

/-! ### Blocks with the numbers of their lines -/

namespace OffsetBlock

variable {number : Nat → Nat} {first place : Nat} {b : OffsetBlock} {bs : List OffsetBlock}

/-- The first line selects the offset of the block. No other line selects one or triggers a footer. -/
def IsSelected (b : OffsetBlock) : Prop :=
  ∃ opening rest, b.lines = opening :: rest ∧ selectsOffset opening = true ∧
    (Line.read opening).offsetCode? = some b.code ∧
    ∀ l ∈ rest, (Line.read l).offsetCode? = none ∧ triggersFooter l = false

/-- The blocks have the numbers of their first and last lines, if the first line of all has place `place`. -/
def Placed (number : Nat → Nat) (place : Nat) (bs : List OffsetBlock) : Prop :=
  ∀ before b after, bs = before ++ b :: after →
    b.firstLine = number (place + (before.flatMap lines).length) ∧
    b.lastLine = number (place + (before.flatMap lines).length + (b.lines.length - 1))

theorem placed_nil (number : Nat → Nat) (place : Nat) : Placed number place [] := by
  intro before b after hsplit
  simp at hsplit

theorem placed_cons_iff :
    Placed number place (b :: bs) ↔
      b.firstLine = number place ∧ b.lastLine = number (place + (b.lines.length - 1)) ∧
        Placed number (place + b.lines.length) bs := by
  constructor
  · intro h
    have hb := h [] b bs rfl
    refine ⟨by simpa using hb.1, by simpa using hb.2, ?_⟩
    intro before c after hsplit
    have hc := h (b :: before) c after (by rw [hsplit, List.cons_append])
    simpa only [List.flatMap_cons, List.length_append, ← Nat.add_assoc] using hc
  · rintro ⟨hfirst, hlast, hbs⟩ before c after hsplit
    cases before with
    | nil =>
      obtain ⟨rfl, rfl⟩ := List.cons.inj hsplit
      exact ⟨by simpa using hfirst, by simpa using hlast⟩
    | cons d before =>
      obtain ⟨rfl, hrest⟩ := List.cons.inj hsplit
      have hc := hbs before c after hrest
      simpa only [List.flatMap_cons, List.length_append, ← Nat.add_assoc] using hc

theorem IsSelected.renumber_ofLines_eq_iff (h : b.IsSelected) :
    (ofLines place b.lines).renumber number = b ↔
      b.firstLine = number place ∧ b.lastLine = number (place + (b.lines.length - 1)) := by
  obtain ⟨opening, rest, hlines, -, hcode, -⟩ := h
  obtain ⟨code, firstLine, lastLine, ls⟩ := b
  subst hlines
  simp [ofLines, OpenBlock.ofLines, OpenBlock.close, renumber, hcode, eq_comm]

theorem renumber_chain_eq_iff (hbs : ∀ b ∈ bs, b.IsSelected) :
    (chain place (bs.map lines)).map (renumber number) = bs ↔ Placed number place bs := by
  induction bs generalizing place with
  | nil => simp [chain, placed_nil]
  | cons b bs ih =>
    obtain ⟨hb, hbs⟩ := List.forall_mem_cons.1 hbs
    rw [List.map_cons, chain, List.map_cons, List.cons.injEq, hb.renumber_ofLines_eq_iff, ih hbs, placed_cons_iff,
      and_assoc]

theorem isSelected_ofLines {g : List String} (hrun : IsRun selectsOffset g)
    (hopen : ∀ l ∈ g, triggersFooter l = false) : (ofLines first g).IsSelected := by
  obtain ⟨opening, rest, rfl, hopening, hrest⟩ := hrun
  have hcode : ∃ code, (Line.read opening).offsetCode? = some code := by
    simp only [selectsOffset, Bool.and_eq_true] at hopening
    exact Option.isSome_iff_exists.1 hopening.1
  obtain ⟨code, hcode⟩ := hcode
  refine ⟨opening, rest, rfl, hopening, by simp [ofLines, OpenBlock.ofLines, OpenBlock.close, hcode], ?_⟩
  intro l hl
  have hpassive := hrest l hl
  have htrigger := hopen l (List.mem_cons_of_mem opening hl)
  simp only [triggersFooter] at htrigger
  simp only [selectsOffset, htrigger, Bool.not_false, Bool.and_true, Option.isSome_eq_false_iff,
    Option.isNone_iff_eq_none] at hpassive
  exact ⟨hpassive, htrigger⟩

theorem IsSelected.isRun (h : b.IsSelected) : IsRun selectsOffset b.lines := by
  obtain ⟨opening, rest, hlines, hopening, -, hrest⟩ := h
  rw [hlines]
  apply isRun_cons hopening
  intro l hl
  simp [selectsOffset, (hrest l hl).1]

theorem IsSelected.triggersFooter_eq_false (h : b.IsSelected) {l : String} (hl : l ∈ b.lines) :
    triggersFooter l = false := by
  obtain ⟨opening, rest, hlines, hopening, -, hrest⟩ := h
  rw [hlines] at hl
  rcases List.mem_cons.1 hl with rfl | hl
  · exact triggersFooter_of_selectsOffset hopening
  · exact (hrest l hl).2

theorem isSelected_of_mem_chain {gs : List (List String)} (hruns : ∀ g ∈ gs, IsRun selectsOffset g)
    (hopen : ∀ l ∈ gs.flatten, triggersFooter l = false) (hb : b ∈ chain first gs) : b.IsSelected := by
  induction gs generalizing first with
  | nil => exact absurd hb List.not_mem_nil
  | cons g gs ih =>
    obtain ⟨hg, hgs⟩ := List.forall_mem_cons.1 hruns
    rw [List.flatten_cons] at hopen
    obtain ⟨hopen, hrest⟩ := List.forall_mem_append.1 hopen
    rcases List.mem_cons.1 hb with rfl | hb
    · exact isSelected_ofLines hg hopen
    · exact ih hgs hrest hb

theorem IsSelected.renumber (h : b.IsSelected) (number : Nat → Nat) : (b.renumber number).IsSelected := h

theorem map_lines_renumber (number : Nat → Nat) (bs : List OffsetBlock) :
    (bs.map (renumber number)).map lines = bs.map lines := by
  rw [List.map_map]
  rfl

end OffsetBlock

/-! ### Divided operations -/

namespace Operation

variable {op q : Operation} {number number' : Nat → Nat}

/-- Header, blocks and footer are what a division of the source has to be, and the lines have these numbers. -/
structure IsDivided (number : Nat → Nat) (op : Operation) : Prop where
  partitioned : op.isPartitioned = true
  header_passive : ∀ l ∈ op.header, selectsOffset l = false
  blocks_selected : ∀ b ∈ op.blocks, b.IsSelected
  blocks_placed : OffsetBlock.Placed number op.header.length op.blocks
  footer_head : ∀ l ∈ op.footer.head?, triggersFooter l = true
  footer_nil : op.blocks = [] → op.footer = []

theorem IsDivided.divides (h : op.IsDivided number) :
    Divides op.source op.header (op.blocks.map OffsetBlock.lines) op.footer where
  source_eq := isPartitioned_iff.1 h.partitioned
  header_passive := h.header_passive
  groups_run := List.forall_mem_map.2 fun b hb => (h.blocks_selected b hb).isRun
  groups_open := by
    intro l hl
    obtain ⟨b, hb, hl⟩ := List.mem_flatMap.1 hl
    exact (h.blocks_selected b hb).triggersFooter_eq_false hl
  footer_head := h.footer_head
  footer_nil := fun hnil => h.footer_nil (List.map_eq_nil_iff.1 hnil)

theorem classifyBy_eq {header footer : List String} {groups : List (List String)}
    (h : Divides op.source header groups footer) :
    op.classifyBy number =
      { op with
        header
        blocks := (OffsetBlock.chain header.length groups).map (OffsetBlock.renumber number)
        footer } := by
  obtain ⟨header', groups', footer', hd, hp⟩ := Progress.reads_run 0 op.source
  obtain ⟨rfl, rfl, rfl⟩ := hd.unique h
  rw [classifyBy, Progress.runBy_eq_renumber, withParts, Progress.blocks_renumber, hp.blocks_eq]
  simp [Progress.renumber, hp.header_eq, hp.footer_eq]

theorem isDivided_classifyBy (number : Nat → Nat) (op : Operation) : (op.classifyBy number).IsDivided number := by
  obtain ⟨header, groups, footer, hd⟩ := exists_divides op.source
  rw [classifyBy_eq hd]
  have hmap : ((OffsetBlock.chain header.length groups).map (OffsetBlock.renumber number)).map OffsetBlock.lines =
      groups := by rw [OffsetBlock.map_lines_renumber, OffsetBlock.map_lines_chain]
  have hselected : ∀ b ∈ (OffsetBlock.chain header.length groups).map (OffsetBlock.renumber number), b.IsSelected :=
    List.forall_mem_map.2 fun b hb =>
      (OffsetBlock.isSelected_of_mem_chain hd.groups_run hd.groups_open hb).renumber number
  constructor
  · rw [isPartitioned_iff, lines, blockLines, List.flatMap_def, hmap]
    exact hd.source_eq
  · exact hd.header_passive
  · exact hselected
  · rw [← OffsetBlock.renumber_chain_eq_iff hselected, hmap]
  · exact hd.footer_head
  · intro hnil
    have hgroups : groups = [] := hmap.symm.trans (congrArg (List.map OffsetBlock.lines) hnil)
    exact hd.footer_nil hgroups

theorem IsDivided.classifyBy_eq (h : op.IsDivided number) : op.classifyBy number = op := by
  rw [Operation.classifyBy_eq h.divides, (OffsetBlock.renumber_chain_eq_iff h.blocks_selected).2 h.blocks_placed]

theorem eq_classifyBy_iff (number : Nat → Nat) (op q : Operation) :
    q = op.classifyBy number ↔
      q.IsDivided number ∧ { q with header := op.header, blocks := op.blocks, footer := op.footer } = op := by
  constructor
  · rintro rfl
    exact ⟨isDivided_classifyBy number op, rfl⟩
  · rintro ⟨hq, hop⟩
    rw [← hop]
    exact hq.classifyBy_eq.symm

theorem classifyBy_congr (h : ∀ i < op.source.length, number i = number' i) :
    op.classifyBy number = op.classifyBy number' := by
  rw [classifyBy, Progress.runBy_congr h, classifyBy]

theorem classify_eq_classifyBy (op : Operation) : op.classify = op.classifyBy (op.firstLine + ·) := by
  rw [classify, Progress.run_eq_runBy, classifyBy]

theorem isDivided_classify (op : Operation) : op.classify.IsDivided (op.firstLine + ·) := by
  rw [classify_eq_classifyBy]
  exact isDivided_classifyBy (op.firstLine + ·) op

theorem classifyWrapped_eq_classifyBy (h : ∀ i < op.source.length, op.firstLine + i < lineLimit) :
    op.classifyWrapped = op.classifyBy (op.firstLine + ·) :=
  classifyBy_congr fun i hi => Nat.mod_eq_of_lt (h i hi)

/-- Classifying an operation gives the one operation that is divided and has the same source, the same lines and the
same heading, whatever its header, blocks and footer were before. Its line numbers are sums of machine words, which are
the true sums as long as none of these reaches the limit. -/
theorem eq_classifyWrapped_iff (op q : Operation) :
    (q = op.classifyWrapped ↔
      q.IsDivided (wrappedSum op.firstLine) ∧
        { q with header := op.header, blocks := op.blocks, footer := op.footer } = op) ∧
    ((∀ i < op.source.length, op.firstLine + i < lineLimit) →
      op.classifyWrapped = op.classify ∧
      (q = op.classifyWrapped ↔
        q.IsDivided (op.firstLine + ·) ∧
          { q with header := op.header, blocks := op.blocks, footer := op.footer } = op)) := by
  refine ⟨eq_classifyBy_iff (wrappedSum op.firstLine) op q, fun hfits => ?_⟩
  rw [classifyWrapped_eq_classifyBy hfits]
  exact ⟨(classify_eq_classifyBy op).symm, eq_classifyBy_iff (op.firstLine + ·) op q⟩

/-- Behind the last line number of all there is line 0. -/
theorem classifyWrapped_limit :
    (classifyWrapped { firstLine := lineLimit - 1, source := ["N1", "G54"] }).IsDivided (wrappedSum (lineLimit - 1)) ∧
    (classifyWrapped { firstLine := lineLimit - 1, source := ["N1", "G54"] }).blocks = [⟨"G54", 0, 0, ["G54"]⟩] ∧
    (∀ i < ["N1", "G54"].length, lineLimit - 2 + i < lineLimit) ∧
    (classifyWrapped { firstLine := lineLimit - 2, source := ["N1", "G54"] }).IsDivided (lineLimit - 2 + ·) ∧
    (classifyWrapped { firstLine := lineLimit - 2, source := ["N1", "G54"] }).blocks =
      [⟨"G54", lineLimit - 1, lineLimit - 1, ["G54"]⟩] := by
  have hfits : ∀ i < ["N1", "G54"].length, lineLimit - 2 + i < lineLimit := by decide
  obtain ⟨hwraps, -⟩ := eq_classifyWrapped_iff { firstLine := lineLimit - 1, source := ["N1", "G54"] } _
  obtain ⟨-, hsums⟩ := eq_classifyWrapped_iff { firstLine := lineLimit - 2, source := ["N1", "G54"] } _
  exact ⟨(hwraps.1 rfl).1, by decide, hfits, ((hsums hfits).2.1 rfl).1, by decide⟩

end Operation

end Machining
