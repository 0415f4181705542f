import Mathlib.Data.List.Infix
import Machining.Proofs.DividedOperations

/-!
The phase of the classifier and its open block. Both are stored, and a line can change either, but they never disagree:
`Progress.Ordered` lists the states there are, between two lines and where a line is stored, and in none of them is a
line to go to an open block that is missing. Each line is stored behind all that were stored before it, so the phases in
which the lines are stored follow the parts of the operation: header, blocks, footer.
-/

namespace Machining

/-- The phase behind these lines: a selection ends the header, and a trigger behind the first one starts the footer. -/
def Phase.behind (done : List String) : Phase :=
  if done.all (!selectsOffset ·) then .beforeOffset
  else if (done.dropWhile (!selectsOffset ·)).any triggersFooter then .inFooter
  else .inOffset

theorem Divides.behind_eq {done header footer : List String} {groups : List (List String)}
    (h : Divides done header groups footer) :
    Phase.behind done = if groups = [] then .beforeOffset else if footer = [] then .inOffset else .inFooter := by
  have hpassive : header.all (!selectsOffset ·) = true := by simpa using h.header_passive
  have hbehind : done.dropWhile (!selectsOffset ·) = groups.flatten ++ footer := by
    rw [← h.source_eq, List.append_assoc]
    exact dropWhile_append_stop (List.all_eq_true.1 hpassive) h.head_behind_header
  cases groups with
  | nil =>
    have hdone : done = header := by simpa [h.footer_nil rfl] using h.source_eq.symm
    rw [Phase.behind, hdone, if_pos hpassive, if_pos rfl]
  | cons g gs =>
    obtain ⟨x, rest, rfl, hx, -⟩ := h.groups_run g List.mem_cons_self
    have hopened : done.all (!selectsOffset ·) = false := by
      rw [← h.source_eq]
      simp [hx]
    have hopen : ((x :: rest) :: gs).flatten.any triggersFooter = false :=
      List.any_eq_false.2 fun l hl => by simp [h.groups_open l hl]
    rw [Phase.behind, hopened, hbehind, List.any_append, hopen, Bool.false_or, if_neg (List.cons_ne_nil _ gs)]
    cases footer with
    | nil => rfl
    | cons y footer =>
      have htrigger : triggersFooter y = true := h.footer_head y rfl
      simp [htrigger]

namespace Progress

variable {first : Nat} {header footer done : List String} {groups : List (List String)} {p : Progress}

/-- The state in which a line is stored, with what the line does to the phase already done. -/
def turned (p : Progress) (text : String) (n : Nat) : Progress := p.turn n (Turn.of p.phase (Line.read text))

/-- A line would go to the open block, and there is none. -/
def IsAdrift (p : Progress) : Prop := p.phase = .inOffset ∧ p.current = none

/-- The states of the classifier. No block is there before the phase of the blocks, and no footer before its own. -/
inductive Ordered : Progress → Prop
  | beforeOffset (header : Array String) : Ordered { header }
  | inOffset (header : Array String) (closed : Array OffsetBlock) (b : OpenBlock) :
    Ordered { phase := .inOffset, header, closed, current := some b }
  | inFooter (header : Array String) (closed : Array OffsetBlock) (footer : Array String) :
    Ordered { phase := .inFooter, header, closed, footer }

theorem Ordered.open_iff (h : p.Ordered) : p.current.isSome = true ↔ p.phase = .inOffset := by
  cases h <;> simp

theorem Ordered.not_isAdrift (h : p.Ordered) : ¬p.IsAdrift := by
  rintro ⟨hphase, hnone⟩
  have hopen := h.open_iff.2 hphase
  rw [hnone] at hopen
  exact absurd hopen Bool.false_ne_true

theorem Ordered.turned (h : p.Ordered) (text : String) (n : Nat) : (p.turned text n).Ordered := by
  unfold Progress.turned
  cases h with
  | beforeOffset header =>
    -- a footer in front of all blocks would be in order too; that none starts there is a matter of the division
    cases Turn.of .beforeOffset (Line.read text) with
    | stay => exact .beforeOffset header
    | openBlock code => exact .inOffset header _ _
    | startFooter => exact .inFooter header _ _
  | inOffset header closed b =>
    cases Turn.of .inOffset (Line.read text) with
    | stay => exact .inOffset header closed b
    | openBlock code => exact .inOffset header _ _
    | startFooter => exact .inFooter header _ _
  | inFooter header closed footer => exact .inFooter header closed footer

theorem Ordered.store (h : p.Ordered) (n : Nat) (text : String) : (p.store n text).Ordered := by
  cases h with
  | beforeOffset header => exact .beforeOffset (header.push text)
  | inOffset header closed b => exact .inOffset header closed _
  | inFooter header closed footer => exact .inFooter header closed (footer.push text)

theorem step_eq_store_turned (p : Progress) (text : String) (n : Nat) :
    p.step text n = (p.turned text n).store n text := rfl

theorem Ordered.step (h : p.Ordered) (text : String) (n : Nat) : (p.step text n).Ordered := by
  rw [step_eq_store_turned]
  exact (h.turned text n).store n text

theorem ordered_run (first : Nat) (ls : List String) : (run first ls).Ordered := by
  induction ls using List.reverseRecOn with
  | nil => exact .beforeOffset #[]
  | append_singleton ls text ih =>
    rw [run_append]
    exact ih.step text (first + ls.length)

def openLines (p : Progress) : List String := p.current.toList.flatMap fun b => b.lines.toList

def blockLines (p : Progress) : List String := p.closed.toList.flatMap OffsetBlock.lines ++ p.openLines

def stored (p : Progress) : List (Phase × String) :=
  p.header.toList.map (.beforeOffset, ·) ++ p.blockLines.map (.inOffset, ·) ++ p.footer.toList.map (.inFooter, ·)

theorem map_fst_stored (p : Progress) :
    p.stored.map Prod.fst =
      List.replicate p.header.size .beforeOffset ++ List.replicate p.blockLines.length .inOffset ++
        List.replicate p.footer.size .inFooter := by
  simp [stored, Function.comp_def, List.map_const']

theorem map_snd_stored (p : Progress) :
    p.stored.map Prod.snd =
      p.header.toList ++ p.closed.toList.flatMap OffsetBlock.lines ++ p.openLines ++ p.footer.toList := by
  simp [stored, blockLines, Function.comp_def]

theorem flatMap_lines_blocks (p : Progress) : p.blocks.toList.flatMap OffsetBlock.lines = p.blockLines := by
  obtain ⟨phase, header, closed, current, footer⟩ := p
  cases current with
  | none => simp [blocks, blockLines, openLines]
  | some b => simp [blocks, blockLines, openLines, OpenBlock.close]

theorem blockLines_of_closed {q : Progress} (hclosed : q.closed = p.blocks) (hopen : q.openLines = []) :
    q.blockLines = p.blockLines := by
  rw [blockLines, hclosed, hopen, List.append_nil, flatMap_lines_blocks]

theorem stored_turn (p : Progress) (n : Nat) (t : Turn) : (p.turn n t).stored = p.stored := by
  cases t with
  | stay => rfl
  | openBlock code =>
    have hblocks : (p.turn n (.openBlock code)).blockLines = p.blockLines := blockLines_of_closed rfl rfl
    rw [stored, hblocks]
    rfl
  | startFooter =>
    have hblocks : (p.turn n .startFooter).blockLines = p.blockLines := blockLines_of_closed rfl rfl
    rw [stored, hblocks]
    rfl

theorem Ordered.stored_store (h : p.Ordered) (n : Nat) (text : String) :
    (p.store n text).stored = p.stored ++ [(p.phase, text)] := by
  cases h <;> simp [Progress.store, stored, blockLines, openLines]

theorem Ordered.stored_step (h : p.Ordered) (text : String) (n : Nat) :
    (p.step text n).stored = p.stored ++ [((p.step text n).phase, text)] := by
  rw [step_eq_store_turned, (h.turned text n).stored_store, phase_store, Progress.turned, stored_turn]

def phases (first : Nat) (ls : List String) : List Phase := ls.inits.tail.map fun done => (run first done).phase

theorem phases_append (first : Nat) (ls : List String) (text : String) :
    phases first (ls ++ [text]) = phases first ls ++ [(run first (ls ++ [text])).phase] := by
  have hinits : ls.inits ≠ [] := List.ne_nil_of_mem ((List.mem_inits ls ls).2 List.prefix_rfl)
  rw [phases, List.inits_append, List.tail_append_of_ne_nil hinits, List.map_append]
  rfl

theorem stored_run_append (first : Nat) (ls : List String) (text : String) :
    (run first (ls ++ [text])).stored = (run first ls).stored ++ [((run first (ls ++ [text])).phase, text)] := by
  rw [run_append]
  exact (ordered_run first ls).stored_step text (first + ls.length)

theorem map_fst_stored_run (first : Nat) (ls : List String) :
    (run first ls).stored.map Prod.fst = phases first ls := by
  induction ls using List.reverseRecOn with
  | nil => rfl
  | append_singleton ls text ih =>
    rw [stored_run_append, phases_append, List.map_append, ih]
    rfl

theorem map_snd_stored_run (first : Nat) (ls : List String) : (run first ls).stored.map Prod.snd = ls := by
  induction ls using List.reverseRecOn with
  | nil => rfl
  | append_singleton ls text ih =>
    rw [stored_run_append, List.map_append, ih]
    rfl

theorem Holds.phase_eq (h : Holds first header groups footer p) (hd : Divides done header groups footer) :
    p.phase = .behind done := by
  rw [hd.behind_eq]
  cases h with
  | beforeOffset => rfl
  | inOffset groups g => simp
  | inFooter groups footer hgroups hfooter => simp [hgroups, hfooter]

theorem Holds.open_lines (h : Holds first header groups footer p) (hd : Divides done header groups footer) :
    ∀ b ∈ p.current, b.lines ≠ #[] := by
  cases h with
  | beforeOffset => simp
  | inOffset groups g =>
    have hg : g ≠ [] := (hd.groups_run g (by simp)).ne_nil
    simpa [OpenBlock.ofLines] using hg
  | inFooter => simp

structure Consistent (done : List String) (p : Progress) : Prop where
  phase_eq : p.phase = .behind done
  open_iff : p.current.isSome = true ↔ p.phase = .inOffset
  open_lines : ∀ b ∈ p.current, b.lines ≠ #[]
  stored_eq : p.header.toList ++ p.closed.toList.flatMap OffsetBlock.lines ++ p.openLines ++ p.footer.toList = done

theorem consistent_run (first : Nat) (ls : List String) : (run first ls).Consistent ls := by
  obtain ⟨header, groups, footer, hd, hp⟩ := reads_run first ls
  constructor
  · exact hp.phase_eq hd
  · exact (ordered_run first ls).open_iff
  · exact hp.open_lines hd
  · rw [← map_snd_stored, map_snd_stored_run]

end Progress

namespace Operation

theorem phases_classify (op : Operation) :
    Progress.phases op.firstLine op.source =
      List.replicate op.classify.header.length .beforeOffset ++
        List.replicate op.classify.blockLines.length .inOffset ++
        List.replicate op.classify.footer.length .inFooter := by
  have hblocks : op.classify.blockLines = (Progress.run op.firstLine op.source).blockLines :=
    Progress.flatMap_lines_blocks (Progress.run op.firstLine op.source)
  rw [← Progress.map_fst_stored_run, Progress.map_fst_stored, hblocks]
  rfl

theorem IsDivided.blockLines_ne_nil {number : Nat → Nat} {op : Operation} (h : op.IsDivided number) (hfooter : op.footer ≠ []) :
    op.blockLines ≠ [] := by
  have hblocks : op.blocks ≠ [] := fun hnil => hfooter (h.footer_nil hnil)
  obtain ⟨b, bs, hb⟩ := List.exists_cons_of_ne_nil hblocks
  obtain ⟨opening, rest, hlines, -⟩ := h.blocks_selected b (hb ▸ List.mem_cons_self)
  simp [blockLines, hb, hlines]

/-- Behind any of its lines the classifier is consistent, no line is stored adrift, and the phases only go forward: one
for each line of the header, then of the blocks, then of the footer, which needs a block in front of it. -/
theorem phases_forward (op : Operation) :
    (∀ done, done <+: op.source → (Progress.run op.firstLine done).Consistent done) ∧
    (∀ done text, done ++ [text] <+: op.source →
      Progress.run op.firstLine (done ++ [text]) =
          ((Progress.run op.firstLine done).turned text (op.firstLine + done.length)).store
            (op.firstLine + done.length) text ∧
        ¬((Progress.run op.firstLine done).turned text (op.firstLine + done.length)).IsAdrift) ∧
    Progress.phases op.firstLine op.source =
      List.replicate op.classify.header.length .beforeOffset ++
        List.replicate op.classify.blockLines.length .inOffset ++
        List.replicate op.classify.footer.length .inFooter ∧
    (op.classify.footer ≠ [] → op.classify.blockLines ≠ []) := by
  refine ⟨fun done _ => Progress.consistent_run op.firstLine done, fun done text _ => ?_, phases_classify op, ?_⟩
  · have hordered := Progress.ordered_run op.firstLine done
    exact ⟨Progress.run_append done text, (hordered.turned text (op.firstLine + done.length)).not_isAdrift⟩
  · exact (isDivided_classify op).blockLines_ne_nil

/-- The trigger in the first line starts nothing, and behind the one in the fifth no selection counts. -/
theorem phases_forward_footer :
    ["M9", "G54"] ++ ["G55"] <+: ["M9", "G54", "G55", "X1", "G54 M9", "G55"] ∧
    (Progress.run 7 ["M9", "G54", "G55"]).Consistent ["M9", "G54", "G55"] ∧
    ¬((Progress.run 7 ["M9", "G54"]).turned "G55" 9).IsAdrift ∧
    Progress.phases 7 ["M9", "G54", "G55", "X1", "G54 M9", "G55"] =
      [.beforeOffset, .inOffset, .inOffset, .inOffset, .inFooter, .inFooter] ∧
    (classify { firstLine := 7, source := ["M9", "G54", "G55", "X1", "G54 M9", "G55"] }).footer ≠ [] ∧
    (classify { firstLine := 7, source := ["M9", "G54", "G55", "X1", "G54 M9", "G55"] }).blockLines ≠ [] := by
  have hread : ["M9", "G54"] ++ ["G55"] <+: ["M9", "G54", "G55", "X1", "G54 M9", "G55"] := by decide
  have hfooter : (classify { firstLine := 7, source := ["M9", "G54", "G55", "X1", "G54 M9", "G55"] }).footer ≠ [] := by
    decide
  obtain ⟨hconsistent, hstores, hphases, hblocks⟩ :=
    phases_forward { firstLine := 7, source := ["M9", "G54", "G55", "X1", "G54 M9", "G55"] }
  refine ⟨hread, hconsistent _ hread, (hstores _ _ hread).2, ?_, hfooter, hblocks hfooter⟩
  rw [hphases]
  decide

end Operation

end Machining
