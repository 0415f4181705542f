import Mathlib.Data.List.Induction
import Machining.Program.Classify
import Machining.Proofs.Runs

/-!
What the division of an operation is. `Divides` says it of lists of lines alone, and no list of lines has two
divisions. The classifier reads the lines one by one; `Progress.Holds` lists the states it can be in and what each
has stored, and every step keeps that. So classifying gives the one division of the source, with each block's code
and line numbers computed from where its lines stand.
-/

namespace Machining

/-- Whether the line begins a block of an operation that is not in its footer. -/
def selectsOffset (text : String) : Bool :=
  (Line.read text).offsetCode?.isSome && !(Line.read text).isFooterTrigger

def triggersFooter (text : String) : Bool := (Line.read text).isFooterTrigger

theorem triggersFooter_of_selectsOffset {text : String} (h : selectsOffset text = true) :
    triggersFooter text = false := by
  simp only [selectsOffset, Bool.and_eq_true, Bool.not_eq_true'] at h
  exact h.2

/-- A header that selects no offset, one group of lines for each selection, and a footer from a trigger on. Only an
operation with groups has a footer. -/
structure Divides (source header : List String) (groups : List (List String)) (footer : List String) : Prop where
  source_eq : header ++ groups.flatten ++ footer = source
  header_passive : ∀ l ∈ header, selectsOffset l = false
  groups_run : ∀ g ∈ groups, IsRun selectsOffset g
  groups_open : ∀ l ∈ groups.flatten, triggersFooter l = false
  footer_head : ∀ l ∈ footer.head?, triggersFooter l = true
  footer_nil : groups = [] → footer = []

namespace Divides

variable {source header footer : List String} {groups : List (List String)}

theorem nil : Divides [] [] [] [] := by
  constructor <;> simp

theorem head_behind_header (h : Divides source header groups footer) :
    ∀ l ∈ (groups.flatten ++ footer).head?, (!selectsOffset l) = false := by
  intro l hl
  cases groups with
  | nil =>
    rw [h.footer_nil rfl] at hl
    exact absurd hl (by simp)
  | cons g gs =>
    obtain ⟨x, rest, rfl, hx, -⟩ := h.groups_run g List.mem_cons_self
    simp only [List.flatten_cons, List.cons_append, List.head?_cons, Option.mem_def, Option.some.injEq] at hl
    subst hl
    simp [hx]

theorem header_eq_nil_iff {x : String} {rest : List String} (h : Divides (x :: rest) header groups footer) :
    header = [] ↔ selectsOffset x = true := by
  have heq := h.source_eq
  constructor
  · rintro rfl
    have hx := h.head_behind_header x
    rw [List.nil_append] at heq
    simpa [heq] using hx
  · intro hx
    cases header with
    | nil => rfl
    | cons y header =>
      have hy := h.header_passive y List.mem_cons_self
      rw [List.cons_append, List.cons_append, List.cons.injEq] at heq
      rw [heq.1, hx] at hy
      exact absurd hy Bool.true_eq_false.mp

theorem unique {header' footer' : List String} {groups' : List (List String)}
    (h : Divides source header groups footer) (h' : Divides source header' groups' footer') :
    header = header' ∧ groups = groups' ∧ footer = footer' := by
  have hsource : header ++ (groups.flatten ++ footer) = header' ++ (groups'.flatten ++ footer') := by
    rw [← List.append_assoc, ← List.append_assoc, h.source_eq, h'.source_eq]
  obtain ⟨hheader, hrest⟩ := append_stop_inj hsource (fun l hl => by simp [h.header_passive l hl])
    h.head_behind_header (fun l hl => by simp [h'.header_passive l hl]) h'.head_behind_header
  obtain ⟨hflatten, hfooter⟩ := append_stop_inj hrest (p := (!triggersFooter ·))
    (fun l hl => by simp [h.groups_open l hl]) (fun l hl => by simp [h.footer_head l hl])
    (fun l hl => by simp [h'.groups_open l hl]) (fun l hl => by simp [h'.footer_head l hl])
  exact ⟨hheader, flatten_runs_inj hflatten h.groups_run h'.groups_run, hfooter⟩

theorem push_header (h : Divides source header [] []) {text : String} (ht : selectsOffset text = false) :
    Divides (source ++ [text]) (header ++ [text]) [] [] where
  source_eq := by simpa using h.source_eq
  header_passive := List.forall_mem_append.2 ⟨h.header_passive, List.forall_mem_singleton.2 ht⟩
  groups_run := h.groups_run
  groups_open := h.groups_open
  footer_head := h.footer_head
  footer_nil := h.footer_nil

theorem push_group (h : Divides source header groups []) {text : String} (ht : selectsOffset text = true) :
    Divides (source ++ [text]) header (groups ++ [[text]]) [] where
  source_eq := by rw [← h.source_eq]; simp
  header_passive := h.header_passive
  groups_run := List.forall_mem_append.2 ⟨h.groups_run, List.forall_mem_singleton.2 (isRun_singleton ht)⟩
  groups_open := by
    have hopen : triggersFooter text = false := triggersFooter_of_selectsOffset ht
    rw [List.flatten_append, List.flatten_singleton]
    exact List.forall_mem_append.2 ⟨h.groups_open, List.forall_mem_singleton.2 hopen⟩
  footer_head := h.footer_head
  footer_nil := fun _ => rfl

theorem push_line {g : List String} (h : Divides source header (groups ++ [g]) []) {text : String}
    (hs : selectsOffset text = false) (ht : triggersFooter text = false) :
    Divides (source ++ [text]) header (groups ++ [g ++ [text]]) [] where
  source_eq := by rw [← h.source_eq]; simp
  header_passive := h.header_passive
  groups_run := by
    obtain ⟨hgroups, hg⟩ := List.forall_mem_append.1 h.groups_run
    have hrun : IsRun selectsOffset (g ++ [text]) :=
      (hg g List.mem_cons_self).append (List.forall_mem_singleton.2 hs)
    exact List.forall_mem_append.2 ⟨hgroups, List.forall_mem_singleton.2 hrun⟩
  groups_open := by
    have hlines : (groups ++ [g ++ [text]]).flatten = (groups ++ [g]).flatten ++ [text] := by simp
    rw [hlines]
    exact List.forall_mem_append.2 ⟨h.groups_open, List.forall_mem_singleton.2 ht⟩
  footer_head := h.footer_head
  footer_nil := fun _ => rfl

theorem push_footer (h : Divides source header groups footer) (hgroups : groups ≠ []) {text : String}
    (ht : footer = [] → triggersFooter text = true) :
    Divides (source ++ [text]) header groups (footer ++ [text]) where
  source_eq := by rw [← h.source_eq]; simp
  header_passive := h.header_passive
  groups_run := h.groups_run
  groups_open := h.groups_open
  footer_head := by
    cases footer with
    | nil =>
      intro l hl
      have hl : text = l := by simpa using hl
      rw [← hl, ht rfl]
    | cons x footer => exact h.footer_head
  footer_nil := fun hnil => absurd hnil hgroups

theorem reverse (h : Divides source header groups footer) :
    Divides (header ++ groups.reverse.flatten ++ footer) header groups.reverse footer where
  source_eq := rfl
  header_passive := h.header_passive
  groups_run := fun g hg => h.groups_run g (List.mem_reverse.1 hg)
  groups_open := by
    intro l hl
    obtain ⟨g, hg, hlg⟩ := List.mem_flatten.1 hl
    exact h.groups_open l (List.mem_flatten.2 ⟨g, List.mem_reverse.1 hg, hlg⟩)
  footer_head := h.footer_head
  footer_nil := fun hnil => h.footer_nil (List.reverse_eq_nil_iff.1 hnil)

end Divides

def OpenBlock.ofLines (first : Nat) (ls : List String) : OpenBlock :=
  ⟨((Line.read (ls.headD "")).offsetCode?).getD "", first, first + ls.length - 1, ls.toArray⟩

theorem OpenBlock.ofLines_push {first : Nat} {ls : List String} (hls : ls ≠ []) (text : String) :
    ofLines first (ls ++ [text]) =
      { ofLines first ls with lastLine := first + ls.length, lines := ls.toArray.push text } := by
  obtain ⟨x, rest, rfl⟩ := List.exists_cons_of_ne_nil hls
  simp [ofLines]

namespace OffsetBlock

def ofLines (first : Nat) (ls : List String) : OffsetBlock := (OpenBlock.ofLines first ls).close

def chain (first : Nat) : List (List String) → List OffsetBlock
  | [] => []
  | ls :: rest => ofLines first ls :: chain (first + ls.length) rest

theorem map_lines_chain (first : Nat) (groups : List (List String)) :
    (chain first groups).map OffsetBlock.lines = groups := by
  induction groups generalizing first with
  | nil => rfl
  | cons ls rest ih => rw [chain, List.map_cons, ih]; rfl

theorem map_code_chain (first : Nat) (groups : List (List String)) :
    (chain first groups).map OffsetBlock.code =
      groups.map fun ls => ((Line.read (ls.headD "")).offsetCode?).getD "" := by
  induction groups generalizing first with
  | nil => rfl
  | cons ls rest ih => rw [chain, List.map_cons, ih]; rfl

theorem length_chain (first : Nat) (groups : List (List String)) : (chain first groups).length = groups.length := by
  rw [← List.length_map OffsetBlock.lines, map_lines_chain]

theorem chain_append (first : Nat) (groups more : List (List String)) :
    chain first (groups ++ more) = chain first groups ++ chain (first + groups.flatten.length) more := by
  induction groups generalizing first with
  | nil => rfl
  | cons ls rest ih =>
    rw [List.cons_append, chain, chain, ih, List.flatten_cons, List.length_append, Nat.add_assoc]
    rfl

end OffsetBlock

theorem Turn.of_stay {phase : Phase} {text : String} (hs : selectsOffset text = false)
    (ht : phase = .inOffset → triggersFooter text = false) : Turn.of phase (Line.read text) = .stay := by
  simp only [selectsOffset] at hs
  simp only [triggersFooter] at ht
  cases phase <;> cases hc : (Line.read text).offsetCode? <;> cases hf : (Line.read text).isFooterTrigger <;>
    simp_all [Turn.of]

theorem Turn.of_select {phase : Phase} {text : String} (hs : selectsOffset text = true) (hphase : phase ≠ .inFooter) :
    Turn.of phase (Line.read text) = .openBlock (((Line.read text).offsetCode?).getD "") := by
  simp only [selectsOffset] at hs
  cases phase <;> cases hc : (Line.read text).offsetCode? <;> cases hf : (Line.read text).isFooterTrigger <;>
    simp_all [Turn.of]

theorem Turn.of_trigger {text : String} (ht : triggersFooter text = true) :
    Turn.of .inOffset (Line.read text) = .startFooter := by
  simp only [triggersFooter] at ht
  simp only [Turn.of, ht]

theorem Turn.of_inFooter (line : Line) : Turn.of .inFooter line = .stay := rfl

namespace Progress

/-- The states of the classifier, with what has been stored in each; the operation begins on line `first`. -/
inductive Holds (first : Nat) : List String → List (List String) → List String → Progress → Prop
  | beforeOffset (header : List String) : Holds first header [] [] { header := header.toArray }
  | inOffset (header : List String) (groups : List (List String)) (g : List String) :
    Holds first header (groups ++ [g]) []
      { phase := .inOffset
        header := header.toArray
        closed := (OffsetBlock.chain (first + header.length) groups).toArray
        current := some (.ofLines (first + header.length + groups.flatten.length) g) }
  | inFooter (header : List String) (groups : List (List String)) (footer : List String) (hgroups : groups ≠ [])
      (hfooter : footer ≠ []) :
    Holds first header groups footer
      { phase := .inFooter
        header := header.toArray
        closed := (OffsetBlock.chain (first + header.length) groups).toArray
        footer := footer.toArray }

variable {first : Nat} {header footer : List String} {groups : List (List String)} {p : Progress}

theorem Holds.header_eq (h : Holds first header groups footer p) : p.header = header.toArray := by
  cases h <;> rfl

theorem Holds.footer_eq (h : Holds first header groups footer p) : p.footer = footer.toArray := by
  cases h <;> rfl

theorem Holds.blocks_eq (h : Holds first header groups footer p) :
    p.blocks = (OffsetBlock.chain (first + header.length) groups).toArray := by
  cases h with
  | beforeOffset => rfl
  | inOffset groups g =>
    rw [OffsetBlock.chain_append]
    simp [blocks, OffsetBlock.chain, OffsetBlock.ofLines]
  | inFooter => rfl

def Reads (first : Nat) (done : List String) (p : Progress) : Prop :=
  ∃ header groups footer, Divides done header groups footer ∧ Holds first header groups footer p

theorem reads_nil (first : Nat) : Reads first [] {} := ⟨[], [], [], .nil, .beforeOffset []⟩

theorem step_stay {text : String} (ht : Turn.of p.phase (Line.read text) = .stay) (n : Nat) :
    p.step text n = p.store n text := by
  rw [step, ht]
  rfl

theorem step_openBlock {text code : String} (ht : Turn.of p.phase (Line.read text) = .openBlock code) (n : Nat) :
    p.step text n = { p with phase := .inOffset, closed := p.blocks, current := some ⟨code, n, n, #[text]⟩ } := by
  rw [step, ht]
  rfl

theorem step_startFooter {text : String} (ht : Turn.of p.phase (Line.read text) = .startFooter) (n : Nat) :
    p.step text n =
      { p with phase := .inFooter, closed := p.blocks, current := none, footer := p.footer.push text } := by
  rw [step, ht]
  rfl

theorem Holds.step_select (h : Holds first header groups [] p) {text : String} (hs : selectsOffset text = true)
    (hphase : p.phase ≠ .inFooter) :
    Holds first header (groups ++ [[text]]) [] (p.step text (first + header.length + groups.flatten.length)) := by
  rw [step_openBlock (Turn.of_select hs hphase), h.header_eq, h.blocks_eq, h.footer_eq]
  exact .inOffset header groups [text]

theorem reads_step {done : List String} (h : Reads first done p) (text : String) :
    Reads first (done ++ [text]) (p.step text (first + done.length)) := by
  obtain ⟨header, groups, footer, hd, hp⟩ := h
  have hlength : first + done.length = first + header.length + groups.flatten.length + footer.length := by
    rw [← hd.source_eq, List.length_append, List.length_append]
    omega
  rw [hlength]
  by_cases hs : selectsOffset text = true ∧ p.phase ≠ .inFooter
  · have hfooter : footer = [] := by
      cases hp with
      | beforeOffset => rfl
      | inOffset => rfl
      | inFooter => exact absurd rfl hs.2
    subst hfooter
    exact ⟨header, groups ++ [[text]], [], hd.push_group hs.1, hp.step_select hs.1 hs.2⟩
  have hblocks := hp.blocks_eq
  cases hp with
  | beforeOffset =>
    have hs : selectsOffset text = false := by simpa using hs
    refine ⟨header ++ [text], [], [], hd.push_header hs, ?_⟩
    rw [step_stay (Turn.of_stay hs (by simp)), store]
    simpa using Holds.beforeOffset (header ++ [text])
  | inOffset groups g =>
    have hs : selectsOffset text = false := by simpa using hs
    cases ht : triggersFooter text with
    | false =>
      refine ⟨header, groups ++ [g ++ [text]], [], hd.push_line hs ht, ?_⟩
      have hg : g ≠ [] := (hd.groups_run g (by simp)).ne_nil
      rw [step_stay (Turn.of_stay hs fun _ => ht), store]
      convert Holds.inOffset header groups (g ++ [text]) using 1
      rw [OpenBlock.ofLines_push hg]
      simp [OpenBlock.ofLines, Nat.add_assoc]
    | true =>
      refine ⟨header, groups ++ [g], [text], hd.push_footer (by simp) fun _ => ht, ?_⟩
      rw [step_startFooter (Turn.of_trigger ht), hblocks]
      exact .inFooter header (groups ++ [g]) [text] (by simp) (by simp)
  | inFooter groups footer hgroups hfooter =>
    refine ⟨header, groups, footer ++ [text], hd.push_footer hgroups fun h => absurd h hfooter, ?_⟩
    rw [step_stay (Turn.of_inFooter _), store]
    simpa using Holds.inFooter header groups (footer ++ [text]) hgroups (by simp)

theorem run_append (ls : List String) (text : String) :
    run first (ls ++ [text]) = (run first ls).step text (first + ls.length) := by
  rw [run, List.zipIdx_append, List.foldl_append]
  rfl

theorem reads_run (first : Nat) (ls : List String) : Reads first ls (run first ls) := by
  induction ls using List.reverseRecOn with
  | nil => exact reads_nil first
  | append_singleton ls text ih =>
    rw [run_append]
    exact reads_step ih text

end Progress

namespace Operation

variable {op : Operation} {header footer : List String} {groups : List (List String)}

theorem classify_eq (h : Divides op.source header groups footer) :
    op.classify =
      { op with header, blocks := OffsetBlock.chain (op.firstLine + header.length) groups, footer } := by
  obtain ⟨header', groups', footer', hd, hp⟩ := Progress.reads_run op.firstLine op.source
  obtain ⟨rfl, rfl, rfl⟩ := hd.unique h
  rw [classify, withParts, hp.header_eq, hp.blocks_eq, hp.footer_eq]

end Operation

theorem exists_divides (source : List String) : ∃ header groups footer, Divides source header groups footer := by
  obtain ⟨header, groups, footer, hd, -⟩ := Progress.reads_run 0 source
  exact ⟨header, groups, footer, hd⟩

@[simp] theorem Operation.ordinal_classify (op : Operation) : op.classify.ordinal = op.ordinal := rfl

@[simp] theorem Operation.firstLine_classify (op : Operation) : op.classify.firstLine = op.firstLine := rfl

@[simp] theorem Operation.lastLine_classify (op : Operation) : op.classify.lastLine = op.lastLine := rfl

@[simp] theorem Operation.source_classify (op : Operation) : op.classify.source = op.source := rfl

theorem Operation.classify_classify (op : Operation) : op.classify.classify = op.classify := rfl

theorem Operation.exists_groups {op : Operation} (h : op.classify = op) :
    ∃ groups, Divides op.source op.header groups op.footer ∧
      op.blocks = OffsetBlock.chain (op.firstLine + op.header.length) groups := by
  obtain ⟨header, groups, footer, hd⟩ := exists_divides op.source
  have hparts := classify_eq hd
  rw [h] at hparts
  obtain rfl : op.header = header := congrArg Operation.header hparts
  obtain rfl : op.footer = footer := congrArg Operation.footer hparts
  exact ⟨groups, hd, congrArg Operation.blocks hparts⟩

theorem Operation.isPartitioned_iff {op : Operation} : op.isPartitioned = true ↔ op.lines = op.source := beq_iff_eq

theorem Operation.divides {op : Operation} (h : op.classify = op) :
    Divides op.source op.header (op.blocks.map OffsetBlock.lines) op.footer := by
  obtain ⟨groups, hd, hblocks⟩ := exists_groups h
  rwa [hblocks, OffsetBlock.map_lines_chain]

theorem Operation.lines_eq_source {op : Operation} (h : op.classify = op) : op.lines = op.source :=
  (divides h).source_eq

end Machining
