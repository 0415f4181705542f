import Mathlib.Data.List.Induction
import Machining.Proofs.Closing

/-!
Dividing a text line by line, with the lines counted on the way. A boundary closes the operation that is open and opens
another; each line goes to the open operation, whose last line it becomes, or to the leading lines. At the end the
operation still open is closed too, with the sentinel rule after its closing lines are cut off. `Reading.Holds` says
what has been stored after some lines, every line keeps that, and so reading ends in the program of `segmentLines`.
-/

namespace Machining

variable {rule : BoundaryRule}

structure Reading where
  leading : List String := []
  closed : List Operation := []
  current : Option Operation := none

namespace Operation

def push (text : String) (n : Nat) (op : Operation) : Operation :=
  let heading := Heading.add ⟨op.name, op.tool, op.toolDescription⟩ (Line.read text)
  { op with
    name := heading.name
    tool := heading.tool
    toolDescription := heading.toolDescription
    lastLine := n
    source := op.source ++ [text] }

theorem push_opened (text : String) (n : Nat) :
    push text n { ordinal := (Line.read text).ordinal, firstLine := n } = ofLines n [text] := rfl

theorem push_ofLines {first : Nat} {g : List String} (hg : g ≠ []) (text : String) :
    push text (first + g.length) (ofLines first g) = ofLines first (g ++ [text]) := by
  obtain ⟨x, rest, rfl⟩ := List.exists_cons_of_ne_nil hg
  simp [push, ofLines, Heading.ofLines]

end Operation

namespace Reading

def openAt (rule : BoundaryRule) (text : String) (n : Nat) (r : Reading) : Reading :=
  if opensOperation rule text then
    { r with
      closed := r.closed ++ (r.current.map Operation.classify).toList
      current := some { ordinal := (Line.read text).ordinal, firstLine := n } }
  else r

def store (text : String) (n : Nat) (r : Reading) : Reading :=
  match r.current with
  | some op => { r with current := some (op.push text n) }
  | none => { r with leading := r.leading ++ [text] }

def step (rule : BoundaryRule) (r : Reading) (text : String) (n : Nat) : Reading := (r.openAt rule text n).store text n

def run (rule : BoundaryRule) (ls : List String) : Reading :=
  (ls.zipIdx 1).foldl (fun r l => r.step rule l.1 l.2) {}

def finish? (rule : TrailingRule) (r : Reading) : Option Program :=
  match r.current, rule with
  | none, _ => some { leading := r.leading, operations := r.closed }
  | some op, .keep => some { leading := r.leading, operations := r.closed ++ [op.classify] }
  | some op, .sentinel => do
    let (cut, trailing) ← op.cutClosing?
    some { leading := r.leading, operations := r.closed ++ [cut.classify], trailing }

inductive Holds (rule : BoundaryRule) : List String → Reading → Prop
  | leading (lead : List String) (hlead : ∀ l ∈ lead, opensOperation rule l = false) :
    Holds rule lead { leading := lead }
  | operation (lead : List String) (gs : List (List String)) (g : List String)
      (hlead : ∀ l ∈ lead, opensOperation rule l = false)
      (hgs : ∀ g' ∈ gs ++ [g], IsRun (opensOperation rule) g') :
    Holds rule (lead ++ (gs ++ [g]).flatten)
      { leading := lead
        closed := (Operation.chain (lead.length + 1) gs).map Operation.classify
        current := some (.ofLines (lead.length + 1 + gs.flatten.length) g) }

theorem step_passive {text : String} (h : opensOperation rule text = false) (r : Reading) (n : Nat) :
    r.step rule text n = r.store text n := by
  simp only [step, openAt, h, Bool.false_eq_true, if_false]

theorem step_boundary {text : String} (h : opensOperation rule text = true) (r : Reading) (n : Nat) :
    r.step rule text n =
      { r with
        closed := r.closed ++ (r.current.map Operation.classify).toList
        current := some (.ofLines n [text]) } := by
  simp only [step, openAt, h, if_true, store, Operation.push_opened]

theorem Holds.store {done : List String} {r : Reading} (h : Holds rule done r) {text : String}
    (hpassive : opensOperation rule text = false) : Holds rule (done ++ [text]) (r.store text (done.length + 1)) := by
  cases h with
  | leading _ hlead =>
    apply Holds.leading (done ++ [text])
    exact List.forall_mem_append.2 ⟨hlead, List.forall_mem_singleton.2 hpassive⟩
  | operation lead gs g hlead hgs =>
    obtain ⟨hclosed, hopen⟩ := List.forall_mem_append.1 hgs
    have hg : IsRun (opensOperation rule) g := hopen g List.mem_cons_self
    have hrun : IsRun (opensOperation rule) (g ++ [text]) := hg.append (List.forall_mem_singleton.2 hpassive)
    have hlines : lead ++ (gs ++ [g]).flatten ++ [text] = lead ++ (gs ++ [g ++ [text]]).flatten := by simp
    have hcount : (lead ++ (gs ++ [g]).flatten).length + 1 = lead.length + 1 + gs.flatten.length + g.length := by
      simp only [List.length_append, List.flatten_append, List.flatten_singleton]
      omega
    rw [hlines, hcount]
    simp only [Reading.store, Operation.push_ofLines hg.ne_nil]
    apply Holds.operation lead gs (g ++ [text]) hlead
    exact List.forall_mem_append.2 ⟨hclosed, List.forall_mem_singleton.2 hrun⟩

theorem Holds.opened {done : List String} {r : Reading} (h : Holds rule done r) {text : String}
    (hopens : opensOperation rule text = true) :
    Holds rule (done ++ [text])
      { r with
        closed := r.closed ++ (r.current.map Operation.classify).toList
        current := some (.ofLines (done.length + 1) [text]) } := by
  have hrun : IsRun (opensOperation rule) [text] := isRun_singleton hopens
  cases h with
  | leading _ hlead =>
    simpa [Operation.chain_nil] using Holds.operation done [] [text] hlead (List.forall_mem_singleton.2 hrun)
  | operation lead gs g hlead hgs =>
    have hlines : lead ++ (gs ++ [g]).flatten ++ [text] = lead ++ (gs ++ [g] ++ [[text]]).flatten := by simp
    have hcount : (lead ++ (gs ++ [g]).flatten).length + 1 = lead.length + 1 + (gs ++ [g]).flatten.length := by
      rw [List.length_append]
      omega
    have hclosed : (Operation.chain (lead.length + 1) (gs ++ [g])).map Operation.classify =
        (Operation.chain (lead.length + 1) gs).map Operation.classify ++
          [(Operation.ofLines (lead.length + 1 + gs.flatten.length) g).classify] := by
      rw [Operation.chain_concat, List.map_append, List.map_singleton]
    rw [hlines, hcount, Option.map_some, Option.toList_some, ← hclosed]
    apply Holds.operation lead (gs ++ [g]) [text] hlead
    exact List.forall_mem_append.2 ⟨hgs, List.forall_mem_singleton.2 hrun⟩

theorem holds_step {done : List String} {r : Reading} (h : Holds rule done r) (text : String) :
    Holds rule (done ++ [text]) (r.step rule text (done.length + 1)) := by
  cases hopens : opensOperation rule text with
  | false =>
    rw [step_passive hopens]
    exact h.store hopens
  | true =>
    rw [step_boundary hopens]
    exact h.opened hopens

theorem run_append (ls : List String) (text : String) :
    run rule (ls ++ [text]) = (run rule ls).step rule text (ls.length + 1) := by
  rw [run, List.zipIdx_append, List.foldl_append, Nat.add_comm 1]
  rfl

theorem holds_run (rule : BoundaryRule) (ls : List String) : Holds rule ls (run rule ls) := by
  induction ls using List.reverseRecOn with
  | nil => exact .leading [] (by simp)
  | append_singleton ls text ih =>
    rw [run_append]
    exact holds_step ih text

theorem finish?_eq {o : Options} {ls : List String} {r : Reading} (h : Holds o.boundary ls r) :
    r.finish? o.trailing = some (segmentLines o ls) := by
  cases h with
  | leading lead hlead =>
    rw [segmentLines_leading hlead]
    rfl
  | operation lead gs g hlead hgs =>
    rw [segmentLines_append hlead hgs]
    cases o.trailing with
    | keep =>
      simp only [Reading.finish?, trailingLines, List.length_nil, Operation.dropEnd_zero]
    | sentinel =>
      have hlast : (Operation.ofLines (lead.length + 1 + gs.flatten.length) g).source.length ≤
          (Operation.ofLines (lead.length + 1 + gs.flatten.length) g).lastLine + 1 := by
        rw [Operation.source_ofLines, Operation.lastLine_ofLines]
        omega
      simp only [Reading.finish?, trailingLines, Operation.cutClosing?_eq hlast, List.getLast?_concat, Option.getD_some,
        Option.bind_eq_bind, Option.bind_some, Operation.source_ofLines]

end Reading

/-- The program of a text by reading it line by line; `none` if a check fails. -/
def readProgram? (o : Options) (text : String) : Option Program :=
  (Reading.run o.boundary (Text.lines text)).finish? o.trailing

theorem readProgram?_eq (o : Options) (text : String) : readProgram? o text = some (segment o text) :=
  Reading.finish?_eq (Reading.holds_run o.boundary (Text.lines text))

end Machining
