import Machining.Program.Preview
import Machining.Proofs.Reversal

/-!
Programs that differ in the order of their blocks only. A selection says by index which operations have their blocks
reversed. Reversing one selection and then another reverses what is in just one of the two, and neither plan nor
preview depends on it, as both look at how many blocks there are. The zig-zag reverses the plan, so that doing it twice
reverses nothing. None of this needs a program whose parts fit its source.
-/

namespace Machining

variable {p : Program}

namespace Operation

theorem reverse_reverse (op : Operation) : op.reverse.reverse = op := by
  simp only [reverse, List.reverse_reverse]

theorem reverseIf_reverseIf (b c : Bool) (op : Operation) : (op.reverseIf b).reverseIf c = op.reverseIf (b ^^ c) := by
  cases b <;> cases c <;> simp [reverse_reverse]

theorem isPlanned_reverseIf (b : Bool) (i : Nat) (op : Operation) : (op.reverseIf b).isPlanned i = op.isPlanned i := by
  cases b with
  | false => rfl
  | true => simp only [reverseIf_true, isPlanned, reverse, List.length_reverse]

theorem summary_reverseIf (b : Bool) (i : Nat) (op : Operation) : (op.reverseIf b).summary i = op.summary i := by
  have hplan := isPlanned_reverseIf b i op
  cases b with
  | false => rfl
  | true =>
    have hcount : op.reverse.blocks.length = op.blocks.length := List.length_reverse
    rw [summary, hplan, reverseIf_true, hcount]
    rfl

end Operation

namespace Program

def reverseAt (s : Nat → Bool) (p : Program) : Program :=
  { p with operations := p.operations.mapIdx fun i => Operation.reverseIf (s i) }

theorem getElem?_reverseAt (s : Nat → Bool) (i : Nat) :
    (p.reverseAt s).operations[i]? = p.operations[i]?.map (Operation.reverseIf (s i)) := List.getElem?_mapIdx

theorem length_operations_reverseAt (s : Nat → Bool) (p : Program) :
    (p.reverseAt s).operations.length = p.operations.length := List.length_mapIdx

theorem reverseAt_false (p : Program) : (p.reverseAt fun _ => false) = p := by
  have hops : (p.operations.mapIdx fun _ => Operation.reverseIf false) = p.operations := by
    apply List.ext_getElem?
    intro i
    rw [List.getElem?_mapIdx]
    cases p.operations[i]? <;> rfl
  rw [reverseAt, hops]

theorem reverseAt_reverseAt (s t : Nat → Bool) (p : Program) :
    (p.reverseAt s).reverseAt t = p.reverseAt fun i => s i ^^ t i := by
  simp only [reverseAt, List.mapIdx_mapIdx, Function.comp_def, Operation.reverseIf_reverseIf]

theorem plan_eq_filterMap (p : Program) :
    p.plan = (p.operations.mapIdx fun i op => if op.isPlanned i then some i else none).filterMap id := by
  simp only [plan, List.mapIdx_eq_zipIdx_map, List.filterMap_map]
  rfl

theorem plan_reverseAt (s : Nat → Bool) (p : Program) : (p.reverseAt s).plan = p.plan := by
  simp only [plan_eq_filterMap, reverseAt, List.mapIdx_mapIdx, Function.comp_def, Operation.isPlanned_reverseIf]

theorem preview_reverseAt (s : Nat → Bool) (p : Program) : (p.reverseAt s).preview = p.preview := by
  simp only [preview, reverseAt, List.mapIdx_mapIdx, Function.comp_def, Operation.summary_reverseIf]

theorem perm_lines_reverseAt (s : Nat → Bool) (p : Program) : (p.reverseAt s).lines.Perm p.lines := by
  have hops : ((p.reverseAt s).operations.flatMap Operation.lines).Perm (p.operations.flatMap Operation.lines) :=
    Operation.perm_lines_mapIdx (fun i => Operation.perm_lines_reverseIf (s i)) p.operations
  exact (hops.append_left p.leading).append_right p.trailing

theorem zigzag_eq_reverseAt (p : Program) : p.zigzag = p.reverseAt fun i => decide (i ∈ p.plan) := by
  have hops : (p.operations.mapIdx Operation.turned) =
      p.operations.mapIdx fun i => Operation.reverseIf (decide (i ∈ p.plan)) := by
    apply List.ext_getElem?
    intro i
    simp only [List.getElem?_mapIdx]
    cases hop : p.operations[i]? with
    | none => rfl
    | some op =>
      have hplan : decide (i ∈ p.plan) = op.isPlanned i := by
        rw [Bool.eq_iff_iff, decide_eq_true_iff, mem_plan_iff]
        simp [hop]
      rw [Option.map_some, Option.map_some, hplan]
      rfl
  rw [reverseAt, ← hops]
  rfl

theorem zigzag_reverseAt (s : Nat → Bool) (p : Program) :
    (p.reverseAt s).zigzag = p.reverseAt fun i => s i ^^ decide (i ∈ p.plan) := by
  rw [zigzag_eq_reverseAt, plan_reverseAt, reverseAt_reverseAt]

theorem zigzag_eq_zipWith (p : Program) :
    p.zigzag = { p with
      operations := List.zipWith (fun op s => if s.isReversed then { op with blocks := op.blocks.reverse } else op)
        p.operations p.preview } := by
  have hops : List.zipWith
      (fun (op : Operation) (s : Summary) => if s.isReversed then { op with blocks := op.blocks.reverse } else op)
      p.operations p.preview = p.operations.mapIdx Operation.turned := by
    apply List.ext_getElem?
    intro i
    simp only [preview, List.getElem?_zipWith, List.getElem?_mapIdx]
    cases p.operations[i]? <;> rfl
  rw [hops]
  rfl

theorem mem_plan_iff_preview {i : Nat} : i ∈ p.plan ↔ ∃ s, p.preview[i]? = some s ∧ s.isReversed = true := by
  simp only [mem_plan_iff, preview, List.getElem?_mapIdx, Option.map_eq_some_iff]
  constructor
  · rintro ⟨op, hop, hplan⟩
    exact ⟨op.summary i, ⟨op, hop, rfl⟩, hplan⟩
  · rintro ⟨s, ⟨op, hop, rfl⟩, hreversed⟩
    exact ⟨op, hop, hreversed⟩

end Program

/-- The zig-zag undoes itself on every program there is, and changes nothing that it looks at. It reverses the blocks
of the operations that are announced in the preview, which are those of the plan, and leaves all else as it is. -/
theorem zigzag_zigzag (p : Program) :
    p.zigzag.zigzag = p ∧ p.zigzag.plan = p.plan ∧ p.zigzag.preview = p.preview ∧
    p.preview.length = p.operations.length ∧
    (∀ i, i ∈ p.plan ↔ ∃ s, p.preview[i]? = some s ∧ s.isReversed = true) ∧
    p.zigzag = { p with
      operations := List.zipWith (fun op s => if s.isReversed then { op with blocks := op.blocks.reverse } else op)
        p.operations p.preview } ∧
    p.zigzag.lines.Perm p.lines := by
  have hzigzag := p.zigzag_eq_reverseAt
  refine ⟨?_, ?_, ?_, List.length_mapIdx, fun i => Program.mem_plan_iff_preview, p.zigzag_eq_zipWith, ?_⟩
  · rw [hzigzag, Program.zigzag_reverseAt]
    simp only [Bool.xor_self, Program.reverseAt_false]
  · rw [hzigzag, Program.plan_reverseAt]
  · rw [hzigzag, Program.preview_reverseAt]
  · rw [hzigzag]
    exact Program.perm_lines_reverseAt _ p

end Machining
