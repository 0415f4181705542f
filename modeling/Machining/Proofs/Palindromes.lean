import Machining.Proofs.Reversal

/-!
Which reversals can be seen. The check of a program compares the lines of each operation with its source. Every block
begins with a line that selects an offset and has no other such line, so the lines of the blocks say where one block ends
and the next begins. Hence the blocks of a divided operation, written in reverse, give the same lines only if they are
the same blocks in reverse. A zig-zag passes the check just when it reverses palindromes and nothing else.
-/

namespace Machining

theorem Divides.reverse_eq_source_iff {source header footer : List String} {groups : List (List String)}
    (h : Divides source header groups footer) :
    header ++ groups.reverse.flatten ++ footer = source ↔ groups.reverse = groups := by
  rw [← h.source_eq, List.append_cancel_right_eq, List.append_cancel_left_eq]
  exact flatten_reverse_runs_iff h.groups_run

namespace Operation

def IsPalindrome (op : Operation) : Prop :=
  (op.blocks.map OffsetBlock.lines).reverse = op.blocks.map OffsetBlock.lines

theorem isPartitioned_reverse_iff {op : Operation} (hop : op.classify = op) :
    op.reverse.isPartitioned = true ↔ op.IsPalindrome := by
  rw [isPartitioned_iff, lines_reverse]
  exact (divides hop).reverse_eq_source_iff

theorem isPartitioned_turned_iff {op : Operation} (hop : op.classify = op) (i : Nat) :
    (op.turned i).isPartitioned = true ↔ (op.isPlanned i = true → op.IsPalindrome) := by
  rw [turned]
  split
  · next hplan => simp [hplan, isPartitioned_reverse_iff hop]
  · next hplan => simp [hplan, isPartitioned_iff, lines_eq_source hop]

end Operation

namespace Program

variable {rule : BoundaryRule} {ls : List String} {p : Program}

theorem isPartitioned_iff : p.isPartitioned = true ↔ ∀ op ∈ p.operations, op.isPartitioned = true := List.all_eq_true

theorem Segments.isPartitioned (h : p.Segments rule ls) : p.isPartitioned = true := by
  apply isPartitioned_iff.2
  intro op hop
  exact Operation.isPartitioned_iff.2 (Operation.lines_eq_source (h.divided op hop))

theorem isPartitioned_zigzag_iff_turned :
    p.zigzag.isPartitioned = true ↔
      ∀ (i : Nat) (op : Operation), p.operations[i]? = some op → (op.turned i).isPartitioned = true := by
  simp only [isPartitioned_iff, operations_zigzag, List.mem_iff_getElem?, Operation.getElem?_turnFrom, Nat.zero_add,
    Option.map_eq_some_iff]
  constructor
  · intro h i op hop
    exact h _ ⟨i, op, hop, rfl⟩
  · rintro h _ ⟨i, op, hop, rfl⟩
    exact h i op hop

theorem Segments.isPartitioned_zigzag_iff (h : p.Segments rule ls) :
    p.zigzag.isPartitioned = true ↔
      ∀ (i : Nat) (op : Operation), p.operations[i]? = some op → i ∈ p.plan → op.IsPalindrome := by
  rw [isPartitioned_zigzag_iff_turned]
  refine forall₃_congr fun i op hop => ?_
  have hplan : i ∈ p.plan ↔ op.isPlanned i = true := by simp [mem_plan_iff, hop]
  rw [hplan, Operation.isPartitioned_turned_iff (h.divided op (List.mem_of_getElem? hop))]

end Program

/-- The check finds no fault in a text that has been divided. After a zig-zag it finds none just when every operation of
the plan has the same blocks in both directions. -/
theorem isPartitioned_zigzag (o : Options) (text : String) :
    (segment o text).isPartitioned = true ∧
    ((segment o text).zigzag.isPartitioned = true ↔
      ∀ (i : Nat) (op : Operation), (segment o text).operations[i]? = some op → i ∈ (segment o text).plan →
        op.IsPalindrome) := by
  have h : (segment o text).Segments o.boundary (Text.lines text) := segments_segmentLines o (Text.lines text)
  exact ⟨h.isPartitioned, h.isPartitioned_zigzag_iff⟩

example : (segment {} "N1\nN2\nG54\nG55\nG54").zigzag.isPartitioned = true := by decide

example : (segment {} "N1\nN2\nG54\nG55\nX1").zigzag.isPartitioned = false := by decide

end Machining
