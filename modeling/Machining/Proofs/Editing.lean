import Machining.Program.Edit
import Machining.Proofs.Reordering

/-!
Runs of edits on a divided program that keep its sources: the zig-zag, and dividing one operation anew. The program is
always the first one with some of the planned operations reversed. A zig-zag reverses the planned ones that were not
and turns back those that were, and dividing an operation turns it back if it was reversed, since source and first line
are all that it reads. So every selection of planned operations can be reached, and nothing else.
-/

namespace Machining

variable {p : Program} {s : Nat → Bool}

def Edit.Rearranges (count : Nat) : Edit → Prop
  | .zigzag => True
  | .classify i => i < count
  | _ => False

theorem Edit.foldlM_run? {e : Edit} {es : List Edit} {q : Program} (h : e.run? p = some q) :
    (e :: es).foldlM Edit.run? p = es.foldlM Edit.run? q := by
  simp only [List.foldlM_cons, h, Option.bind_eq_bind, Option.bind_some]

theorem Operation.classify_reverseIf (b : Bool) (op : Operation) : (op.reverseIf b).classify = op.classify := by
  cases b <;> rfl

namespace Program

theorem modifyAt?_reverseAt (hdivided : ∀ op ∈ p.operations, op.classify = op) {i : Nat}
    (hi : i < p.operations.length) :
    (p.reverseAt s).modifyAt? i Operation.classify = some (p.reverseAt fun j => s j && decide (j ≠ i)) := by
  have hops : (p.reverseAt s).operations.modify i Operation.classify =
      (p.reverseAt fun j => s j && decide (j ≠ i)).operations := by
    apply List.ext_getElem?
    intro j
    simp only [List.getElem?_modify, getElem?_reverseAt]
    cases hop : p.operations[j]? with
    | none => rfl
    | some op =>
      have hop := hdivided op (List.mem_of_getElem? hop)
      by_cases hij : i = j
      · simp [hij, Operation.classify_reverseIf, hop]
      · simp [hij, Ne.symm hij]
  rw [modifyAt?, if_pos (by rwa [length_operations_reverseAt]), hops]
  rfl

theorem map_classify_reverseAt (hdivided : ∀ op ∈ p.operations, op.classify = op) :
    (p.reverseAt s).operations.map Operation.classify = p.operations := by
  apply List.ext_getElem?
  intro i
  rw [List.getElem?_map, getElem?_reverseAt]
  cases hop : p.operations[i]? with
  | none => rfl
  | some op => simp [Operation.classify_reverseIf, hdivided op (List.mem_of_getElem? hop)]

theorem exists_run?_reverseAt (hdivided : ∀ op ∈ p.operations, op.classify = op) (hs : ∀ i, s i = true → i ∈ p.plan)
    {e : Edit} (he : e.Rearranges p.operations.length) :
    ∃ t : Nat → Bool, e.run? (p.reverseAt s) = some (p.reverseAt t) ∧ ∀ i, t i = true → i ∈ p.plan := by
  cases e with
  | zigzag =>
    refine ⟨fun i => s i ^^ decide (i ∈ p.plan), by rw [Edit.run?, zigzag_reverseAt], fun i hi => ?_⟩
    cases hsi : s i with
    | true => exact hs i hsi
    | false => simpa [hsi] using hi
  | classify i =>
    refine ⟨fun j => s j && decide (j ≠ i), modifyAt?_reverseAt hdivided he, fun j hj => ?_⟩
    exact hs j (Bool.and_eq_true_iff.1 hj).1
  | _ => exact he.elim

theorem exists_foldlM_reverseAt (hdivided : ∀ op ∈ p.operations, op.classify = op)
    (hs : ∀ i, s i = true → i ∈ p.plan) {es : List Edit} (hes : ∀ e ∈ es, e.Rearranges p.operations.length) :
    ∃ t : Nat → Bool, es.foldlM Edit.run? (p.reverseAt s) = some (p.reverseAt t) ∧ ∀ i, t i = true → i ∈ p.plan := by
  induction es generalizing s with
  | nil => exact ⟨s, rfl, hs⟩
  | cons e es ih =>
    obtain ⟨he, hes⟩ := List.forall_mem_cons.1 hes
    obtain ⟨u, hfirst, hu⟩ := exists_run?_reverseAt hdivided hs he
    rw [Edit.foldlM_run? hfirst]
    exact ih hu hes

theorem foldlM_classify_reverseAt (hdivided : ∀ op ∈ p.operations, op.classify = op) {is : List Nat}
    (his : ∀ i ∈ is, i < p.operations.length) :
    (is.map Edit.classify).foldlM Edit.run? (p.reverseAt s) = some (p.reverseAt fun j => s j && decide (j ∉ is)) := by
  induction is generalizing s with
  | nil => simp
  | cons i is ih =>
    obtain ⟨hi, his⟩ := List.forall_mem_cons.1 his
    have hfirst : (Edit.classify i).run? (p.reverseAt s) = some (p.reverseAt fun j => s j && decide (j ≠ i)) :=
      modifyAt?_reverseAt hdivided hi
    have hselected : (fun j => (s j && decide (j ≠ i)) && decide (j ∉ is)) = fun j => s j && decide (j ∉ i :: is) := by
      funext j
      by_cases hj : j = i <;> simp [hj]
    rw [List.map_cons, Edit.foldlM_run? hfirst, ← hselected]
    exact ih his

/-- Every selection of planned operations is reached: by a zig-zag, and dividing those anew that are not selected. -/
theorem exists_edits_reverseAt (hdivided : ∀ op ∈ p.operations, op.classify = op)
    (hs : ∀ i, s i = true → i ∈ p.plan) :
    ∃ es : List Edit, (∀ e ∈ es, e.Rearranges p.operations.length) ∧ es.foldlM Edit.run? p = some (p.reverseAt s) := by
  have hbelow : ∀ i ∈ p.plan.filter (!s ·), i < p.operations.length := by
    intro i hi
    obtain ⟨op, hop, -⟩ := mem_plan_iff.1 (List.mem_filter.1 hi).1
    exact (List.getElem?_eq_some_iff.1 hop).1
  have hselected : (fun i => decide (i ∈ p.plan) && decide (i ∉ p.plan.filter (!s ·))) = s := by
    funext i
    cases hsi : s i with
    | true => simp [hsi, hs i hsi]
    | false => simp [hsi]
  refine ⟨.zigzag :: (p.plan.filter (!s ·)).map Edit.classify, ?_, ?_⟩
  · intro e he
    rcases List.mem_cons.1 he with rfl | he
    · exact trivial
    · obtain ⟨i, hi, rfl⟩ := List.mem_map.1 he
      exact hbelow i hi
  · have hfirst : Edit.zigzag.run? p = some (p.reverseAt fun i => decide (i ∈ p.plan)) := by
      rw [Edit.run?, zigzag_eq_reverseAt]
    rw [Edit.foldlM_run? hfirst, foldlM_classify_reverseAt hdivided hbelow, hselected]

end Program

/-- Whatever zig-zags and new divisions of single operations are made on a divided text, one after the other: they all
succeed, plan and preview stay, no line is lost, and dividing all operations anew gives the first program back. -/
theorem segment_edits (o : Options) (text : String) :
    (∀ es : List Edit, (∀ e ∈ es, e.Rearranges (segment o text).operations.length) →
      ∃ q, es.foldlM Edit.run? (segment o text) = some q ∧
        (∃ s : Nat → Bool, (∀ i, s i = true → i ∈ (segment o text).plan) ∧ q = (segment o text).reverseAt s) ∧
        q.plan = (segment o text).plan ∧ q.preview = (segment o text).preview ∧ q.lines.Perm (Text.lines text) ∧
        { q with operations := q.operations.map Operation.classify } = segment o text) ∧
    ∀ s : Nat → Bool, (∀ i, s i = true → i ∈ (segment o text).plan) →
      ∃ es : List Edit, (∀ e ∈ es, e.Rearranges (segment o text).operations.length) ∧
        es.foldlM Edit.run? (segment o text) = some ((segment o text).reverseAt s) := by
  have hseg : (segment o text).Segments o.boundary (Text.lines text) := segments_segmentLines o (Text.lines text)
  constructor
  · intro es hes
    have hstart : (segment o text).reverseAt (fun _ => false) = segment o text := Program.reverseAt_false _
    obtain ⟨s, hrun, hs⟩ := Program.exists_foldlM_reverseAt (s := fun _ => false) hseg.divided (by simp) hes
    rw [hstart] at hrun
    refine ⟨(segment o text).reverseAt s, hrun, ⟨s, hs, rfl⟩, Program.plan_reverseAt s _, Program.preview_reverseAt s _,
      ?_, ?_⟩
    · have hperm := Program.perm_lines_reverseAt s (segment o text)
      rwa [hseg.lines_eq] at hperm
    · rw [Program.map_classify_reverseAt hseg.divided]
      rfl
  · intro s hs
    exact Program.exists_edits_reverseAt hseg.divided hs

theorem segment_edits_two_blocks :
    ∃ q, [Edit.zigzag, .classify 0, .zigzag, .zigzag].foldlM Edit.run? (segment {} "N1\nN2\nG54\nG55") = some q ∧
      q.plan = [1] ∧ { q with operations := q.operations.map Operation.classify } = segment {} "N1\nN2\nG54\nG55" := by
  have hlength : (segment {} "N1\nN2\nG54\nG55").operations.length = 2 := by decide
  have hedits : ∀ e ∈ [Edit.zigzag, .classify 0, .zigzag, .zigzag],
      e.Rearranges (segment {} "N1\nN2\nG54\nG55").operations.length := by
    rw [hlength]
    simp [Edit.Rearranges]
  have hplan : (segment {} "N1\nN2\nG54\nG55").plan = [1] := by decide
  obtain ⟨q, hrun, -, hq, -, -, hback⟩ := (segment_edits {} "N1\nN2\nG54\nG55").1 _ hedits
  exact ⟨q, hrun, hq.trans hplan, hback⟩

end Machining
