import Machining.Proofs.Segmentation

/-!
One text behind another. An operation is made of its own lines and nothing else: name, tool and division do not
depend on what stands in front of it or behind it, and its line numbers only on how many lines are in front. So a text
that begins with a boundary is divided behind another text as it is alone, further down by the lines of the other.
-/

namespace Machining

variable {first k : Nat} {g : List String} {gs : List (List String)} {o : Options} {ls more : List String}

theorem lastLine_add (hg : g ≠ []) : first + k + g.length - 1 = first + g.length - 1 + k := by
  have hpos : 0 < g.length := List.length_pos_iff.2 hg
  omega

namespace OffsetBlock

def shift (k : Nat) (b : OffsetBlock) : OffsetBlock :=
  { b with firstLine := b.firstLine + k, lastLine := b.lastLine + k }

theorem ofLines_add (hg : g ≠ []) : ofLines (first + k) g = (ofLines first g).shift k := by
  simp only [ofLines, OpenBlock.ofLines, OpenBlock.close, shift, lastLine_add hg]

theorem chain_add (hgs : ∀ g ∈ gs, g ≠ []) : chain (first + k) gs = (chain first gs).map (shift k) := by
  induction gs generalizing first with
  | nil => rfl
  | cons g gs ih =>
    obtain ⟨hg, hgs⟩ := List.forall_mem_cons.1 hgs
    simp only [chain, List.map_cons, ofLines_add hg, Nat.add_right_comm first k, ih hgs]

end OffsetBlock

namespace Operation

def shift (k : Nat) (op : Operation) : Operation :=
  { op with
    firstLine := op.firstLine + k
    lastLine := op.lastLine + k
    blocks := op.blocks.map (OffsetBlock.shift k) }

theorem ofLines_add (hg : g ≠ []) : ofLines (first + k) g = (ofLines first g).shift k := by
  simp only [ofLines, shift, lastLine_add hg, List.map_nil]

theorem chain_add (hgs : ∀ g ∈ gs, g ≠ []) : chain (first + k) gs = (chain first gs).map (shift k) := by
  induction gs generalizing first with
  | nil => rfl
  | cons g gs ih =>
    obtain ⟨hg, hgs⟩ := List.forall_mem_cons.1 hgs
    simp only [chain_cons, List.map_cons, ofLines_add hg, Nat.add_right_comm first k, ih hgs]

theorem dropEnd_shift {count : Nat} {op : Operation} (h : count ≤ op.lastLine) :
    (op.shift k).dropEnd count = (op.dropEnd count).shift k := by
  have hlast : op.lastLine + k - count = op.lastLine - count + k := by omega
  simp only [dropEnd, shift, hlast]

theorem classify_shift (k : Nat) (op : Operation) : (op.shift k).classify = op.classify.shift k := by
  obtain ⟨header, groups, footer, hd⟩ := exists_divides op.source
  have hshift : Divides (op.shift k).source header groups footer := hd
  have hblocks : OffsetBlock.chain (op.firstLine + k + header.length) groups =
      (OffsetBlock.chain (op.firstLine + header.length) groups).map (OffsetBlock.shift k) := by
    rw [Nat.add_right_comm]
    exact OffsetBlock.chain_add fun g hg => (hd.groups_run g hg).ne_nil
  rw [classify_eq hshift, classify_eq hd]
  simp only [shift, hblocks]

theorem map_classify_chain_add (hgs : ∀ g ∈ gs, g ≠ []) :
    (chain (first + k) gs).map classify = ((chain first gs).map classify).map (shift k) := by
  rw [chain_add hgs]
  simp only [List.map_map, Function.comp_def, classify_shift]

theorem classify_dropEnd_add {t : List String} (hg : g ≠ []) (ht : t <:+ g.drop 1) :
    ((ofLines (first + k) g).dropEnd t.length).classify = ((ofLines first g).dropEnd t.length).classify.shift k := by
  have hlength := ht.length_le
  have hlast : t.length ≤ (ofLines first g).lastLine := by
    rw [List.length_drop] at hlength
    rw [lastLine_ofLines]
    omega
  rw [ofLines_add hg, dropEnd_shift hlast, classify_shift]

end Operation

theorem segmentLines_append_of_opens {opening : String} (hhead : more.head? = some opening)
    (hopens : opensOperation o.boundary opening = true) :
    segmentLines o (ls ++ more) =
      { leading := (segmentLines { o with trailing := .keep } ls).leading
        operations := (segmentLines { o with trailing := .keep } ls).operations ++
          (segmentLines o more).operations.map (Operation.shift ls.length)
        trailing := (segmentLines o more).trailing } := by
  obtain ⟨lead, front, hlead, hfront, rfl⟩ := exists_runs (opensOperation o.boundary) ls
  obtain ⟨gs, g, hrear, rfl⟩ := exists_runs_of_head hhead hopens
  have hne : ∀ g' ∈ gs ++ [g], g' ≠ [] := fun g' hg' => (hrear g' hg').ne_nil
  obtain ⟨hgs, hg⟩ := List.forall_mem_append.1 hne
  have hall : ∀ g' ∈ front ++ gs ++ [g], IsRun (opensOperation o.boundary) g' := by
    rw [List.append_assoc]
    exact List.forall_mem_append.2 ⟨hfront, hrear⟩
  have hlines : lead ++ front.flatten ++ (gs ++ [g]).flatten = lead ++ (front ++ gs ++ [g]).flatten := by simp
  have hfirst := segmentLines_keep (o := { o with trailing := .keep }) rfl hlead hfront
  have hnone : ∀ l ∈ ([] : List String), opensOperation o.boundary l = false := by simp
  have hsecond := segmentLines_append hnone hrear
  have htrailing : trailingLines o.trailing (front ++ gs ++ [g]) = trailingLines o.trailing (gs ++ [g]) := by
    simp only [trailingLines, List.getLast?_concat]
  have hclosing := trailingLines_suffix o.trailing gs g
  have hcount : lead.length + 1 + front.flatten.length = 1 + (lead ++ front.flatten).length := by
    rw [List.length_append]
    omega
  have hlast : lead.length + 1 + (front ++ gs).flatten.length =
      1 + gs.flatten.length + (lead ++ front.flatten).length := by
    simp only [List.flatten_append, List.length_append]
    omega
  rw [List.nil_append] at hsecond
  rw [hlines, segmentLines_append hlead hall, hfirst, hsecond, htrailing, Operation.chain_append, List.map_append,
    hcount, Operation.map_classify_chain_add hgs, hlast, Operation.classify_dropEnd_add (hg g (by simp)) hclosing]
  simp only [List.map_append, List.map_singleton, List.append_assoc, List.length_nil, Nat.zero_add]

/-- Nothing of one text reaches into another that is put behind it and begins with a boundary line. The operations of
the second are what they are without the first, but for their line numbers. -/
theorem segment_append (o : Options) {front rear opening : String} (hfront : front ≠ "")
    (hreturn : front.toList.getLast? ≠ some '\r') (hhead : (Text.lines rear).head? = some opening)
    (hopens : opensOperation o.boundary opening = true) :
    segment o (front ++ "\n" ++ rear) =
      { leading := (segment { o with trailing := .keep } front).leading
        operations := (segment { o with trailing := .keep } front).operations ++
          (segment o rear).operations.map (Operation.shift (Text.lines front).length)
        trailing := (segment o rear).trailing } := by
  have hrear : rear ≠ "" := by
    rintro rfl
    exact absurd hhead (by simp [Text.lines_empty])
  rw [segment, Text.lines_append hfront hreturn hrear]
  exact segmentLines_append_of_opens hhead hopens

theorem segment_append_marker :
    segment ⟨.annotated, .sentinel⟩ ("%\nN1 T5 (OPERATION: A)\n%\n" ++ "\n" ++ "N2 (B)\rG54\rX1\r%") =
      { leading := ["%"]
        operations :=
          [{ ordinal := 1, name := some "A", tool := some "T5", firstLine := 2, lastLine := 4
             header := ["N1 T5 (OPERATION: A)", "%", ""], source := ["N1 T5 (OPERATION: A)", "%", ""] },
           { ordinal := 2, firstLine := 5, lastLine := 7, header := ["N2 (B)"]
             blocks := [⟨"G54", 6, 7, ["G54", "X1"]⟩], source := ["N2 (B)", "G54", "X1"] }]
        trailing := ["%"] } := by
  have hhead : (Text.lines "N2 (B)\rG54\rX1\r%").head? = some "N2 (B)" := by decide
  have hopens : opensOperation .annotated "N2 (B)" = true := by decide
  rw [segment_append ⟨.annotated, .sentinel⟩ (by decide) (by decide) hhead hopens]
  decide

end Machining
