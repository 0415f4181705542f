import Machining.Proofs.Closing
import Machining.Proofs.IdleLines

/-!
The sentinel rule as a cut of the text. The lines that it takes off the last operation are the longest end of the whole
text that is idle throughout and begins with a marker. Idle lines say nothing about an operation, so it makes no
difference whether they are taken off an operation that has been read or are cut off the text before it is read.
-/

namespace Machining

variable {rule : BoundaryRule} {ls w g : List String}

/-- An end of the lines, idle throughout, that is empty or begins with a marker. -/
structure ClosingEnd (ls w : List String) : Prop where
  suffix : w <:+ ls
  head_marker : ∀ l ∈ w.head?, isMarker l = true
  idle : ∀ l ∈ w, isIdle l = true

structure LongestClosingEnd (ls w : List String) : Prop extends ClosingEnd ls w where
  longest : ∀ w', ClosingEnd ls w' → w'.length ≤ w.length

theorem LongestClosingEnd.suffix_of {w' : List String} (h : LongestClosingEnd ls w) (h' : ClosingEnd ls w') : w' <:+ w :=
  List.suffix_of_suffix_length_le h'.suffix h.suffix (h.longest w' h')

theorem LongestClosingEnd.unique {w' : List String} (h : LongestClosingEnd ls w) (h' : LongestClosingEnd ls w') :
    w = w' :=
  (h'.suffix_of h.toClosingEnd).eq_of_length_le (h.longest w' h'.toClosingEnd)

theorem ClosingEnd.suffix_rest {front rest : List String} {x : String} (h : ClosingEnd (front ++ x :: rest) w)
    (hx : isIdle x = false) : w <:+ rest := by
  have hrest : x :: rest <:+ front ++ x :: rest := List.suffix_append front (x :: rest)
  rcases List.suffix_or_suffix_of_suffix h.suffix hrest with hw | hw
  · rcases List.suffix_cons_iff.1 hw with rfl | hw
    · exact absurd (h.idle x List.mem_cons_self) (by simp [hx])
    · exact hw
  · exact absurd (h.idle x (hw.subset List.mem_cons_self)) (by simp [hx])

theorem closingEnd_closingLines (g : List String) : ClosingEnd g (closingLines g) where
  suffix := (closingLines_suffix g).trans (List.drop_suffix 1 g)
  head_marker := by
    intro l hl
    have hhead := List.head?_dropWhile_not (!isMarker ·) (idleLines g)
    have hlines : (idleLines g).dropWhile (!isMarker ·) = closingLines g := rfl
    rw [hlines, Option.mem_def.1 hl] at hhead
    simpa using hhead
  idle := by
    intro l hl
    have hidle : l ∈ (g.drop 1).reverse.takeWhile isIdle := List.mem_reverse.1 ((List.dropWhile_suffix _).subset hl)
    exact List.all_eq_true.1 List.all_takeWhile l hidle

theorem suffix_closingLines (h : ClosingEnd g w) (hw : w <:+ g.drop 1) : w <:+ closingLines g := by
  obtain ⟨front, hfront⟩ := hw
  have hidle : ∀ l ∈ w.reverse, isIdle l = true := fun l hl => h.idle l (List.mem_reverse.1 hl)
  have hlines : idleLines g = (front.reverse.takeWhile isIdle).reverse ++ w := by
    rw [idleLines, ← hfront, List.reverse_append, List.takeWhile_append_of_pos hidle, List.reverse_append,
      List.reverse_reverse]
  have hkeep : w.dropWhile (!isMarker ·) = w := by
    cases hcons : w with
    | nil => rfl
    | cons x rest =>
      have hx : isMarker x = true := h.head_marker x (by rw [hcons]; rfl)
      exact List.dropWhile_cons_of_neg (by simp [hx])
  rw [closingLines, ← idleLines, hlines, List.dropWhile_append]
  split
  · rw [hkeep]
  · exact List.suffix_append _ w

theorem longestClosingEnd_append {q : String → Bool} (hrun : IsRun q g) (hq : ∀ l, isIdle l = true → q l = false)
    (front : List String) : LongestClosingEnd (front ++ g) (closingLines g) := by
  obtain ⟨x, rest, rfl, hx, -⟩ := hrun
  have hidle : isIdle x = false := by
    cases hidle : isIdle x with
    | false => rfl
    | true => exact absurd hx (by simp [hq x hidle])
  have hclosing := closingEnd_closingLines (x :: rest)
  refine ⟨⟨List.suffix_append_of_suffix hclosing.suffix, hclosing.head_marker, hclosing.idle⟩, ?_⟩
  intro w hw
  have hrest : w <:+ rest := hw.suffix_rest hidle
  have hend : ClosingEnd (x :: rest) w := ⟨hrest.trans (List.suffix_cons x rest), hw.head_marker, hw.idle⟩
  exact (suffix_closingLines hend hrest).length_le

theorem trailingLines_sentinel (gs : List (List String)) (g : List String) :
    trailingLines .sentinel (gs ++ [g]) = closingLines g := by
  simp only [trailingLines, List.getLast?_concat, Option.getD_some]

theorem Operation.dropEnd_ofLines (first : Nat) (hg : g ≠ []) (hw : ∀ l ∈ w, isIdle l = true) :
    (ofLines first (g ++ w)).dropEnd w.length = ofLines first g := by
  obtain ⟨x, rest, rfl⟩ := List.exists_cons_of_ne_nil hg
  have hheading := Heading.ofLines_append_idle (x :: rest) hw
  have hlast : first + (x :: rest ++ w).length - 1 - w.length = first + (x :: rest).length - 1 := by
    simp only [List.length_append, List.length_cons]
    omega
  rw [dropEnd_append (source_ofLines first (x :: rest ++ w)).symm, lastLine_ofLines, hlast]
  simp only [ofLines, hheading]
  rfl

theorem exists_segmentLines_sentinel (h : ∃ l ∈ ls, opensOperation rule l = true) :
    ∃ kept closing, kept ++ closing = ls ∧ LongestClosingEnd ls closing ∧
      (∃ l ∈ kept, opensOperation rule l = true) ∧
      segmentLines ⟨rule, .sentinel⟩ ls = { segmentLines ⟨rule, .keep⟩ kept with trailing := closing } := by
  obtain ⟨lead, gs, hlead, hgs, rfl⟩ := exists_runs (opensOperation rule) ls
  rcases List.eq_nil_or_concat' gs with rfl | ⟨gs, g, rfl⟩
  · obtain ⟨l, hl, hopens⟩ := h
    exact absurd hopens (by simp [hlead l (by simpa using hl)])
  · obtain ⟨hclosed, hlast⟩ := List.forall_mem_append.1 hgs
    have hrun : IsRun (opensOperation rule) g := hlast g List.mem_cons_self
    have hlongest := longestClosingEnd_append hrun (fun _ => opensOperation_of_isIdle rule) (lead ++ gs.flatten)
    have htrailing := trailingLines_sentinel gs g
    obtain ⟨hbody, hsource, -⟩ := hrun.cut (closingLines_suffix g)
    generalize g.take (g.length - (closingLines g).length) = body at hbody hsource
    generalize closingLines g = closing at *
    subst hsource
    have hruns : ∀ g' ∈ gs ++ [body], IsRun (opensOperation rule) g' :=
      List.forall_mem_append.2 ⟨hclosed, List.forall_mem_singleton.2 hbody⟩
    refine ⟨lead ++ (gs ++ [body]).flatten, closing, by simp, by simpa using hlongest, ?_, ?_⟩
    · obtain ⟨x, rest, rfl, hx, -⟩ := hbody
      exact ⟨x, by simp, hx⟩
    · rw [segmentLines_append hlead hgs, segmentLines_keep rfl hlead hruns, htrailing,
        Operation.dropEnd_ofLines _ hbody.ne_nil hlongest.idle, Operation.chain_concat, List.map_append,
        List.map_singleton]

theorem longestClosingEnd_trailing (h : ∃ l ∈ ls, opensOperation rule l = true) :
    LongestClosingEnd ls (segmentLines ⟨rule, .sentinel⟩ ls).trailing := by
  obtain ⟨kept, closing, -, hclosing, -, hprogram⟩ := exists_segmentLines_sentinel h
  rw [hprogram]
  exact hclosing

/-- The sentinel rule gives the program of the text without its longest closing end, and this end as trailing lines. In
a text without operations it changes nothing. -/
theorem segment_sentinel (rule : BoundaryRule) (text : String) :
    ((segment ⟨rule, .keep⟩ text).operations = [] → segment ⟨rule, .sentinel⟩ text = segment ⟨rule, .keep⟩ text) ∧
    ((segment ⟨rule, .keep⟩ text).operations ≠ [] →
      ∃ kept closing, kept ++ closing = Text.lines text ∧ LongestClosingEnd (Text.lines text) closing ∧
        segment ⟨rule, .sentinel⟩ text = { segment ⟨rule, .keep⟩ (Text.join kept) with trailing := closing }) := by
  have hseg : (segment ⟨rule, .keep⟩ text).Segments rule (Text.lines text) :=
    segments_segmentLines ⟨rule, .keep⟩ (Text.lines text)
  have hopens := hseg.operations_ne_nil_iff
  constructor
  · intro hops
    have hlead : ∀ l ∈ Text.lines text, opensOperation rule l = false := by
      intro l hl
      cases hl' : opensOperation rule l with
      | false => rfl
      | true => exact absurd hops (hopens.2 ⟨l, hl, hl'⟩)
    rw [segment, segment, segmentLines_leading hlead, segmentLines_leading hlead]
  · intro hops
    obtain ⟨kept, closing, hsplit, hclosing, ⟨l, hl, hopens⟩, hprogram⟩ := exists_segmentLines_sentinel (hopens.1 hops)
    refine ⟨kept, closing, hsplit, hclosing, ?_⟩
    have hunbroken : ∀ l ∈ kept, Text.Unbroken l.toList := by
      intro l hl
      apply Text.unbroken_of_mem_lines
      rw [← hsplit]
      exact List.mem_append_left closing hl
    have hkept : kept ≠ [""] := by
      rintro rfl
      obtain rfl : l = "" := List.mem_singleton.1 hl
      have hpassive : opensOperation rule "" = false := opensOperation_of_isIdle rule rfl
      exact absurd hopens (by simp [hpassive])
    rw [segment, segment, Text.lines_join hunbroken hkept]
    exact hprogram

theorem segment_sentinel_markers :
    segment ⟨.annotated, .sentinel⟩ "N1\nG54\n%" = segment ⟨.annotated, .keep⟩ "N1\nG54\n%" ∧
    segment ⟨.annotated, .sentinel⟩ "N1 (A)\nG54 T5\n \n%\r\n\u00a0\r%\t\n" =
      { segment ⟨.annotated, .keep⟩ (Text.join ["N1 (A)", "G54 T5", " "]) with
        trailing := ["%", "\u00a0", "%\t", ""] } := by
  refine ⟨(segment_sentinel .annotated "N1\nG54\n%").1 (by decide), ?_⟩
  have hops : (segment ⟨.annotated, .keep⟩ "N1 (A)\nG54 T5\n \n%\r\n\u00a0\r%\t\n").operations ≠ [] := by decide
  obtain ⟨kept, closing, hsplit, -, hprogram⟩ := (segment_sentinel .annotated _).2 hops
  have htrailing : (segment ⟨.annotated, .sentinel⟩ "N1 (A)\nG54 T5\n \n%\r\n\u00a0\r%\t\n").trailing =
      ["%", "\u00a0", "%\t", ""] := by decide
  obtain rfl : closing = ["%", "\u00a0", "%\t", ""] := by rw [← htrailing, hprogram]
  have hlines : Text.lines "N1 (A)\nG54 T5\n \n%\r\n\u00a0\r%\t\n" =
      ["N1 (A)", "G54 T5", " "] ++ ["%", "\u00a0", "%\t", ""] := by decide
  obtain rfl : kept = ["N1 (A)", "G54 T5", " "] := List.append_cancel_right (hsplit.trans hlines)
  exact hprogram

end Machining
