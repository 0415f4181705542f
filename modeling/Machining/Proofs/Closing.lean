import Machining.Proofs.Segmentation

/-!
Taking the closing lines off an operation, by positions in its source: the idle lines at the end are counted, the first
marker among them is looked up, and the source is cut there. Here every subtraction is checked, and so is every
position at which a list is cut. No check fails, and the parts are those that `closingLines` and `Operation.dropEnd` give.
-/

namespace Machining

def sub? (m n : Nat) : Option Nat := if n ≤ m then some (m - n) else none

def splitAt? (i : Nat) (ls : List String) : Option (List String × List String) :=
  if i ≤ ls.length then some (ls.take i, ls.drop i) else none

theorem sub?_add (m n : Nat) : sub? (m + n) n = some m := by
  rw [sub?, if_pos (by omega), Nat.add_sub_cancel]

theorem splitAt?_append (ls more : List String) : splitAt? ls.length (ls ++ more) = some (ls, more) := by
  rw [splitAt?, if_pos (by simp), List.take_left, List.drop_left]

def Operation.cutClosing? (op : Operation) : Option (Operation × List String) := do
  let idle := (op.source.drop 1).reverse.takeWhile isIdle
  let first ← sub? op.source.length idle.length
  let (_, rear) ← splitAt? first op.source
  match rear.findIdx? isMarker with
  | none => some (op, [])
  | some i =>
    let count ← sub? op.source.length (first + i)
    let lastLine ← sub? op.lastLine count
    let (source, closing) ← splitAt? (first + i) op.source
    some ({ op with lastLine, source }, closing)

def idleLines (ls : List String) : List String := ((ls.drop 1).reverse.takeWhile isIdle).reverse

theorem idleLines_suffix (ls : List String) : idleLines ls <:+ ls := by
  apply List.IsSuffix.trans _ (List.drop_suffix 1 ls)
  rw [← List.reverse_prefix, idleLines, List.reverse_reverse]
  exact List.takeWhile_prefix _

theorem closingLines_eq (ls : List String) :
    closingLines ls = match (idleLines ls).findIdx? isMarker with
      | none => []
      | some i => (idleLines ls).drop i := by
  have hdrop : closingLines ls = (idleLines ls).drop ((idleLines ls).findIdx isMarker) := by
    rw [closingLines, ← idleLines, List.dropWhile_eq_drop_findIdx_not]
    simp only [Bool.not_not]
  cases hmarker : (idleLines ls).findIdx? isMarker with
  | none =>
    have hlength := List.findIdx?_eq_none_iff_findIdx_eq.1 hmarker
    simp [hdrop, hlength]
  | some i =>
    obtain ⟨-, hi⟩ := List.findIdx?_eq_some_iff_findIdx_eq.1 hmarker
    simp [hdrop, hi]

theorem exists_kept {body ls : List String} {i : Nat} (hbody : body ++ idleLines ls = ls)
    (hmarker : (idleLines ls).findIdx? isMarker = some i) :
    ∃ kept, kept.length = body.length + i ∧ kept ++ closingLines ls = ls := by
  have hi : i < (idleLines ls).length := (List.findIdx?_eq_some_iff_findIdx_eq.1 hmarker).1
  have hclosing : closingLines ls = (idleLines ls).drop i := by simp only [closingLines_eq, hmarker]
  refine ⟨body ++ (idleLines ls).take i, ?_, ?_⟩
  · rw [List.length_append, List.length_take_of_le hi.le]
  · rw [hclosing, List.append_assoc, List.take_append_drop, hbody]

theorem Operation.dropEnd_append {op : Operation} {kept closing : List String} (h : kept ++ closing = op.source) :
    op.dropEnd closing.length = { op with lastLine := op.lastLine - closing.length, source := kept } := by
  have hkept : op.source.take (op.source.length - closing.length) = kept := by
    rw [← h, List.length_append, Nat.add_sub_cancel, List.take_left]
  rw [dropEnd, hkept]

theorem Operation.cutClosing?_eq {op : Operation} (h : op.source.length ≤ op.lastLine + 1) :
    op.cutClosing? = some (op.dropEnd (closingLines op.source).length, closingLines op.source) := by
  obtain ⟨body, hbody⟩ := idleLines_suffix op.source
  have hlength := congrArg List.length hbody
  have hidle : ((op.source.drop 1).reverse.takeWhile isIdle).length = (idleLines op.source).length := by simp [idleLines]
  have hfirst : sub? op.source.length ((op.source.drop 1).reverse.takeWhile isIdle).length = some body.length := by
    rw [hidle, ← hlength, List.length_append, sub?_add]
  have hrear := splitAt?_append body (idleLines op.source)
  rw [hbody] at hrear
  simp only [cutClosing?, hfirst, hrear, Option.bind_eq_bind, Option.bind_some]
  cases hmarker : (idleLines op.source).findIdx? isMarker with
  | none =>
    have hclosing : closingLines op.source = [] := by simp only [closingLines_eq, hmarker]
    rw [hclosing, List.length_nil, dropEnd_zero]
  | some i =>
    obtain ⟨kept, hkept, hsource⟩ := exists_kept hbody hmarker
    have hclosing : (closingLines op.source).length ≤ op.lastLine := by
      have hbehind := (closingLines_suffix op.source).length_le
      rw [List.length_drop] at hbehind
      omega
    generalize closingLines op.source = closing at hsource hclosing ⊢
    have hcount : sub? op.source.length kept.length = some closing.length := by
      rw [← hsource, List.length_append, Nat.add_comm, sub?_add]
    have hlast : sub? op.lastLine closing.length = some (op.lastLine - closing.length) := if_pos hclosing
    have hcut : splitAt? kept.length op.source = some (kept, closing) := by rw [← hsource, splitAt?_append]
    simp only [← hkept, hcount, hlast, hcut, Option.bind_some, dropEnd_append hsource]

end Machining
