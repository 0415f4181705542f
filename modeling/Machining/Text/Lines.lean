/-!
Lines of a text. A line ends at a carriage return with a line feed, at a carriage return alone or at a line feed
alone; no other character ends a line, and the ends are not part of the lines. The empty text has no line, and
a text that closes with a line end has an empty last line, so joining the lines with line feeds gives the text
back with all its line ends made line feeds.
-/

namespace Machining.Text

def betweenEnds : List Char → List (List Char)
  | [] => [[]]
  | '\r' :: '\n' :: rest => [] :: betweenEnds rest
  | c :: rest =>
    if c = '\n' ∨ c = '\r' then [] :: betweenEnds rest
    else (betweenEnds rest).modifyHead (c :: ·)

/-- Goes on with the lines already `done` and with the line begun, which is held backwards. -/
def linesFrom (done : Array String) (begun : List Char) : List Char → Array String
  | [] => done.push (String.ofList begun.reverse)
  | '\r' :: '\n' :: rest => linesFrom (done.push (String.ofList begun.reverse)) [] rest
  | c :: rest =>
    if c = '\n' ∨ c = '\r' then linesFrom (done.push (String.ofList begun.reverse)) [] rest
    else linesFrom done (c :: begun) rest

def lines (text : String) : List String :=
  match text.toList with
  | [] => []
  | c :: rest => (linesFrom #[] [] (c :: rest)).toList

def join (ls : List String) : String := "\n".intercalate ls

theorem toList_linesFrom (done : Array String) (begun cs : List Char) :
    (linesFrom done begun cs).toList =
      done.toList ++ ((betweenEnds cs).modifyHead (begun.reverse ++ ·)).map String.ofList := by
  fun_induction linesFrom done begun cs with
  | case1 => simp [betweenEnds]
  | case2 done begun rest ih =>
    rw [ih]
    simp [betweenEnds, show (betweenEnds rest).modifyHead (fun l => l) = betweenEnds rest from
      by cases betweenEnds rest <;> rfl]
  | case3 done begun c rest hne hc ih =>
    rw [ih, betweenEnds.eq_3 c rest hne, if_pos hc]
    simp [show (betweenEnds rest).modifyHead (fun l => l) = betweenEnds rest from
      by cases betweenEnds rest <;> rfl]
  | case4 done begun c rest hne hc ih =>
    rw [ih, betweenEnds.eq_3 c rest hne, if_neg hc]
    cases betweenEnds rest <;> simp

theorem lines_empty : lines "" = [] := rfl

theorem lines_eq_betweenEnds {text : String} (h : text ≠ "") :
    lines text = (betweenEnds text.toList).map String.ofList := by
  unfold lines
  split
  · next he => exact absurd (String.toList_eq_nil_iff.1 he) h
  · next c rest he =>
    rw [toList_linesFrom, he]
    cases betweenEnds (c :: rest) <;> simp

theorem toList_join (ls : List String) :
    (join ls).toList = ['\n'].intercalate (ls.map String.toList) := by
  simp [join]

end Machining.Text
