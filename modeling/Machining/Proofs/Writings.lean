import Mathlib.Data.List.Chain
import Machining.Proofs.ByteLines

/-!
Texts as lines with the ends between them. There is one way to write a text so, if no return is an end of its own in
front of a line feed. Taking a text apart as its lines are cut gives a writing of this kind, and from the characters of
such a writing it gives back every line and every end.
-/

namespace Machining.Text

inductive LineEnd
  | pair
  | ret
  | feed
  deriving DecidableEq, Repr

def LineEnd.chars : LineEnd → List Char
  | .pair => ['\r', '\n']
  | .ret => ['\r']
  | .feed => ['\n']

structure Writing where
  first : List Char
  rest : List (LineEnd × List Char)
  deriving DecidableEq, Repr

namespace Writing

def chars (w : Writing) : List Char := w.first ++ w.rest.flatMap fun p => p.1.chars ++ p.2

def lines (w : Writing) : List (List Char) := w.first :: w.rest.map Prod.snd

/-- No line holds an end, and no return stands directly in front of a line feed that is an end of its own. -/
structure IsProper (w : Writing) : Prop where
  unbroken : ∀ l ∈ w.lines, Unbroken l
  unpaired : w.rest.IsChain fun p q => ¬(p = (.ret, []) ∧ q.1 = .feed)

def prepend (front : List Char) (w : Writing) : Writing := { w with first := front ++ w.first }

def close (e : LineEnd) (w : Writing) : Writing := ⟨[], (e, w.first) :: w.rest⟩

def ofChars : List Char → Writing
  | [] => ⟨[], []⟩
  | '\r' :: '\n' :: rest => (ofChars rest).close .pair
  | c :: rest =>
    if c = '\n' then (ofChars rest).close .feed
    else if c = '\r' then (ofChars rest).close .ret
    else (ofChars rest).prepend [c]

variable {w : Writing} {cs front : List Char} {c : Char}

theorem chars_close (e : LineEnd) (w : Writing) : (w.close e).chars = e.chars ++ w.chars := by
  simp [chars, close]

theorem chars_prepend (front : List Char) (w : Writing) : (w.prepend front).chars = front ++ w.chars := by
  simp [chars, prepend]

theorem chars_ofChars (cs : List Char) : (ofChars cs).chars = cs := by
  fun_induction ofChars cs with
  | case1 => rfl
  | case2 rest ih => rw [chars_close, ih]; rfl
  | case3 rest hne ih => rw [chars_close, ih]; rfl
  | case4 rest hne hc ih => rw [chars_close, ih]; rfl
  | case5 c rest hne hfeed hret ih => rw [chars_prepend, ih]; rfl

theorem lines_ofChars (cs : List Char) : (ofChars cs).lines = betweenEnds cs := by
  fun_induction ofChars cs with
  | case1 => rfl
  | case2 rest ih => rw [betweenEnds, ← ih]; rfl
  | case3 rest hne ih => rw [betweenEnds.eq_3 _ _ hne, if_pos (.inl rfl), ← ih]; rfl
  | case4 rest hne hc ih => rw [betweenEnds.eq_3 _ _ hne, if_pos (.inr rfl), ← ih]; rfl
  | case5 c rest hne hfeed hret ih => rw [betweenEnds_cons ⟨hfeed, hret⟩, ← ih]; rfl

theorem ofChars_cons (hc : c ≠ '\n' ∧ c ≠ '\r') (cs : List Char) : ofChars (c :: cs) = (ofChars cs).prepend [c] := by
  rw [ofChars.eq_3 c cs fun _ h => absurd h hc.2, if_neg hc.1, if_neg hc.2]

theorem ofChars_append (h : Unbroken front) (cs : List Char) : ofChars (front ++ cs) = (ofChars cs).prepend front := by
  induction front with
  | nil => rfl
  | cons c front ih =>
    obtain ⟨hc, hfront⟩ := unbroken_cons_iff.1 h
    rw [List.cons_append, ofChars_cons hc, ih hfront]
    rfl

theorem ofChars_end {e : LineEnd} (h : e = .ret → '\n' ∉ cs.head?) :
    ofChars (e.chars ++ cs) = (ofChars cs).close e := by
  cases e with
  | pair => rfl
  | feed => rfl
  | ret =>
    have hne : ∀ rest, '\r' = '\r' → cs = '\n' :: rest → False := by
      rintro rest - rfl
      exact h rfl rfl
    exact ofChars.eq_3 '\r' cs hne

theorem isProper_nil : IsProper ⟨[], []⟩ := ⟨List.forall_mem_singleton.2 unbroken_nil, List.isChain_nil⟩

theorem isProper_prepend_iff : (w.prepend front).IsProper ↔ Unbroken front ∧ w.IsProper := by
  constructor
  · rintro ⟨hunbroken, hunpaired⟩
    obtain ⟨hfirst, hrest⟩ := List.forall_mem_cons.1 hunbroken
    obtain ⟨hfront, hfirst⟩ := unbroken_append_iff.1 hfirst
    exact ⟨hfront, List.forall_mem_cons.2 ⟨hfirst, hrest⟩, hunpaired⟩
  · rintro ⟨hfront, hunbroken, hunpaired⟩
    obtain ⟨hfirst, hrest⟩ := List.forall_mem_cons.1 hunbroken
    exact ⟨List.forall_mem_cons.2 ⟨unbroken_append_iff.2 ⟨hfront, hfirst⟩, hrest⟩, hunpaired⟩

theorem feed_mem_head_iff (h : Unbroken w.first) :
    '\n' ∈ w.chars.head? ↔ w.first = [] ∧ ∃ p ∈ w.rest.head?, p.1 = .feed := by
  obtain ⟨first, rest⟩ := w
  cases first with
  | cons c first => simp [chars, (unbroken_cons_iff.1 h).1.1]
  | nil =>
    cases rest with
    | nil => simp [chars]
    | cons p rest =>
      obtain ⟨e, l⟩ := p
      cases e <;> simp [chars, LineEnd.chars]

theorem isProper_close_iff {e : LineEnd} :
    (w.close e).IsProper ↔ w.IsProper ∧ (e = .ret → '\n' ∉ w.chars.head?) := by
  constructor
  · rintro ⟨hunbroken, hunpaired⟩
    obtain ⟨hhead, hrest⟩ := List.isChain_cons.1 hunpaired
    have hw : w.IsProper := ⟨(List.forall_mem_cons.1 hunbroken).2, hrest⟩
    refine ⟨hw, ?_⟩
    rintro rfl hfeed
    obtain ⟨hfirst, p, hp, hpe⟩ := (feed_mem_head_iff (hw.unbroken _ List.mem_cons_self)).1 hfeed
    exact hhead p hp ⟨by rw [hfirst], hpe⟩
  · rintro ⟨hw, hhead⟩
    refine ⟨List.forall_mem_cons.2 ⟨unbroken_nil, hw.unbroken⟩, List.isChain_cons.2 ⟨?_, hw.unpaired⟩⟩
    rintro p hp ⟨heq, hpe⟩
    obtain ⟨rfl, hfirst⟩ := Prod.mk.inj heq
    exact hhead rfl ((feed_mem_head_iff (hw.unbroken _ List.mem_cons_self)).2 ⟨hfirst, p, hp, hpe⟩)

theorem isProper_ofChars (cs : List Char) : (ofChars cs).IsProper := by
  fun_induction ofChars cs with
  | case1 => exact isProper_nil
  | case2 rest ih => exact isProper_close_iff.2 ⟨ih, fun h => absurd h (by decide)⟩
  | case3 rest hne ih => exact isProper_close_iff.2 ⟨ih, fun h => absurd h (by decide)⟩
  | case4 rest hne hc ih =>
    refine isProper_close_iff.2 ⟨ih, fun _ hfeed => ?_⟩
    rw [chars_ofChars] at hfeed
    obtain ⟨more, rfl⟩ := List.head?_eq_some_iff.1 hfeed
    exact hne more rfl rfl
  | case5 c rest hne hfeed hret ih =>
    exact isProper_prepend_iff.2 ⟨unbroken_cons_iff.2 ⟨⟨hfeed, hret⟩, unbroken_nil⟩, ih⟩

theorem ofChars_chars (h : w.IsProper) : ofChars w.chars = w := by
  obtain ⟨first, rest⟩ := w
  induction rest generalizing first with
  | nil =>
    have hfirst : Unbroken first := h.unbroken first List.mem_cons_self
    have hsplit := ofChars_append hfirst []
    rw [chars, List.flatMap_nil, hsplit, ofChars, prepend, List.append_nil]
  | cons p rest ih =>
    obtain ⟨e, l⟩ := p
    have hw : (⟨first, (e, l) :: rest⟩ : Writing) = ((⟨l, rest⟩ : Writing).close e).prepend first := by
      rw [close, prepend, List.append_nil]
    rw [hw] at h ⊢
    obtain ⟨hfirst, hclose⟩ := isProper_prepend_iff.1 h
    obtain ⟨hproper, hhead⟩ := isProper_close_iff.1 hclose
    rw [chars_prepend, ofChars_append hfirst, chars_close, ofChars_end hhead, ih l hproper]

end Writing

/-- Every text but the empty one is written in one way, whose lines are those that the text is cut into; the cut is made
between characters. Lines joined are cut apart again. -/
theorem lines_writing :
    (∀ text : String, text ≠ "" → ∃ w : Writing, w.IsProper ∧ w.chars = text.toList ∧
      lines text = w.lines.map String.ofList ∧ ∀ w' : Writing, w'.IsProper → w'.chars = text.toList → w' = w) ∧
    lines "" = [] ∧ (∀ text, cutLines? text = some (lines text)) ∧
    ∀ ls : List String, ls ≠ [""] → (∀ l ∈ ls, Unbroken l.toList) → lines (join ls) = ls := by
  refine ⟨fun text htext => ?_, lines_empty, cutLines?_eq, fun ls hne hunbroken => lines_join hunbroken hne⟩
  refine ⟨.ofChars text.toList, Writing.isProper_ofChars _, Writing.chars_ofChars _, ?_, fun w hproper hchars => ?_⟩
  · rw [Writing.lines_ofChars]
    exact lines_eq_betweenEnds htext
  · rw [← hchars, Writing.ofChars_chars hproper]

theorem lines_writing_mixed :
    (∃ w : Writing, w = ⟨['a'], [(.pair, []), (.pair, ['ä']), (.feed, []), (.ret, [])]⟩ ∧ w.IsProper ∧
      w.chars = "a\r\n\r\nä\n\r".toList ∧ lines "a\r\n\r\nä\n\r" = w.lines.map String.ofList ∧
      ∀ w' : Writing, w'.IsProper → w'.chars = "a\r\n\r\nä\n\r".toList → w' = w) ∧
    cutLines? "a\r\n\r\nä\n\r" = some ["a", "", "ä", "", ""] ∧ lines (join ["ä", "", ""]) = ["ä", "", ""] := by
  obtain ⟨hwriting, -, hcut, hjoin⟩ := lines_writing
  obtain ⟨w, hproper, hchars, hlines, hunique⟩ := hwriting "a\r\n\r\nä\n\r" (by decide)
  have hw := hunique _ (Writing.isProper_ofChars _) (Writing.chars_ofChars _)
  have hof : Writing.ofChars "a\r\n\r\nä\n\r".toList =
      ⟨['a'], [(.pair, []), (.pair, ['ä']), (.feed, []), (.ret, [])]⟩ := by decide
  refine ⟨⟨w, hw.symm.trans hof, hproper, hchars, hlines, hunique⟩, (hcut _).trans (by decide), ?_⟩
  exact hjoin ["ä", "", ""] (by decide) (by decide)

end Machining.Text
