import Machining.Proofs.Rows

/-!
Blanks between tokens. They may be put in front of the line number and of every token, and behind the last one unless
it is a comment that only the end of the line ends: the line is read as before. So it makes no difference whether
words are glued or spaced.
-/

namespace Machining.Line
open Machining.Text

def Piece.isGap : Piece → Bool | .blank _ => true | _ => false

/-- The place between the parts is the start of the line number or of a token, or the end of the last one. -/
inductive Seam (front rear : List Char) : Prop
  | start (ps : List Piece) (p : Piece) (qs : List Piece) (h : pieces (front ++ rear) = ps ++ p :: qs)
      (hfront : ps.flatMap Piece.source = front) (hp : p.isGap = false)
  | finish (ps : List Piece) (p : Piece) (qs : List Piece) (h : pieces (front ++ rear) = ps ++ p :: qs)
      (hfront : (ps ++ [p]).flatMap Piece.source = front) (hp : p.isGap = false) (hclosed : p.isOpen = false)
      (hqs : ∀ q ∈ qs, q.isGap = true)

variable {cs mid more front rear bs : List Char} {p : Piece} {ps qs lead : List Piece}

theorem Row.isOpen_eq_false (h : Row cs ps more) (hmore : more ≠ []) : ∀ p ∈ ps, p.isOpen = false := by
  induction h with
  | nil => simp
  | @cons _ mid _ p _ hp hps ih =>
    refine List.forall_mem_cons.2 ⟨?_, ih hmore⟩
    rw [Bool.eq_false_iff]
    intro hopen
    have hnil := hps.source_append.trans (hp.open_form hopen).1
    exact hmore (List.append_eq_nil_iff.1 hnil).2

theorem Row.isOpen_eq_false_of_last (h : Row cs ps more) (hlast : ∀ p ∈ ps.getLast?, p.isOpen = false) :
    ∀ p ∈ ps, p.isOpen = false := by
  rcases List.eq_nil_or_concat' ps with rfl | ⟨ps, p, rfl⟩
  · simp
  · obtain ⟨mid, hps, hp⟩ := h.exists_of_append
    refine List.forall_mem_append.2 ⟨?_, by simpa using hlast⟩
    cases hp with
    | cons hbegins => exact hps.isOpen_eq_false hbegins.ne_nil

theorem munch_blanks_append (hbs : ∀ c ∈ bs, isBlank c = true) :
    munch Piece.next (bs ++ cs) = bs.map .blank ++ munch Piece.next cs := by
  induction bs with
  | nil => rfl
  | cons c bs ih =>
    obtain ⟨hc, hbs⟩ := List.forall_mem_cons.1 hbs
    have hbegins : Piece.Begins (c :: (bs ++ cs)) (.blank c) (bs ++ cs) := .blank hc
    rw [List.cons_append, hbegins.munch_eq, ih hbs, List.map_cons, List.cons_append]

theorem pieces_blanks_append (hbs : ∀ c ∈ bs, isBlank c = true) : pieces (bs ++ cs) = bs.map .blank ++ pieces cs := by
  rw [pieces, List.takeWhile_append_of_pos hbs, List.dropWhile_append_of_pos hbs, List.map_append, List.append_assoc,
    pieces]

def ofPieces (ps : List Piece) : Line := ⟨ps.findSome? Piece.number?, ps.filterMap Piece.token?⟩

theorem ofChars_eq (cs : List Char) : ofChars cs = ofPieces (pieces cs) := rfl

theorem ofPieces_blanks (ps qs : List Piece) (bs : List Char) :
    ofPieces (ps ++ bs.map .blank ++ qs) = ofPieces (ps ++ qs) := by
  have htokens : (bs.map Piece.blank).filterMap Piece.token? = [] := by simp [Piece.token?]
  simp only [ofPieces, List.findSome?_append, List.filterMap_append, findSome?_number?_blank, htokens, Option.or_none,
    List.append_nil]

theorem Lead.isBlank_of_concat {q : Piece} (h : Lead cs (ps ++ [q]) mid) :
    ∀ c ∈ ps.flatMap Piece.source, isBlank c = true := by
  generalize hlead : ps ++ [q] = lead at h
  cases h with
  | @none bs _ hbs =>
    have hsource : (ps ++ [q]).flatMap Piece.source = bs := by rw [hlead, flatMap_source_blank]
    intro c hc
    apply hbs
    rw [← hsource, List.flatMap_append]
    exact List.mem_append_left _ hc
  | @number bs _ _ _ hbs =>
    obtain ⟨rfl, -⟩ := List.append_inj' hlead rfl
    rwa [flatMap_source_blank]

theorem Lead.exists_of_append {row : List Piece} (h : Lead cs lead mid) (hrow : lead ++ row = ps ++ qs)
    (hplace : ∃ c ∈ ps.flatMap Piece.source, isBlank c = false) : ∃ before, ps = lead ++ before ∧ row = before ++ qs := by
  rcases List.append_eq_append_iff.1 hrow with hbefore | ⟨more, rfl, rfl⟩
  · exact hbefore
  · rcases List.eq_nil_or_concat' more with rfl | ⟨more, q, rfl⟩
    · exact ⟨[], by simp, rfl⟩
    · obtain ⟨c, hc, hblank⟩ := hplace
      rw [← List.append_assoc] at h
      have hall := h.isBlank_of_concat c (by rw [List.flatMap_append]; exact List.mem_append_left _ hc)
      exact absurd hall (by simp [hblank])

theorem exists_rows (h : pieces (front ++ rear) = ps ++ qs) (hfront : ps.flatMap Piece.source = front)
    (hplace : ∃ c ∈ front, isBlank c = false) :
    ∃ lead before mid, ps = lead ++ before ∧ Lead (front ++ rear) lead mid ∧ Row mid before rear ∧ Row rear qs [] := by
  obtain ⟨lead, mid, row, hlead, hrow⟩ := exists_lead_row (front ++ rear)
  rw [pieces_of_lead hlead hrow] at h
  obtain ⟨before, rfl, rfl⟩ := hlead.exists_of_append h (by rwa [hfront])
  obtain ⟨start, hbefore, hqs⟩ := hrow.exists_of_append
  have hsource := hlead.source_append
  rw [← hbefore.source_append, ← List.append_assoc, ← List.flatMap_append, hfront] at hsource
  obtain rfl : start = rear := List.append_cancel_left hsource
  exact ⟨lead, before, mid, rfl, hlead, hbefore, hqs⟩

theorem pieces_insert (h : pieces (front ++ rear) = ps ++ qs) (hfront : ps.flatMap Piece.source = front)
    (hclosed : qs ≠ [] ∨ ∀ p ∈ ps.getLast?, p.isOpen = false) (hplace : ∃ c ∈ front, isBlank c = false)
    (hbs : ∀ c ∈ bs, isBlank c = true) (hne : bs ≠ []) :
    pieces (front ++ (bs ++ rear)) = ps ++ bs.map .blank ++ qs := by
  obtain ⟨lead, before, mid, rfl, hlead, hbefore, hqs⟩ := exists_rows h hfront hplace
  have hopen : ∀ p ∈ before, p.isOpen = false := by
    rcases hclosed with hnext | hlast
    · cases hqs with
      | nil => exact absurd rfl hnext
      | cons hp => exact hbefore.isOpen_eq_false hp.ne_nil
    · apply hbefore.isOpen_eq_false_of_last
      intro p hp
      apply hlast
      rw [List.getLast?_append, hp]
      rfl
  have hstop : ∀ d ∈ (bs ++ rear).head?, isStop d = true := by
    obtain ⟨c, bs, rfl⟩ := List.exists_cons_of_ne_nil hne
    simp [isStop, hbs c]
  have hmixed : ¬∀ c ∈ (lead ++ before).flatMap Piece.source, isBlank c = true := by
    rw [hfront]
    intro hall
    obtain ⟨c, hc, hblank⟩ := hplace
    exact absurd (hall c hc) (by simp [hblank])
  have hexchange := pieces_exchange hlead hbefore hopen hstop fun hall => absurd hall hmixed
  rw [hfront, munch_blanks_append hbs, hqs.munch_eq, munch_nil, List.append_nil, ← List.append_assoc _ _ qs] at hexchange
  exact hexchange

theorem ofChars_insert (h : pieces (front ++ rear) = ps ++ qs) (hfront : ps.flatMap Piece.source = front)
    (hclosed : qs ≠ [] ∨ ∀ p ∈ ps.getLast?, p.isOpen = false) (hbs : ∀ c ∈ bs, isBlank c = true) :
    ofChars (front ++ (bs ++ rear)) = ofChars (front ++ rear) := by
  rw [ofChars_eq, ofChars_eq]
  by_cases hplace : ∃ c ∈ front, isBlank c = false
  · by_cases hne : bs = []
    · rw [hne, List.nil_append]
    · rw [pieces_insert h hfront hclosed hplace hbs hne, h, ofPieces_blanks]
  · have hall : ∀ c ∈ front, isBlank c = true := by simpa using hplace
    rw [pieces_blanks_append hall, pieces_blanks_append hbs, pieces_blanks_append hall, ← List.append_assoc,
      ofPieces_blanks]

/-- Blanks between tokens make no difference. -/
theorem read_insert_blanks {front rear blanks : String} (h : Seam front.toList rear.toList)
    (hblanks : ∀ c ∈ blanks.toList, isBlank c = true) : read (front ++ blanks ++ rear) = read (front ++ rear) := by
  simp only [read, String.toList_append, List.append_assoc]
  cases h with
  | start ps p qs h hfront hp => exact ofChars_insert h hfront (.inl (List.cons_ne_nil p qs)) hblanks
  | finish ps p qs h hfront hp hclosed hqs =>
    rw [List.append_cons] at h
    exact ofChars_insert h hfront (.inr (by simpa using hclosed)) hblanks

theorem read_insert_blanks_words :
    Seam "G90".toList "G54".toList ∧ (∀ c ∈ " \t".toList, isBlank c = true) ∧
      read ("G90" ++ " \t" ++ "G54") = read ("G90" ++ "G54") := by
  have hseam : Seam "G90".toList "G54".toList :=
    .start [.token (.word ⟨'G', ['9', '0']⟩) ['G', '9', '0']] (.token (.word ⟨'G', ['5', '4']⟩) ['G', '5', '4']) []
      (by decide) (by decide) (by decide)
  have hblanks : ∀ c ∈ " \t".toList, isBlank c = true := by simp [isBlank]
  exact ⟨hseam, hblanks, read_insert_blanks hseam hblanks⟩

end Machining.Line
