import Machining.Line.Codes
import Machining.Proofs.Rows

/-!
Comments cannot influence codes. Where no comment is open, a comment may be put, and it makes no difference to what
the codes of the line ask for what is in it: the pieces in front of it stay as they are, and those behind it begin at
its end whatever it says.
-/

namespace Machining.Line
open Machining.Text

/-- Scanning the text from inside a comment, or from outside, ends outside and meets no semicolon there. -/
def endsOutside : Bool → List Char → Bool
  | inside, [] => !inside
  | true, c :: cs => endsOutside (c != ')') cs
  | false, c :: cs => c != ';' && endsOutside (c == '(') cs

structure Agrees (line line' : Line) : Prop where
  number_eq : line.number = line'.number
  words_eq : line.words = line'.words
  isBoundary_eq : ∀ rule, line.isBoundary rule = line'.isBoundary rule
  isFooterTrigger_eq : line.isFooterTrigger = line'.isFooterTrigger
  offsetCode?_eq : line.offsetCode? = line'.offsetCode?
  hasToolChange_eq : line.hasToolChange = line'.hasToolChange
  toolWord?_eq : line.toolWord? = line'.toolWord?

/-- That a comment stands on the line counts for some boundaries, but not what is in it. -/
theorem Agrees.of_words {line line' : Line} (hnumber : line.number = line'.number) (hwords : line.words = line'.words)
    (hremark : line.tokens.any Token.isRemark = line'.tokens.any Token.isRemark) : Agrees line line' where
  number_eq := hnumber
  words_eq := hwords
  isBoundary_eq rule := by simp only [isBoundary, hasToolChange, hnumber, hwords, hremark]
  isFooterTrigger_eq := by rw [isFooterTrigger, hwords, isFooterTrigger]
  offsetCode?_eq := by rw [offsetCode?, hwords, offsetCode?]
  hasToolChange_eq := by rw [hasToolChange, hwords, hasToolChange]
  toolWord?_eq := by rw [toolWord?, hwords, toolWord?]

variable {cs mid more l : List Char} {p : Piece} {ps lead : List Piece}

theorem endsOutside_of_append (hl : ∀ c ∈ l, c ≠ '(') (h : endsOutside false (l ++ more) = true) :
    endsOutside false more = true := by
  induction l with
  | nil => exact h
  | cons c l ih =>
    obtain ⟨hc, hl⟩ := List.forall_mem_cons.1 hl
    simp only [List.cons_append, endsOutside, beq_eq_false_iff_ne.2 hc, Bool.and_eq_true] at h
    exact ih hl h.2

theorem endsOutside_closed (hl : ∀ c ∈ l, c ≠ ')') : endsOutside true (l ++ ')' :: more) = endsOutside false more := by
  induction l with
  | nil => rfl
  | cons c l ih =>
    obtain ⟨hc, hl⟩ := List.forall_mem_cons.1 hl
    rw [List.cons_append, endsOutside, bne_iff_ne.2 hc, ih hl]

theorem endsOutside_unclosed (hl : ∀ c ∈ l, c ≠ ')') : endsOutside true l = false := by
  induction l with
  | nil => rfl
  | cons c l ih =>
    obtain ⟨hc, hl⟩ := List.forall_mem_cons.1 hl
    rw [endsOutside, bne_iff_ne.2 hc, ih hl]

theorem endsOutside_of_begins (h : p.Begins cs more) (hcs : endsOutside false cs = true) :
    endsOutside false more = true := by
  cases h with
  | @blank c _ hc =>
    have hplain : ∀ d ∈ [c], d ≠ '(' := by simpa using ne_of_class hc rfl
    exact endsOutside_of_append hplain hcs
  | toolComment htext | comment htext => exact (endsOutside_closed htext).symm.trans hcs
  | unclosed | lineComment => rfl
  | @word c value _ hc hvalue _ =>
    have hplain : ∀ d ∈ c :: value, d ≠ '(' :=
      List.forall_mem_cons.2 ⟨ne_of_class hc rfl, fun d hd => ne_of_class (isNumeric_of_mem_isNumeral hvalue hd) rfl⟩
    exact endsOutside_of_append hplain hcs
  | @letters c d tail _ hc hd htail _ =>
    have hrest : ∀ x ∈ d :: tail, x ≠ '(' :=
      List.forall_mem_cons.2 ⟨ne_of_class hd rfl, fun x hx => ne_of_class (htail x hx) rfl⟩
    exact endsOutside_of_append (List.forall_mem_cons.2 ⟨ne_of_class hc rfl, hrest⟩) hcs
  | @letter c _ hc _ _ =>
    have hplain : ∀ d ∈ [c], d ≠ '(' := by simpa using ne_of_class hc rfl
    exact endsOutside_of_append hplain hcs
  | @numeric c run glued _ hc hrun hglued _ _ =>
    have hrest : ∀ x ∈ run ++ glued, x ≠ '(' :=
      List.forall_mem_append.2 ⟨fun x hx => ne_of_class (hrun x hx) rfl, fun x hx => ne_of_class (hglued x hx) rfl⟩
    exact endsOutside_of_append (List.forall_mem_cons.2 ⟨ne_of_class hc rfl, hrest⟩) hcs
  | @single c _ _ hinert =>
    have hplain : ∀ d ∈ [c], d ≠ '(' := by simpa using ne_of_class hinert rfl
    exact endsOutside_of_append hplain hcs

theorem endsOutside_of_lead (h : Lead cs lead mid) (hcs : endsOutside false cs = true) :
    endsOutside false mid = true := by
  have hblank {bs : List Char} (hbs : ∀ c ∈ bs, isBlank c = true) : ∀ c ∈ bs, c ≠ '(' :=
    fun c hc => ne_of_class (hbs c hc) rfl
  cases h with
  | none hbs => exact endsOutside_of_append (hblank hbs) hcs
  | @number bs digits _ c hbs hc _ hdigits _ =>
    have hrest := endsOutside_of_append (hblank hbs) hcs
    have hplain : ∀ d ∈ c :: digits, d ≠ '(' := by
      refine List.forall_mem_cons.2 ⟨?_, fun d hd => ne_of_class (hdigits d hd) rfl⟩
      rintro rfl
      cases hc
    exact endsOutside_of_append hplain hrest

theorem isOpen_eq_false_of_endsOutside (h : Row cs ps more) (hcs : endsOutside false cs = true) :
    ∀ p ∈ ps, p.isOpen = false := by
  induction h with
  | nil => simp
  | cons hp hps ih =>
    refine List.forall_mem_cons.2 ⟨?_, ih (endsOutside_of_begins hp hcs)⟩
    rw [Bool.eq_false_iff]
    intro hopen
    rcases (hp.open_form hopen).2 with ⟨text, rfl⟩ | ⟨text, rfl, htext⟩
    · simp [endsOutside] at hcs
    · have hinside : endsOutside true text = true := hcs
      rw [endsOutside_unclosed htext] at hinside
      cases hinside

theorem pieces_append {a s : List Char} (ha : endsOutside false a = true) (hs : ∀ d ∈ s.head?, d = '(' ∨ d = ';') :
    pieces (a ++ s) = pieces a ++ munch Piece.next s := by
  obtain ⟨lead, mid, ps, hlead, hps⟩ := exists_lead_row a
  have hpieces := pieces_of_lead hlead hps
  have hopen := isOpen_eq_false_of_endsOutside hps (endsOutside_of_lead hlead ha)
  have hstop : ∀ d ∈ s.head?, isStop d = true ∧ isBlank d = false := by
    intro d hd
    rcases hs d hd with rfl | rfl <;> decide
  have hexchange := pieces_exchange hlead hps hopen (fun d hd => (hstop d hd).1) fun _ d hd => (hstop d hd).2
  rwa [← hpieces, flatMap_source_pieces] at hexchange

def wordsFrom (cs : List Char) : List Word := ((munch Piece.next cs).filterMap Piece.token?).filterMap Token.word?

theorem word?_of_isRemark {t : Token} (h : t.isRemark = true) : t.word? = none := by
  cases t with
  | comment | toolComment => rfl
  | word | other => cases h

section Appended

variable {a s source : List Char} {t : Token}

theorem head_of_isRemark (hp : (Piece.token t source).Begins s more) (ht : t.isRemark = true) :
    ∀ d ∈ s.head?, d = '(' ∨ d = ';' := by
  cases hp with
  | toolComment | comment | unclosed | lineComment => simp
  | word | letters | letter | numeric | single => cases ht

theorem number_append (ha : endsOutside false a = true) (hs : ∀ d ∈ s.head?, d = '(' ∨ d = ';') :
    (ofChars (a ++ s)).number = (ofChars a).number := by
  obtain ⟨ps, hps⟩ := Row.exists_row s
  have hmunch : munch Piece.next s = ps := by rw [hps.munch_eq, munch_nil, List.append_nil]
  simp only [ofChars, pieces_append ha hs, List.findSome?_append, hmunch, hps.findSome?_number?, Option.or_none]

theorem tokens_append (ha : endsOutside false a = true) (hp : (Piece.token t source).Begins s more)
    (ht : t.isRemark = true) :
    (ofChars (a ++ s)).tokens = (ofChars a).tokens ++ t :: (munch Piece.next more).filterMap Piece.token? := by
  simp only [ofChars, pieces_append ha (head_of_isRemark hp ht), List.filterMap_append, hp.munch_eq]
  rfl

theorem words_append (ha : endsOutside false a = true) (hp : (Piece.token t source).Begins s more)
    (ht : t.isRemark = true) : (ofChars (a ++ s)).words = (ofChars a).words ++ wordsFrom more := by
  rw [words, tokens_append ha hp ht, List.filterMap_append, List.filterMap_cons_none (word?_of_isRemark ht)]
  rfl

theorem agrees_append {s' source' : List Char} {t' : Token} (ha : endsOutside false a = true)
    (hp : (Piece.token t source).Begins s more) (ht : t.isRemark = true)
    (hp' : (Piece.token t' source').Begins s' more) (ht' : t'.isRemark = true) :
    Agrees (ofChars (a ++ s)) (ofChars (a ++ s')) := by
  apply Agrees.of_words
  · rw [number_append ha (head_of_isRemark hp ht), number_append ha (head_of_isRemark hp' ht')]
  · rw [words_append ha hp ht, words_append ha hp' ht']
  · simp [tokens_append ha hp ht, tokens_append ha hp' ht', ht, ht']

end Appended

theorem exists_remark {c : List Char} (hc : ')' ∉ c) (b : List Char) :
    ∃ (t : Token) (source : List Char), (Piece.token t source).Begins ('(' :: (c ++ ')' :: b)) b ∧ t.isRemark = true := by
  have htext : ∀ d ∈ c, d ≠ ')' := fun d hd h => hc (h ▸ hd)
  cases htool : toolComment? c with
  | none => exact ⟨_, _, .comment htext htool, rfl⟩
  | some found => exact ⟨_, _, .toolComment htext htool, rfl⟩

/-- What stands in a comment makes no difference to the line number and to what its codes ask for. -/
theorem agrees_of_endsOutside {a : String} (ha : endsOutside false a.toList = true) :
    (∀ b c c' : String, ')' ∉ c.toList → ')' ∉ c'.toList →
      Agrees (read (a ++ "(" ++ c ++ ")" ++ b)) (read (a ++ "(" ++ c' ++ ")" ++ b))) ∧
    ∀ d d' : String, Agrees (read (a ++ ";" ++ d)) (read (a ++ ";" ++ d')) ∧
      (read (a ++ ";" ++ d)).number = (read a).number ∧ (read (a ++ ";" ++ d)).words = (read a).words := by
  constructor
  · intro b c c' hc hc'
    have hchars (x : String) : (a ++ "(" ++ x ++ ")" ++ b).toList = a.toList ++ '(' :: (x.toList ++ ')' :: b.toList) := by
      simp
    obtain ⟨t, source, hp, ht⟩ := exists_remark hc b.toList
    obtain ⟨t', source', hp', ht'⟩ := exists_remark hc' b.toList
    simp only [read, hchars]
    exact agrees_append ha hp ht hp' ht'
  · intro d d'
    have hchars (x : String) : (a ++ ";" ++ x).toList = a.toList ++ ';' :: x.toList := by simp
    have hp (x : String) :
        (Piece.token (.comment x.toList) (';' :: x.toList)).Begins (';' :: x.toList) [] := .lineComment
    simp only [read, hchars]
    refine ⟨agrees_append ha (hp d) rfl (hp d') rfl, number_append ha (head_of_isRemark (hp d) rfl), ?_⟩
    rw [words_append ha (hp d) rfl]
    exact List.append_nil _

/-- The semicolon in the comment is not outside, and what follows the comment is read again. -/
theorem agrees_of_endsOutside_tool :
    endsOutside false "N5(M6;)G0".toList = true ∧
      Agrees (read ("N5(M6;)G0" ++ "(" ++ "TOOL 1: M6" ++ ")" ++ "X1")) (read ("N5(M6;)G0" ++ "(" ++ "(" ++ ")" ++ "X1")) := by
  have ha : endsOutside false "N5(M6;)G0".toList = true := by decide
  exact ⟨ha, (agrees_of_endsOutside ha).1 "X1" "TOOL 1: M6" "(" (by decide) (by decide)⟩

end Machining.Line
