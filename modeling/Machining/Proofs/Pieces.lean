import Machining.Proofs.Numerals

/-!
The pieces of a line, without the way they are read. `Piece.Begins` says of each kind of piece what it looks like, and
what may stand behind it: a word ends where its number cannot go on, letters in a row and numbers end in front of
the first character that they do not swallow, and a comment ends at its closing parenthesis or with the line. Every
text but the empty one begins with a piece, and that is the one that the reader takes.
-/

namespace Machining.Line
open Machining.Text

def swallows (c : Char) : Bool := c.isAlphanum || c == '.'

theorem isInert_of_isBlank {c : Char} (h : isBlank c = true) : isInert c = true := by
  simp only [isBlank, Bool.or_eq_true, beq_iff_eq] at h
  rcases h with rfl | rfl <;> decide

theorem isBlank_eq_false_of_not_isInert {c : Char} (h : isInert c = false) : isBlank c = false := by
  rw [Bool.eq_false_iff]
  intro hblank
  exact absurd (isInert_of_isBlank hblank) (by simp [h])

inductive Piece.Begins : List Char → Piece → List Char → Prop
  | blank {c : Char} {more : List Char} (hc : isBlank c = true) : Begins (c :: more) (.blank c) more
  | toolComment {text more digits description : List Char} (htext : ∀ c ∈ text, c ≠ ')')
      (htool : toolComment? text = some (digits, description)) :
      Begins ('(' :: (text ++ ')' :: more)) (.token (.toolComment digits description) ('(' :: (text ++ [')']))) more
  | comment {text more : List Char} (htext : ∀ c ∈ text, c ≠ ')') (htool : toolComment? text = none) :
      Begins ('(' :: (text ++ ')' :: more)) (.token (.comment text) ('(' :: (text ++ [')']))) more
  | unclosed {text : List Char} (htext : ∀ c ∈ text, c ≠ ')') :
      Begins ('(' :: text) (.token (.comment text) ('(' :: text)) []
  | lineComment {text : List Char} : Begins (';' :: text) (.token (.comment text) (';' :: text)) []
  | word {c : Char} {value more : List Char} (hc : c.isAlpha = true) (hvalue : IsNumeral value)
      (hmore : EndsNumeral value more) :
      Begins (c :: (value ++ more)) (.token (.word ⟨c.toUpper, value⟩) (c :: value)) more
  | letters {c d : Char} {tail more : List Char} (hc : c.isAlpha = true) (hd : d.isAlpha = true)
      (htail : ∀ x ∈ tail, swallows x = true) (hmore : ∀ x ∈ more.head?, swallows x = false) :
      Begins (c :: d :: (tail ++ more)) (.token (.other (c :: d :: tail)) (c :: d :: tail)) more
  | letter {c : Char} {more : List Char} (hc : c.isAlpha = true) (hvalue : numeral more = [])
      (hmore : ∀ x ∈ more.head?, x.isAlpha = false) : Begins (c :: more) (.token (.other [c]) [c]) more
  | numeric {c : Char} {run glued more : List Char} (hc : isNumeric c = true) (hrun : ∀ x ∈ run, isNumeric x = true)
      (hglued : ∀ x ∈ glued, x.isAlphanum = true) (hstop : ∀ x ∈ (glued ++ more).head?, isNumeric x = false)
      (hmore : ∀ x ∈ more.head?, x.isAlphanum = false) :
      Begins (c :: (run ++ glued ++ more)) (.token (.other (c :: (run ++ glued))) (c :: (run ++ glued))) more
  | single {c : Char} {more : List Char} (hblank : isBlank c = false) (hinert : isInert c = true) :
      Begins (c :: more) (.token (.other [c]) [c]) more

namespace Piece.Begins

variable {cs more : List Char} {p : Piece}

theorem source_append (h : Begins cs p more) : p.source ++ more = cs := by
  cases h <;> simp [Piece.source]

theorem exists_parenthesis (rest : List Char) : ∃ p more, Begins ('(' :: rest) p more := by
  obtain ⟨text, r, rfl, htext, hstop⟩ := exists_cut (· != ')') rest
  have htext : ∀ c ∈ text, c ≠ ')' := fun c hc => bne_iff_ne.1 (htext c hc)
  cases r with
  | nil => exact ⟨_, _, by simpa using unclosed htext⟩
  | cons c more =>
    obtain rfl : c = ')' := by simpa using hstop c rfl
    cases htool : toolComment? text with
    | none => exact ⟨_, _, comment htext htool⟩
    | some found => exact ⟨_, _, toolComment htext htool⟩

theorem exists_lettered {c : Char} (hc : c.isAlpha = true) (rest : List Char) : ∃ p more, Begins (c :: rest) p more := by
  by_cases hvalue : numeral rest = []
  · by_cases hhead : ∀ x ∈ rest.head?, x.isAlpha = false
    · exact ⟨_, _, letter hc hvalue hhead⟩
    · obtain ⟨d, rest, rfl, hd⟩ : ∃ d more, rest = d :: more ∧ d.isAlpha = true := by
        cases rest with
        | nil => simp at hhead
        | cons d more => exact ⟨d, more, rfl, by simpa using hhead⟩
      obtain ⟨tail, more, rfl, htail, hmore⟩ := exists_cut swallows rest
      exact ⟨_, _, letters hc hd htail hmore⟩
  · obtain ⟨value, more, rfl, hnumeral, hmore⟩ := exists_numeral hvalue
    exact ⟨_, _, word hc hnumeral hmore⟩

theorem exists_numeric {c : Char} (hc : isNumeric c = true) (rest : List Char) : ∃ p more, Begins (c :: rest) p more := by
  obtain ⟨run, r, rfl, hrun, hstop⟩ := exists_cut isNumeric rest
  obtain ⟨glued, more, rfl, hglued, hmore⟩ := exists_cut Char.isAlphanum r
  rw [← List.append_assoc]
  exact ⟨_, _, numeric hc hrun hglued hstop hmore⟩

theorem exists_of_cons (c : Char) (rest : List Char) : ∃ p more, Begins (c :: rest) p more := by
  cases hblank : isBlank c with
  | true => exact ⟨_, _, blank hblank⟩
  | false =>
    by_cases hopen : c = '('
    · subst hopen
      exact exists_parenthesis rest
    by_cases hsemicolon : c = ';'
    · subst hsemicolon
      exact ⟨_, _, lineComment⟩
    cases halpha : c.isAlpha with
    | true => exact exists_lettered halpha rest
    | false =>
      cases hnumeric : isNumeric c with
      | true => exact exists_numeric hnumeric rest
      | false => exact ⟨_, _, single hblank (by simp [isInert, halpha, hnumeric, hopen, hsemicolon])⟩

theorem lexeme_of_isAlpha {c : Char} (h : c.isAlpha = true) :
    isBlank c = false ∧ ∀ rest, lexeme c rest = lettered c rest := by
  have hopen : c ≠ '(' := ne_of_class h rfl
  have hsemicolon : c ≠ ';' := ne_of_class h rfl
  exact ⟨isBlank_eq_false_of_not_isInert (by simp [isInert, h]), fun rest => by simp [lexeme, hopen, hsemicolon, h]⟩

theorem lexeme_of_isNumeric {c : Char} (h : isNumeric c = true) :
    isBlank c = false ∧ ∀ rest, lexeme c rest = Line.numeric c rest := by
  have hopen : c ≠ '(' := ne_of_class h rfl
  have hsemicolon : c ≠ ';' := ne_of_class h rfl
  have halpha := isAlpha_eq_false_of_isNumeric h
  refine ⟨isBlank_eq_false_of_not_isInert (by simp [isInert, h]), fun rest => ?_⟩
  simp [lexeme, hopen, hsemicolon, halpha, h]

theorem munch_of_lexeme {c : Char} (tail more : List Char) {t : Token} (hc : isBlank c = false)
    (h : lexeme c (tail ++ more) = (t, tail.length)) :
    munch Piece.next (c :: (tail ++ more)) = .token t (c :: tail) :: munch Piece.next more := by
  simp [munch_cons, Piece.next, hc, h]

theorem takeWhile_text {text : List Char} (htext : ∀ c ∈ text, c ≠ ')') (more : List Char) :
    (text ++ ')' :: more).takeWhile (· != ')') = text ∧ (text ++ ')' :: more).dropWhile (· != ')') = ')' :: more := by
  have hall : ∀ c ∈ text, (c != ')') = true := fun c hc => bne_iff_ne.2 (htext c hc)
  exact ⟨takeWhile_append_stop hall (by simp), dropWhile_append_stop hall (by simp)⟩

theorem munch_eq (h : Begins cs p more) : munch Piece.next cs = p :: munch Piece.next more := by
  cases h with
  | blank hc => simp [munch_cons, Piece.next, hc]
  | toolComment htext htool =>
    obtain ⟨htake, hdrop⟩ := takeWhile_text htext more
    rw [List.append_cons]
    apply munch_of_lexeme _ more rfl
    simp [lexeme, parenthesis, htake, hdrop, htool]
  | comment htext htool =>
    obtain ⟨htake, hdrop⟩ := takeWhile_text htext more
    rw [List.append_cons]
    apply munch_of_lexeme _ more rfl
    simp [lexeme, parenthesis, htake, hdrop, htool]
  | @unclosed text htext =>
    have hall : ∀ c ∈ text, (c != ')') = true := fun c hc => bne_iff_ne.2 (htext c hc)
    have htake : text.takeWhile (· != ')') = text := List.takeWhile_eq_self_iff.2 hall
    have hdrop : text.dropWhile (· != ')') = [] := List.dropWhile_eq_nil_iff.2 hall
    simpa using munch_of_lexeme _ [] rfl (by simp [lexeme, parenthesis, htake, hdrop])
  | lineComment => simpa using munch_of_lexeme _ [] rfl (by simp [lexeme])
  | @word c value _ hc hvalue hmore =>
    obtain ⟨hblank, hlexeme⟩ := lexeme_of_isAlpha hc
    apply munch_of_lexeme _ more hblank
    simp [hlexeme, lettered, numeral_append hvalue hmore, isNumeral_ne_nil hvalue]
  | @letters c d tail _ hc hd htail hmore =>
    obtain ⟨hblank, hlexeme⟩ := lexeme_of_isAlpha hc
    have hvalue : numeral (d :: (tail ++ more)) = [] := numeral_of_isAlpha hd _
    have hrow : (d :: (tail ++ more)).takeWhile (fun x => x.isAlphanum || x == '.') = d :: tail := by
      apply takeWhile_append_stop (p := swallows) (l := d :: tail) _ hmore
      exact List.forall_mem_cons.2 ⟨by simp [swallows, Char.isAlphanum, hd], htail⟩
    rw [← List.cons_append]
    apply munch_of_lexeme _ more hblank
    simp [hlexeme, lettered, hvalue, hd, hrow]
  | @letter c _ hc hvalue hmore =>
    obtain ⟨hblank, hlexeme⟩ := lexeme_of_isAlpha hc
    have hhead : more.head?.any Char.isAlpha = false := by
      cases more with
      | nil => rfl
      | cons d more => simpa using hmore d rfl
    apply munch_of_lexeme [] more hblank
    simp [hlexeme, lettered, hvalue, hhead]
  | @numeric c run glued _ hc hrun hglued hstop hmore =>
    obtain ⟨hblank, hlexeme⟩ := lexeme_of_isNumeric hc
    have htake : (run ++ (glued ++ more)).takeWhile isNumeric = run := takeWhile_append_stop hrun hstop
    have hdrop : (run ++ (glued ++ more)).dropWhile isNumeric = glued ++ more := dropWhile_append_stop hrun hstop
    have hglue : (glued ++ more).takeWhile Char.isAlphanum = glued := takeWhile_append_stop hglued hmore
    apply munch_of_lexeme _ more hblank
    simp [hlexeme, Line.numeric, htake, hdrop, hglue]
  | single hblank hinert =>
    apply munch_of_lexeme [] more hblank
    exact lexeme_of_isInert hinert _

end Piece.Begins

end Machining.Line
