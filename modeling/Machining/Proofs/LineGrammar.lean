import Machining.Proofs.ParsingExpressions
import Machining.Proofs.Pieces

/-!
The grammar of a line, as parsing expressions. Blanks are skipped in front of the line number and between tokens, but
nowhere inside of them. Each kind of piece has its rule: where a text begins with a piece, the rules that are tried before its
own fail, its own reads just this piece, and the node holds all that the token is made of.
-/

namespace Machining.Line
open Machining.Text

inductive Rule
  | line
  | lineNumber
  | int
  | word
  | letter
  | number
  | bare
  | other
  | toolComment
  | toolDescription
  | comment
  | commentText
  | lineComment
  | lineCommentText
  | endOfInput
  deriving DecidableEq, Repr

namespace Grammar
open Peg

def exactly (c : Char) : Peg Rule := .char (· == c)

def letters : List Char → Peg Rule
  | [] => .empty
  | k :: key => (Peg.char (·.toUpper == k)).seq (letters key)

def blank : Peg Rule := (exactly ' ').choice (exactly '\t')

def blanks : Peg Rule := blank.many

def digit : Peg Rule := .char Char.isDigit

def alphanumeric : Peg Rule := .char Char.isAlphanum

def int : Peg Rule := .named .int digit.many1

def lineNumber : Peg Rule := .named .lineNumber ((letters ['N']).seq int)

def letter : Peg Rule := .named .letter (.char Char.isAlpha)

def sign : Peg Rule := (exactly '+').choice (exactly '-')

def magnitude : Peg Rule :=
  (digit.many1.seq ((exactly '.').seq digit.many).opt).choice ((exactly '.').seq digit.many1)

def number : Peg Rule := .named .number (sign.opt.seq magnitude)

def word : Peg Rule := .named .word (letter.seq number)

def bare : Peg Rule :=
  .named .bare ((Peg.char Char.isAlpha).seq ((Peg.char Char.isAlpha).seq
    ((Peg.char Char.isAlpha).many.seq (alphanumeric.choice (exactly '.')).many)))

def other : Peg Rule :=
  .named .other (((((digit.choice (exactly '.')).choice (exactly '+')).choice (exactly '-')).many1.seq
    alphanumeric.many).choice any)

def toClose : Peg Rule := ((absent (exactly ')')).seq any).many

def toolDescription : Peg Rule := .named .toolDescription toClose

def described : Peg Rule := (exactly ':').seq (blanks.seq (toolDescription.seq (exactly ')')))

def numbered : Peg Rule := int.seq (blanks.seq described)

def toolComment : Peg Rule :=
  .named .toolComment ((exactly '(').seq (blanks.seq ((letters ['T', 'O', 'O', 'L']).seq (blanks.seq numbered))))

def comment : Peg Rule :=
  .named .comment ((exactly '(').seq ((Peg.named .commentText toClose).seq ((exactly ')').choice (absent any))))

def lineComment : Peg Rule := .named .lineComment ((exactly ';').seq (.named .lineCommentText any.many))

def token : Peg Rule := toolComment.choice (comment.choice (lineComment.choice (word.choice (bare.choice other))))

def tokens : Peg Rule := (token.seq (blanks.seq token).many).opt

def endOfInput : Peg Rule := .named .endOfInput (absent any)

def line : Peg Rule :=
  .named .line (blanks.seq (lineNumber.opt.seq (blanks.seq (tokens.seq (blanks.seq endOfInput)))))

end Grammar

def tokenOf? : Node Rule → Option Token
  | ⟨.word, _, [letter, number]⟩ => letter.source.head?.map fun c => .word ⟨c.toUpper, number.source⟩
  | ⟨.toolComment, _, [digits, description]⟩ => some (.toolComment digits.source (trim description.source))
  | ⟨.comment, _, inner⟩ | ⟨.lineComment, _, inner⟩ => some (.comment ((inner.head?.map Node.source).getD []))
  | ⟨.bare, source, _⟩ | ⟨.other, source, _⟩ => some (.other source)
  | _ => none

def addNode (line : Line) (n : Node Rule) : Line :=
  match n.rule with
  | .lineNumber => { line with number := n.inner.head?.map Node.source }
  | .endOfInput => line
  | _ => { line with tokens := line.tokens ++ (tokenOf? n).toList }

def ofNodes (ns : List (Node Rule)) : Line := ns.foldl addNode ⟨none, []⟩

def pieceOf? (n : Node Rule) : Option Piece := (tokenOf? n).map (.token · n.source)

namespace Grammar
open Peg

variable {cs l r : List Char}

theorem takes_exactly (c : Char) : (exactly c).Takes (· == c) := takes_char _

theorem takes_blank : blank.Takes isBlank := (takes_exactly ' ').choice (takes_exactly '\t')

theorem takes_toClose : ((absent (exactly ')')).seq any).Takes (· != ')') := (takes_exactly ')').absent_any

theorem exactly_fails {c d : Char} (h : d ≠ c) : (exactly c).Parses (d :: cs) none := .charOther (by simpa using h)

theorem exactly_reads (c : Char) : (exactly c).Parses (c :: cs) (some ([], cs)) := .char (by simp)

theorem parses_blanks (hr : ∀ c ∈ r.head?, isBlank c = false) :
    blanks.Parses (l ++ r) (some ([], l.dropWhile isBlank ++ r)) := by
  have hl : ∀ c ∈ l.takeWhile isBlank, isBlank c = true := List.all_eq_true.1 List.all_takeWhile
  have hstop : ∀ c ∈ (l.dropWhile isBlank ++ r).head?, isBlank c = false :=
    forall_head_append (head_dropWhile_eq_false l) hr
  have hparses := takes_blank.parses_many hl hstop
  rwa [← List.append_assoc, List.takeWhile_append_dropWhile] at hparses

theorem parses_letters (key : List Char) (h : (l.take key.length).map Char.toUpper = key) :
    (letters key).Parses (l ++ r) (some ([], l.drop key.length ++ r)) := by
  induction key generalizing l with
  | nil => exact .empty
  | cons k key ih =>
    cases l with
    | nil => simp at h
    | cons c l =>
      simp only [List.length_cons, List.take_succ_cons, List.map_cons, List.cons.injEq] at h
      exact .seq (.char (by simp [h.1])) (ih h.2)

theorem parses_letters_none (key : List Char) (h : (l.take key.length).map Char.toUpper ≠ key)
    (hr : ∀ c ∈ r.head?, c.toUpper ∉ key) : (letters key).Parses (l ++ r) none := by
  induction key generalizing l with
  | nil => simp at h
  | cons k key ih =>
    cases l with
    | nil =>
      apply Parses.seqFirst
      apply (takes_char _).parses_none
      intro c hc
      rw [beq_eq_false_iff_ne]
      rintro rfl
      exact hr c hc List.mem_cons_self
    | cons c l =>
      simp only [List.length_cons, List.take_succ_cons, List.map_cons, ne_eq, List.cons.injEq, not_and] at h
      by_cases hc : c.toUpper = k
      · exact .seqSecond (.char (by simp [hc])) (ih (h hc) fun d hd hmem => hr d hd (List.mem_cons_of_mem k hmem))
      · exact .seqFirst (.charOther (by simpa using hc))

theorem parses_int (hne : l ≠ []) (hl : ∀ c ∈ l, c.isDigit = true) (hr : ∀ c ∈ r.head?, c.isDigit = false) :
    int.Parses (l ++ r) (some ([⟨.int, l, []⟩], r)) :=
  .named rfl ((takes_char Char.isDigit).parses_many1 hne hl hr)

theorem parses_int_none (hcs : ∀ c ∈ cs.head?, c.isDigit = false) : int.Parses cs none :=
  .namedFails ((takes_char Char.isDigit).parses_many1_none hcs)

theorem parses_magnitude {m more : List Char} (h : IsMagnitude m) (hmore : EndsNumeral m more) :
    magnitude.Parses (m ++ more) (some ([], more)) := by
  have hdigits : digit.Takes Char.isDigit := takes_char Char.isDigit
  have hstop : ∀ d ∈ more.head?, d.isDigit = false := fun d hd => (hmore d hd).1
  cases h with
  | whole _ hwhole hne =>
    have hpoint : '.' ∉ m := fun hmem => absurd (hwhole _ hmem) (by decide)
    have hfails : (exactly '.').Parses more none :=
      (takes_exactly '.').parses_none more fun d hd => beq_eq_false_iff_ne.2 ((hmore d hd).2 hpoint)
    exact .choiceFirst (.seq (hdigits.parses_many1 hne hwhole hstop) (.choiceSecond (.seqFirst hfails) .empty))
  | point whole fraction hwhole hfraction hne =>
    rw [List.append_assoc, List.cons_append]
    by_cases hnil : whole = []
    · subst hnil
      have hne : fraction ≠ [] := hne.resolve_left fun hnot => hnot rfl
      apply Parses.choiceSecond (.seqFirst (hdigits.parses_many1_none (by simp)))
      exact .seq (exactly_reads '.') (hdigits.parses_many1 hne hfraction hstop)
    · apply Parses.choiceFirst
      apply Parses.seq (hdigits.parses_many1 hnil hwhole (by simp))
      exact .choiceFirst (.seq (exactly_reads '.') (hdigits.parses_many hfraction hstop))

theorem parses_magnitude_none (h : Line.magnitude cs = []) : magnitude.Parses cs none := by
  obtain ⟨hdigit, hpoint⟩ := magnitude_eq_nil_iff.1 h
  have hdigits : digit.Takes Char.isDigit := takes_char Char.isDigit
  apply Parses.choiceSecond (.seqFirst (hdigits.parses_many1_none hdigit))
  by_cases hcs : ∃ rest, cs = '.' :: rest
  · obtain ⟨rest, rfl⟩ := hcs
    exact .seqSecond (exactly_reads '.') (hdigits.parses_many1_none (hpoint rest rfl))
  · apply Parses.seqFirst
    cases cs with
    | nil => exact .charEnd
    | cons c rest => exact exactly_fails fun hc => hcs ⟨rest, by rw [hc]⟩

theorem takes_sign : sign.Takes fun c => c == '+' || c == '-' := (takes_exactly '+').choice (takes_exactly '-')

theorem parses_number {v more : List Char} (h : IsNumeral v) (hmore : EndsNumeral v more) :
    number.Parses (v ++ more) (some ([⟨.number, v, []⟩], more)) := by
  apply Parses.named rfl
  cases h with
  | plain hm =>
    have hsign : sign.Parses (v ++ more) none := by
      obtain ⟨c, rest, rfl⟩ := List.exists_cons_of_ne_nil (isMagnitude_ne_nil hm)
      apply takes_sign.parses_none
      simpa using head_ne_sign hm rfl
    exact .seq (.choiceSecond hsign .empty) (parses_magnitude hm hmore)
  | signed sign hsign hm =>
    exact .seq (.choiceFirst (takes_sign.parses sign _ (by simpa using hsign))) (parses_magnitude hm (hmore.of_signed hsign))

theorem parses_number_none (h : numeral cs = []) : number.Parses cs none := by
  apply Parses.namedFails
  cases cs with
  | nil => exact .seqSecond (.choiceSecond (takes_sign.parses_none [] (by simp)) .empty) (parses_magnitude_none rfl)
  | cons c rest =>
    by_cases hsign : c = '+' ∨ c = '-'
    · have hrest : Line.magnitude rest = [] := by simpa [numeral, hsign] using h
      exact .seqSecond (.choiceFirst (takes_sign.parses c rest (by simpa using hsign))) (parses_magnitude_none hrest)
    · have hcs : Line.magnitude (c :: rest) = [] := by simpa [numeral, hsign] using h
      have hfails := takes_sign.parses_none (c :: rest) (by simpa using hsign)
      exact .seqSecond (.choiceSecond hfails .empty) (parses_magnitude_none hcs)

section ToolComments

variable {more : List Char} {ns : List (Node Rule)}

theorem class_of_close {p : Char → Bool} (hp : p ')' = false) (hr : ∀ c ∈ r.head?, c = ')') :
    ∀ c ∈ r.head?, p c = false := by
  intro c hc
  rw [hr c hc, hp]

theorem parses_toClose (hl : ∀ c ∈ l, c ≠ ')') (hr : ∀ c ∈ r.head?, c = ')') :
    toClose.Parses (l ++ r) (some ([], r)) :=
  takes_toClose.parses_many (fun c hc => bne_iff_ne.2 (hl c hc)) (class_of_close rfl hr)

theorem parses_toolDescription (hl : ∀ c ∈ l, c ≠ ')') (hr : ∀ c ∈ r.head?, c = ')') :
    toolDescription.Parses (l.dropWhile isBlank ++ r) (some ([⟨.toolDescription, l.dropWhile isBlank, []⟩], r)) :=
  .named rfl (parses_toClose (fun c hc => hl c ((List.dropWhile_suffix isBlank).subset hc)) hr)

theorem parses_described (hl : ∀ c ∈ l, c ≠ ')') (more : List Char) :
    described.Parses (':' :: (l ++ ')' :: more)) (some ([⟨.toolDescription, l.dropWhile isBlank, []⟩], more)) := by
  have hclose : ∀ c ∈ (')' :: more).head?, c = ')' := by simp
  apply Parses.seq (exactly_reads ':')
  apply Parses.seq (parses_blanks (class_of_close rfl hclose))
  exact .seq (parses_toolDescription hl hclose) (exactly_reads ')')

theorem parses_described_none (hl : ∀ c ∈ l, c ≠ ')') : described.Parses (':' :: l) none := by
  have hclose : ∀ c ∈ ([] : List Char).head?, c = ')' := by simp
  have hblanks := parses_blanks (l := l) (class_of_close rfl hclose)
  rw [List.append_nil] at hblanks
  apply Parses.seqSecond (exactly_reads ':')
  exact .seqSecond hblanks (.seqSecond (parses_toolDescription hl hclose) .charEnd)

theorem parses_digits (hr : ∀ c ∈ r.head?, c = ')') (hne : l.takeWhile Char.isDigit ≠ []) :
    int.Parses (l ++ r) (some ([⟨.int, l.takeWhile Char.isDigit, []⟩], l.dropWhile Char.isDigit ++ r)) := by
  have hstop : ∀ c ∈ (l.dropWhile Char.isDigit ++ r).head?, c.isDigit = false :=
    forall_head_append (head_dropWhile_eq_false l) (class_of_close rfl hr)
  have hint := parses_int hne (List.all_eq_true.1 List.all_takeWhile) hstop
  rwa [← List.append_assoc, List.takeWhile_append_dropWhile] at hint

theorem parses_digits_none (hr : ∀ c ∈ r.head?, c = ')') (hnil : l.takeWhile Char.isDigit = []) :
    int.Parses (l ++ r) none := by
  apply parses_int_none
  intro c hc
  cases l with
  | nil => exact class_of_close rfl hr c hc
  | cons d l =>
    obtain rfl : d = c := Option.some.inj hc
    cases hd : d.isDigit with
    | false => rfl
    | true => simp [hd] at hnil

theorem parses_numbered (hr : ∀ c ∈ r.head?, c = ')') (hne : l.takeWhile Char.isDigit ≠ [])
    (hdescribed : described.Parses ((l.dropWhile Char.isDigit).dropWhile isBlank ++ r) (some (ns, more))) :
    numbered.Parses (l ++ r) (some (⟨.int, l.takeWhile Char.isDigit, []⟩ :: ns, more)) :=
  .seq (parses_digits hr hne) (.seq (parses_blanks (class_of_close rfl hr)) hdescribed)

theorem parses_numbered_none (hr : ∀ c ∈ r.head?, c = ')')
    (hdescribed : l.takeWhile Char.isDigit ≠ [] →
      described.Parses ((l.dropWhile Char.isDigit).dropWhile isBlank ++ r) none) :
    numbered.Parses (l ++ r) none := by
  by_cases hnil : l.takeWhile Char.isDigit = []
  · exact .seqFirst (parses_digits_none hr hnil)
  · exact .seqSecond (parses_digits hr hnil) (.seqSecond (parses_blanks (class_of_close rfl hr)) (hdescribed hnil))

theorem trim_dropWhile_isBlank (l : List Char) : trim (l.dropWhile isBlank) = trim l := by
  have hwhite : ∀ c, isBlank c = true → isWhiteSpace c = true := by
    intro c hc
    simp only [isBlank, Bool.or_eq_true, beq_iff_eq] at hc
    rcases hc with rfl | rfl <;> rfl
  have hdrop : (l.dropWhile isBlank).dropWhile isWhiteSpace = l.dropWhile isWhiteSpace := by
    induction l with
    | nil => rfl
    | cons c l ih =>
      cases hc : isBlank c with
      | true => simp [hc, hwhite c hc, ih]
      | false => simp [hc]
  rw [trim, hdrop, trim]

def fromNumber (text : List Char) : List Char := ((text.dropWhile isBlank).drop 4).dropWhile isBlank

def fromColon (text : List Char) : List Char := ((fromNumber text).dropWhile Char.isDigit).dropWhile isBlank

theorem fromColon_suffix (text : List Char) : fromColon text <:+ text := by
  have hnumber : fromNumber text <:+ text :=
    (List.dropWhile_suffix _).trans ((List.drop_suffix _ _).trans (List.dropWhile_suffix _))
  exact (List.dropWhile_suffix _).trans ((List.dropWhile_suffix _).trans hnumber)

theorem toolComment?_eq (text : List Char) :
    toolComment? text =
      if ((text.dropWhile isBlank).take 4).map Char.toUpper = ['T', 'O', 'O', 'L'] then
        match (fromNumber text).takeWhile Char.isDigit, fromColon text with
        | d :: digits, ':' :: description => some (d :: digits, trim description)
        | _, _ => none
      else none := rfl

theorem parses_toolComment {text digits description : List Char} (htext : ∀ c ∈ text, c ≠ ')')
    (htool : toolComment? text = some (digits, description)) (more : List Char) :
    ∃ raw, trim raw = description ∧
      toolComment.Parses ('(' :: (text ++ ')' :: more))
        (some ([⟨.toolComment, '(' :: (text ++ [')']), [⟨.int, digits, []⟩, ⟨.toolDescription, raw, []⟩]⟩], more)) := by
  have hclose : ∀ c ∈ (')' :: more).head?, c = ')' := by simp
  rw [toolComment?_eq] at htool
  split at htool
  · next hkey =>
    split at htool
    · next d digits' raw hdigits hcolon =>
      obtain ⟨rfl, rfl⟩ := Prod.mk.inj (Option.some.inj htool)
      refine ⟨raw.dropWhile isBlank, trim_dropWhile_isBlank raw, ?_⟩
      have hraw : ∀ c ∈ raw, c ≠ ')' := by
        intro c hc
        exact htext c ((fromColon_suffix text).subset (hcolon ▸ List.mem_cons_of_mem ':' hc))
      have hne : (fromNumber text).takeWhile Char.isDigit ≠ [] := hdigits ▸ List.cons_ne_nil _ _
      have hdescribed := parses_described hraw more
      rw [← List.cons_append, ← hcolon] at hdescribed
      have hnumbered := parses_numbered hclose hne hdescribed
      rw [hdigits] at hnumbered
      apply Parses.named (by simp)
      apply Parses.seq (exactly_reads '(')
      apply Parses.seq (parses_blanks (class_of_close rfl hclose))
      apply Parses.seq (parses_letters ['T', 'O', 'O', 'L'] hkey)
      exact .seq (parses_blanks (class_of_close rfl hclose)) hnumbered
    · cases htool
  · cases htool

theorem parses_toolComment_none {text : List Char} (htext : ∀ c ∈ text, c ≠ ')') (hr : ∀ c ∈ r.head?, c = ')')
    (h : toolComment? text = none ∨ r = []) : toolComment.Parses ('(' :: (text ++ r)) none := by
  apply Parses.namedFails
  apply Parses.seqSecond (exactly_reads '(')
  apply Parses.seqSecond (parses_blanks (class_of_close rfl hr))
  by_cases hkey : ((text.dropWhile isBlank).take 4).map Char.toUpper = ['T', 'O', 'O', 'L']
  · apply Parses.seqSecond (parses_letters ['T', 'O', 'O', 'L'] hkey)
    apply Parses.seqSecond (parses_blanks (class_of_close rfl hr))
    apply parses_numbered_none hr
    intro (hdigits : (fromNumber text).takeWhile Char.isDigit ≠ [])
    change described.Parses (fromColon text ++ r) none
    obtain ⟨d, digits, hdigits⟩ := List.exists_cons_of_ne_nil hdigits
    have hsuffix := fromColon_suffix text
    rw [toolComment?_eq, if_pos hkey, hdigits] at h
    generalize fromColon text = rest at h hsuffix
    cases rest with
    | nil => exact .seqFirst ((takes_exactly ':').parses_none r (class_of_close rfl hr))
    | cons c rest =>
      by_cases hcolon : c = ':'
      · subst hcolon
        obtain rfl : r = [] := h.resolve_left (by simp)
        rw [List.append_nil]
        exact parses_described_none fun x hx => htext x (hsuffix.subset (List.mem_cons_of_mem ':' hx))
      · exact .seqFirst (exactly_fails hcolon)
  · apply Parses.seqFirst
    apply parses_letters_none ['T', 'O', 'O', 'L'] hkey
    intro c hc
    rw [hr c hc]
    decide

end ToolComments

theorem parses_comment {text : List Char} (htext : ∀ c ∈ text, c ≠ ')') (more : List Char) :
    comment.Parses ('(' :: (text ++ ')' :: more))
      (some ([⟨.comment, '(' :: (text ++ [')']), [⟨.commentText, text, []⟩]⟩], more)) := by
  apply Parses.named (by simp)
  apply Parses.seq (exactly_reads '(')
  exact .seq (.named rfl (parses_toClose htext (by simp))) (.choiceFirst (exactly_reads ')'))

theorem parses_unclosed {text : List Char} (htext : ∀ c ∈ text, c ≠ ')') :
    comment.Parses ('(' :: text) (some ([⟨.comment, '(' :: text, [⟨.commentText, text, []⟩]⟩], [])) := by
  have htoClose := parses_toClose (r := []) htext (by simp)
  rw [List.append_nil] at htoClose
  apply Parses.named (List.append_nil _)
  apply Parses.seq (exactly_reads '(')
  exact .seq (.named (List.append_nil _) htoClose) (.choiceSecond .charEnd (.absent .charEnd))

theorem parses_lineComment (text : List Char) :
    lineComment.Parses (';' :: text) (some ([⟨.lineComment, ';' :: text, [⟨.lineCommentText, text, []⟩]⟩], [])) := by
  have hany : (any : Peg Rule).Takes fun _ => true := takes_char _
  have hmany := hany.parses_many (l := text) (r := []) (by simp) (by simp)
  rw [List.append_nil] at hmany
  apply Parses.named (List.append_nil _)
  exact .seq (exactly_reads ';') (.named (List.append_nil _) hmany)

theorem parses_letter {c : Char} (hc : c.isAlpha = true) (more : List Char) :
    letter.Parses (c :: more) (some ([⟨.letter, [c], []⟩], more)) := .named (List.singleton_append ..) (.char hc)

theorem parses_word {c : Char} {value more : List Char} (hc : c.isAlpha = true) (hvalue : IsNumeral value)
    (hmore : EndsNumeral value more) :
    word.Parses (c :: (value ++ more))
      (some ([⟨.word, c :: value, [⟨.letter, [c], []⟩, ⟨.number, value, []⟩]⟩], more)) := by
  apply Parses.named (List.cons_append ..)
  exact .seq (parses_letter hc _) (parses_number hvalue hmore)

theorem parses_word_none {c : Char} {more : List Char} (h : c.isAlpha = true → numeral more = []) :
    word.Parses (c :: more) none := by
  apply Parses.namedFails
  cases hc : c.isAlpha with
  | true => exact .seqSecond (parses_letter hc more) (parses_number_none (h hc))
  | false => exact .seqFirst (.namedFails (.charOther hc))

theorem swallows_of_isAlpha {c : Char} (h : c.isAlpha = true) : swallows c = true := by
  simp [swallows, Char.isAlphanum, h]

theorem isAlpha_eq_false_of_swallows {c : Char} (h : swallows c = false) : c.isAlpha = false := by
  rw [Bool.eq_false_iff]
  intro halpha
  exact absurd (swallows_of_isAlpha halpha) (by simp [h])

theorem parses_bare {c d : Char} {tail more : List Char} (hc : c.isAlpha = true) (hd : d.isAlpha = true)
    (htail : ∀ x ∈ tail, swallows x = true) (hmore : ∀ x ∈ more.head?, swallows x = false) :
    bare.Parses (c :: d :: (tail ++ more)) (some ([⟨.bare, c :: d :: tail, []⟩], more)) := by
  have halpha : (Peg.char Char.isAlpha : Peg Rule).Takes Char.isAlpha := takes_char _
  have hswallows : (alphanumeric.choice (exactly '.')).Takes swallows := (takes_char _).choice (takes_exactly '.')
  obtain ⟨row, rest, rfl, hrow, hrest⟩ := exists_cut Char.isAlpha tail
  have hstop : ∀ x ∈ (rest ++ more).head?, x.isAlpha = false :=
    forall_head_append hrest fun x hx => isAlpha_eq_false_of_swallows (hmore x hx)
  apply Parses.named (by simp)
  rw [List.append_assoc]
  apply Parses.seq (.char hc)
  apply Parses.seq (.char hd)
  apply Parses.seq (halpha.parses_many hrow hstop)
  exact hswallows.parses_many (fun x hx => htail x (List.mem_append_right row hx)) hmore

theorem parses_bare_none {c : Char} {more : List Char} (h : c.isAlpha = true → ∀ x ∈ more.head?, x.isAlpha = false) :
    bare.Parses (c :: more) none := by
  apply Parses.namedFails
  cases hc : c.isAlpha with
  | true => exact .seqSecond (.char hc) (.seqFirst ((takes_char _).parses_none more (h hc)))
  | false => exact .seqFirst (.charOther hc)

theorem takes_numeric :
    (((digit.choice (exactly '.')).choice (exactly '+')).choice (exactly '-')).Takes isNumeric :=
  (((takes_char _).choice (takes_exactly '.')).choice (takes_exactly '+')).choice (takes_exactly '-')

theorem parses_numeric {c : Char} {run glued more : List Char} (hc : isNumeric c = true)
    (hrun : ∀ x ∈ run, isNumeric x = true) (hglued : ∀ x ∈ glued, x.isAlphanum = true)
    (hstop : ∀ x ∈ (glued ++ more).head?, isNumeric x = false) (hmore : ∀ x ∈ more.head?, x.isAlphanum = false) :
    other.Parses (c :: (run ++ glued ++ more)) (some ([⟨.other, c :: (run ++ glued), []⟩], more)) := by
  have halphanum : alphanumeric.Takes Char.isAlphanum := takes_char _
  have hmany := takes_numeric.parses_many1 (List.cons_ne_nil c run) (List.forall_mem_cons.2 ⟨hc, hrun⟩) hstop
  apply Parses.named (List.cons_append ..)
  rw [List.append_assoc]
  exact .choiceFirst (.seq hmany (halphanum.parses_many hglued hmore))

theorem parses_single {c : Char} (hc : isNumeric c = false) (more : List Char) :
    other.Parses (c :: more) (some ([⟨.other, [c], []⟩], more)) := by
  have hhead : ∀ d ∈ (c :: more).head?, isNumeric d = false := fun d hd => Option.some.inj hd ▸ hc
  have hfails := takes_numeric.parses_many1_none hhead
  exact .named rfl (.choiceSecond (.seqFirst hfails) (.char rfl))

theorem token_of_lineComment {c : Char} {s : Result Rule} (hopen : c ≠ '(')
    (h : (lineComment.choice (word.choice (bare.choice other))).Parses (c :: cs) s) : token.Parses (c :: cs) s := by
  apply Parses.choiceSecond (.namedFails (.seqFirst (exactly_fails hopen)))
  exact .choiceSecond (.namedFails (.seqFirst (exactly_fails hopen))) h

theorem token_of_word {c : Char} {s : Result Rule} (hopen : c ≠ '(') (hsemicolon : c ≠ ';')
    (h : (word.choice (bare.choice other)).Parses (c :: cs) s) : token.Parses (c :: cs) s :=
  token_of_lineComment hopen (.choiceSecond (.namedFails (.seqFirst (exactly_fails hsemicolon))) h)

theorem token_of_other {c : Char} {s : Result Rule} (hopen : c ≠ '(') (hsemicolon : c ≠ ';') (halpha : c.isAlpha = false)
    (h : other.Parses (c :: cs) s) : token.Parses (c :: cs) s := by
  apply token_of_word hopen hsemicolon
  apply Parses.choiceSecond (parses_word_none (by simp [halpha]))
  exact .choiceSecond (parses_bare_none (by simp [halpha])) h

theorem exists_token {more : List Char} {p : Piece} (h : Piece.Begins cs p more) (hp : p.token?.isSome) :
    ∃ n, token.Parses cs (some ([n], more)) ∧ pieceOf? n = some p := by
  cases h with
  | blank => cases hp
  | toolComment htext htool =>
    obtain ⟨raw, hraw, hparses⟩ := parses_toolComment htext htool more
    exact ⟨_, .choiceFirst hparses, by simp [pieceOf?, tokenOf?, Node.source, hraw]⟩
  | comment htext htool =>
    have hfails := parses_toolComment_none (r := ')' :: more) htext (by simp) (.inl htool)
    exact ⟨_, .choiceSecond hfails (.choiceFirst (parses_comment htext more)), rfl⟩
  | unclosed htext =>
    have hfails := parses_toolComment_none (r := []) htext (by simp) (.inr rfl)
    rw [List.append_nil] at hfails
    exact ⟨_, .choiceSecond hfails (.choiceFirst (parses_unclosed htext)), rfl⟩
  | lineComment => exact ⟨_, token_of_lineComment (by decide) (.choiceFirst (parses_lineComment _)), rfl⟩
  | word hc hvalue hmore =>
    have hreads := parses_word hc hvalue hmore
    exact ⟨_, token_of_word (ne_of_class hc rfl) (ne_of_class hc rfl) (.choiceFirst hreads), rfl⟩
  | @letters c d tail _ hc hd htail hmore =>
    have hword : word.Parses (c :: d :: (tail ++ more)) none := parses_word_none fun _ => numeral_of_isAlpha hd _
    have hbare := parses_bare hc hd htail hmore
    exact ⟨_, token_of_word (ne_of_class hc rfl) (ne_of_class hc rfl) (.choiceSecond hword (.choiceFirst hbare)), rfl⟩
  | @letter c _ hc hvalue hmore =>
    have hother := Parses.choiceSecond (parses_bare_none fun _ => hmore)
      (parses_single (isNumeric_eq_false_of_isAlpha hc) more)
    have hword : word.Parses (c :: more) none := parses_word_none fun _ => hvalue
    exact ⟨_, token_of_word (ne_of_class hc rfl) (ne_of_class hc rfl) (.choiceSecond hword hother), rfl⟩
  | numeric hc hrun hglued hstop hmore =>
    have hother := parses_numeric hc hrun hglued hstop hmore
    exact ⟨_, token_of_other (ne_of_class hc rfl) (ne_of_class hc rfl) (isAlpha_eq_false_of_isNumeric hc) hother, rfl⟩
  | @single c _ hblank hinert =>
    simp only [isInert, Bool.and_eq_true, Bool.not_eq_true', bne_iff_ne] at hinert
    obtain ⟨⟨⟨halpha, hnumeric⟩, hopen⟩, hsemicolon⟩ := hinert
    exact ⟨_, token_of_other hopen hsemicolon halpha (parses_single hnumeric more), rfl⟩

end Grammar

end Machining.Line
