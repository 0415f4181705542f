import Machining.Proofs.LetterCase

/-!
Reading a line with its letters folded. Every part of the reader cuts the folded line at the same places, so the line
has the same number and the same words, which are upper case anyway, and its comments are folded. All that codes ask
for is the same. Only names and descriptions, which are taken from comments, are folded with them.
-/

namespace Machining
open Machining.Text

namespace Line

theorem takeWhile_isDigit_map (cs : List Char) :
    (cs.map Char.toUpper).takeWhile Char.isDigit = cs.takeWhile Char.isDigit := by
  rw [caseBlind_isDigit.takeWhile, map_toUpper_of_not_isAlpha]
  intro c hc
  exact isAlpha_eq_false_of_isDigit (List.all_eq_true.1 List.all_takeWhile c hc)

theorem magnitude_map (cs : List Char) : magnitude (cs.map Char.toUpper) = magnitude cs := by
  rw [magnitude, magnitude, takeWhile_isDigit_map, caseBlind_isDigit.dropWhile]
  generalize cs.dropWhile Char.isDigit = rest
  cases rest with
  | nil => rfl
  | cons c rest =>
    by_cases hc : c = '.'
    · subst hc
      have htail := takeWhile_isDigit_map rest
      simp [htail]
    · have hupper : c.toUpper ≠ '.' := by rwa [ne_eq, toUpper_eq_iff rfl]
      simp [hc, hupper]

theorem numeral_map (cs : List Char) : numeral (cs.map Char.toUpper) = numeral cs := by
  cases cs with
  | nil => rfl
  | cons c rest =>
    have hwhole := magnitude_map (c :: rest)
    rw [List.map_cons] at hwhole
    simp only [List.map_cons, numeral, toUpper_eq_iff (show '+'.isAlpha = false from rfl),
      toUpper_eq_iff (show '-'.isAlpha = false from rfl), magnitude_map, hwhole]
    by_cases hsign : c = '+' ∨ c = '-'
    · have hupper : c.toUpper = c := by rcases hsign with rfl | rfl <;> rfl
      rw [if_pos hsign, if_pos hsign, hupper]
    · rw [if_neg hsign, if_neg hsign]

theorem toolComment?_map (text : List Char) :
    toolComment? (text.map Char.toUpper) =
      (toolComment? text).map fun found => (found.1, found.2.map Char.toUpper) := by
  simp only [toolComment?, caseBlind_isBlank.dropWhile, ← List.map_take, map_toUpper_map_toUpper, ← List.map_drop,
    takeWhile_isDigit_map, caseBlind_isDigit.dropWhile]
  split
  · generalize ((text.dropWhile isBlank).drop 4).dropWhile isBlank = numbered
    generalize (numbered.dropWhile Char.isDigit).dropWhile isBlank = described
    cases numbered.takeWhile Char.isDigit with
    | nil => rfl
    | cons d digits =>
      cases described with
      | nil => rfl
      | cons c description =>
        by_cases hc : c = ':'
        · subst hc
          have hcolon : Char.toUpper ':' = ':' := rfl
          simp [hcolon, trim_map_toUpper]
        · have hupper : c.toUpper ≠ ':' := by rwa [ne_eq, toUpper_eq_iff rfl]
          simp [hc, hupper]
  · rfl

end Line

namespace Token

def foldCase : Token → Token
  | .word w => .word w
  | .comment text => .comment (text.map Char.toUpper)
  | .toolComment digits description => .toolComment digits (description.map Char.toUpper)
  | .other text => .other (text.map Char.toUpper)

theorem word?_foldCase (t : Token) : t.foldCase.word? = t.word? := by cases t <;> rfl

theorem comment?_foldCase (t : Token) : t.foldCase.comment? = t.comment?.map (List.map Char.toUpper) := by
  cases t <;> rfl

theorem isRemark_foldCase (t : Token) : t.foldCase.isRemark = t.isRemark := by cases t <;> rfl

end Token

namespace Line

def foldCase (line : Line) : Line := ⟨line.number, line.tokens.map Token.foldCase⟩

theorem parenthesis_map (rest : List Char) :
    parenthesis (rest.map Char.toUpper) = ((parenthesis rest).1.foldCase, (parenthesis rest).2) := by
  have hstop : CaseBlind (· != ')') := caseBlind_bne rfl
  simp only [parenthesis, hstop.takeWhile, hstop.dropWhile, toolComment?_map, List.length_map]
  cases rest.dropWhile (· != ')') with
  | nil => rfl
  | cons c more =>
    cases toolComment? (rest.takeWhile (· != ')')) with
    | none => rfl
    | some found => rfl

theorem lettered_map (c : Char) (rest : List Char) :
    lettered c.toUpper (rest.map Char.toUpper) = ((lettered c rest).1.foldCase, (lettered c rest).2) := by
  have hrow : CaseBlind fun d => d.isAlphanum || d == '.' := by
    apply CaseBlind.of_letters (b := true)
    intro d hd
    simp [Char.isAlphanum, hd]
  have hhead : (rest.map Char.toUpper).head?.any Char.isAlpha = rest.head?.any Char.isAlpha := by
    simp only [List.head?_map, Option.any_map, caseBlind_isAlpha.apply]
  simp only [lettered, numeral_map, hhead, hrow.takeWhile, Char.toUpper_toUpper_eq_toUpper]
  split
  · split <;> simp [Token.foldCase]
  · rfl

theorem numeric_map (c : Char) (rest : List Char) :
    numeric c.toUpper (rest.map Char.toUpper) = ((numeric c rest).1.foldCase, (numeric c rest).2) := by
  simp [numeric, caseBlind_isNumeric.takeWhile, caseBlind_isNumeric.dropWhile, caseBlind_isAlphanum.takeWhile,
    Token.foldCase]

theorem lexeme_map (c : Char) (rest : List Char) :
    lexeme c.toUpper (rest.map Char.toUpper) = ((lexeme c rest).1.foldCase, (lexeme c rest).2) := by
  simp only [lexeme, toUpper_eq_iff (show '('.isAlpha = false from rfl),
    toUpper_eq_iff (show ';'.isAlpha = false from rfl), caseBlind_isAlpha.apply, caseBlind_isNumeric.apply,
    parenthesis_map, lettered_map, numeric_map, List.length_map]
  split_ifs <;> rfl

def Piece.foldCase : Piece → Piece
  | .blank c => .blank c.toUpper
  | .number letter digits => .number letter.toUpper digits
  | .token t source => .token t.foldCase (source.map Char.toUpper)

theorem Piece.number?_foldCase (p : Piece) : p.foldCase.number? = p.number? := by cases p <;> rfl

theorem Piece.token?_foldCase (p : Piece) : p.foldCase.token? = p.token?.map Token.foldCase := by cases p <;> rfl

theorem Piece.next_map (c : Char) (rest : List Char) :
    next c.toUpper (rest.map Char.toUpper) = ((next c rest).1.foldCase, (next c rest).2) := by
  simp only [next, caseBlind_isBlank.apply, lexeme_map, ← List.map_take]
  split <;> rfl

theorem numberDigits_map (c : Char) (rest : List Char) :
    numberDigits c.toUpper (rest.map Char.toUpper) = numberDigits c rest := by
  simp only [numberDigits, Char.toUpper_toUpper_eq_toUpper, takeWhile_isDigit_map]

theorem unindented_map (cs : List Char) :
    unindented (cs.map Char.toUpper) = (unindented cs).map Piece.foldCase := by
  cases cs with
  | nil => rfl
  | cons c rest =>
    have hmunch := munch_map Piece.next Piece.next_map
    have hwhole := hmunch (c :: rest)
    rw [List.map_cons] at hwhole
    simp only [List.map_cons, unindented, numberDigits_map, hwhole, ← List.map_drop, hmunch]
    split <;> rfl

theorem pieces_map (cs : List Char) : pieces (cs.map Char.toUpper) = (pieces cs).map Piece.foldCase := by
  simp [pieces, caseBlind_isBlank.takeWhile, caseBlind_isBlank.dropWhile, unindented_map, Piece.foldCase]

theorem ofChars_map (cs : List Char) : ofChars (cs.map Char.toUpper) = (ofChars cs).foldCase := by
  simp only [ofChars, foldCase, pieces_map, List.findSome?_map, List.filterMap_map, List.map_filterMap,
    Function.comp_def, Piece.number?_foldCase, Piece.token?_foldCase]

theorem read_foldCase (text : String) : read (Text.foldCase text) = (read text).foldCase := by
  rw [read, read, toList_foldCase, ofChars_map]

theorem words_foldCase (line : Line) : line.foldCase.words = line.words := by
  simp only [words, foldCase, List.filterMap_map, Function.comp_def, Token.word?_foldCase]

theorem comments_foldCase (line : Line) : line.foldCase.comments = line.comments.map (List.map Char.toUpper) := by
  simp only [comments, foldCase, List.filterMap_map, List.map_filterMap, Function.comp_def, Token.comment?_foldCase]

theorem ordinal_foldCase (line : Line) : line.foldCase.ordinal = line.ordinal := rfl

theorem isBoundary_foldCase (rule : BoundaryRule) (line : Line) :
    line.foldCase.isBoundary rule = line.isBoundary rule := by
  have hremark : line.foldCase.tokens.any Token.isRemark = line.tokens.any Token.isRemark := by
    simp only [foldCase, List.any_map, Function.comp_def, Token.isRemark_foldCase]
  have hnumber : line.foldCase.number = line.number := rfl
  simp only [isBoundary, hasToolChange, words_foldCase, hremark, hnumber]

theorem isFooterTrigger_foldCase (line : Line) : line.foldCase.isFooterTrigger = line.isFooterTrigger := by
  rw [isFooterTrigger, words_foldCase, isFooterTrigger]

theorem offsetCode?_foldCase (line : Line) : line.foldCase.offsetCode? = line.offsetCode? := by
  rw [offsetCode?, words_foldCase, offsetCode?]

theorem toolWord?_foldCase (line : Line) : line.foldCase.toolWord? = line.toolWord? := by
  rw [toolWord?, words_foldCase, toolWord?]

theorem toolRemark?_foldCase (line : Line) :
    line.foldCase.toolRemark? = line.toolRemark?.map fun found => (found.1, Text.foldCase found.2) := by
  simp only [toolRemark?, foldCase, List.findSome?_map, List.map_findSome?]
  congr 1
  funext t
  cases t <;> simp [Token.foldCase, foldCase_ofList]

end Line

theorem nameIn?_map (comment : List Char) :
    nameIn? (comment.map Char.toUpper) = (nameIn? comment).map Text.foldCase := by
  have hstop : CaseBlind (· != ':') := caseBlind_bne rfl
  simp only [nameIn?, hstop.dropWhile, ← List.map_drop, trim_map_toUpper, map_toUpper_map_toUpper, ne_eq,
    List.map_eq_nil_iff]
  split
  · rw [Option.map_some, foldCase_ofList]
  · rfl

theorem Line.operationName?_foldCase (line : Line) :
    line.foldCase.operationName? = line.operationName?.map Text.foldCase := by
  simp only [operationName?, comments_foldCase, List.findSome?_map, List.map_findSome?, Function.comp_def, nameIn?_map]

end Machining
