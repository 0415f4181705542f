import Machining.Line.Token
import Machining.Text.Digits
import Machining.Text.Munch
import Machining.Text.WhiteSpace

/-!
Reading a line. The line is cut into pieces: blanks, at most one line number, and tokens, each with the text it
was read from. Every character begins a piece of some kind, so no line is refused. Only a whole word counts as a
word: letters in a row are none, and a number swallows the letters glued to it. A comment runs to the next closing
parenthesis, or to the end of the line.
-/

namespace Machining.Line
open Machining.Text

def isBlank (c : Char) : Bool := c == ' ' || c == '\t'

/-- Digits with at most one point among them, at least one digit in all; empty if there is none at the start. -/
def magnitude (cs : List Char) : List Char :=
  let whole := cs.takeWhile Char.isDigit
  match cs.dropWhile Char.isDigit with
  | '.' :: rest =>
    let fraction := rest.takeWhile Char.isDigit
    if whole = [] ∧ fraction = [] then [] else whole ++ '.' :: fraction
  | _ => whole

def numeral : List Char → List Char
  | [] => []
  | c :: rest =>
    if c = '+' ∨ c = '-' then if magnitude rest = [] then [] else c :: magnitude rest
    else magnitude (c :: rest)

def toolComment? (text : List Char) : Option (List Char × List Char) :=
  let named := text.dropWhile isBlank
  if (named.take 4).map Char.toUpper = ['T', 'O', 'O', 'L'] then
    let numbered := (named.drop 4).dropWhile isBlank
    match numbered.takeWhile Char.isDigit, (numbered.dropWhile Char.isDigit).dropWhile isBlank with
    | d :: digits, ':' :: description => some (d :: digits, trim description)
    | _, _ => none
  else none

/-- A comment from behind its opening parenthesis. Only a closed one can be a tool comment. -/
def parenthesis (rest : List Char) : Token × Nat :=
  let text := rest.takeWhile (· != ')')
  match rest.dropWhile (· != ')') with
  | [] => (.comment text, text.length)
  | _ :: _ =>
    match toolComment? text with
    | some (digits, description) => (.toolComment digits description, text.length + 1)
    | none => (.comment text, text.length + 1)

def lettered (c : Char) (rest : List Char) : Token × Nat :=
  let value := numeral rest
  if value = [] then
    let tail := if rest.head?.any Char.isAlpha then rest.takeWhile fun d => d.isAlphanum || d == '.' else []
    (.other (c :: tail), tail.length)
  else (.word ⟨c.toUpper, value⟩, value.length)

def isNumeric (c : Char) : Bool := c.isDigit || c == '.' || c == '+' || c == '-'

def numeric (c : Char) (rest : List Char) : Token × Nat :=
  let tail := rest.takeWhile isNumeric ++ (rest.dropWhile isNumeric).takeWhile Char.isAlphanum
  (.other (c :: tail), tail.length)

/-- The token that begins with `c`, and how many of the characters behind `c` belong to it. -/
def lexeme (c : Char) (rest : List Char) : Token × Nat :=
  if c = '(' then parenthesis rest
  else if c = ';' then (.comment rest, rest.length)
  else if c.isAlpha then lettered c rest
  else if isNumeric c then numeric c rest
  else (.other [c], 0)

inductive Piece
  | blank (c : Char)
  | number (letter : Char) (digits : List Char)
  | token (t : Token) (source : List Char)
  deriving DecidableEq, Repr

namespace Piece

def source : Piece → List Char
  | .blank c => [c]
  | .number letter digits => letter :: digits
  | .token _ source => source

def number? : Piece → Option (List Char) | .number _ digits => some digits | _ => none

def token? : Piece → Option Token | .token t _ => some t | _ => none

def next (c : Char) (rest : List Char) : Piece × Nat :=
  if isBlank c then (.blank c, 0)
  else ((.token (lexeme c rest).1 (c :: rest.take (lexeme c rest).2)), (lexeme c rest).2)

end Piece

def numberDigits (c : Char) (rest : List Char) : List Char :=
  if c.toUpper = 'N' then rest.takeWhile Char.isDigit else []

/-- Pieces of a line without blanks at its start. A line number counts only in front of all tokens. -/
def unindented : List Char → List Piece
  | [] => []
  | c :: rest =>
    let digits := numberDigits c rest
    if digits = [] then munch Piece.next (c :: rest)
    else .number c digits :: munch Piece.next (rest.drop digits.length)

def pieces (cs : List Char) : List Piece := (cs.takeWhile isBlank).map .blank ++ unindented (cs.dropWhile isBlank)

theorem Piece.source_next (c : Char) (rest : List Char) :
    (Piece.next c rest).1.source = c :: rest.take (Piece.next c rest).2 := by
  unfold Piece.next
  split <;> rfl

theorem take_numberDigits (c : Char) (rest : List Char) :
    rest.take (numberDigits c rest).length = numberDigits c rest := by
  unfold numberDigits
  split
  · exact (List.prefix_iff_eq_take.1 (List.takeWhile_prefix _)).symm
  · rfl

theorem flatMap_source_unindented (cs : List Char) : (unindented cs).flatMap Piece.source = cs := by
  cases cs with
  | nil => rfl
  | cons c rest =>
    simp only [unindented]
    split
    · exact flatMap_munch Piece.next Piece.source_next _
    · rw [List.flatMap_cons, flatMap_munch Piece.next Piece.source_next]
      have htake := List.take_append_drop (numberDigits c rest).length rest
      rw [take_numberDigits] at htake
      rw [Piece.source, List.cons_append, htake]

theorem flatMap_source_blank (cs : List Char) : (cs.map Piece.blank).flatMap Piece.source = cs := by
  induction cs with
  | nil => rfl
  | cons c cs ih => rw [List.map_cons, List.flatMap_cons, ih]; rfl

theorem flatMap_source_pieces (cs : List Char) : (pieces cs).flatMap Piece.source = cs := by
  rw [pieces, List.flatMap_append, flatMap_source_blank, flatMap_source_unindented,
    List.takeWhile_append_dropWhile]

def ofChars (cs : List Char) : Line :=
  let all := pieces cs
  ⟨all.findSome? Piece.number?, all.filterMap Piece.token?⟩

def read (text : String) : Line := ofChars text.toList

end Machining.Line
