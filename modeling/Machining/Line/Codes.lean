import Machining.Line.Scan
import Machining.Options

/-!
What the codes of a line ask for. A code is compared by the value of its number, which has digits only and lies
below `2 ^ 32`, so `M06` and `M6` are one code. Codes inside comments are no words and ask for nothing.
-/

namespace Machining
open Machining.Text

def numberLimit : Nat := Nat.pow 2 32

namespace Word

def natural? (w : Word) : Option Nat := readBelow? numberLimit w.value

def isCode (letter : Char) (codes : List Nat) (w : Word) : Bool :=
  w.letter == letter && w.natural?.any codes.contains

def isToolChange (w : Word) : Bool := w.isCode 'M' [6]

/-- Stops, spindle and coolant off, ends of the program, and returns to the reference point. -/
def isClosing (w : Word) : Bool := w.isCode 'M' [0, 1, 2, 5, 9, 30, 99] || w.isCode 'G' [28, 30]

/-- One of the further offsets, which share the code 54.1 with any zeros around it. -/
def isFurtherOffset (w : Word) : Bool :=
  let whole := w.value.takeWhile (· != '.')
  let fraction := (w.value.dropWhile (· != '.')).drop 1
  w.letter == 'G' && whole.dropWhile (· == '0') == ['5', '4'] && dropEndWhile (· == '0') fraction == ['1']

def offset? (w : Word) : Option String :=
  if w.isCode 'G' [54, 55, 56, 57, 58, 59] then w.natural?.map toString
  else if w.isFurtherOffset then some "54.1"
  else none

def selector? (w : Word) : Option String :=
  if w.letter = 'P' ∧ w.natural?.isSome then some (String.ofList w.value) else none

def tool? (w : Word) : Option String :=
  if w.letter = 'T' ∧ w.natural?.isSome then some ("T" ++ String.ofList w.value) else none

/-- The first work offset code among words, with a selector only if that is the very next word. -/
def offsetCode? : List Word → Option String
  | [] => none
  | w :: rest =>
    match w.offset? with
    | none => offsetCode? rest
    | some number =>
      match rest.head?.bind selector? with
      | some digits => some ("G" ++ number ++ " P" ++ digits)
      | none => some ("G" ++ number)

end Word

namespace Line

def ordinal (line : Line) : Nat := (line.number.bind (readBelow? numberLimit)).getD 0

def hasToolChange (line : Line) : Bool := line.words.any Word.isToolChange

def isBoundary (rule : BoundaryRule) (line : Line) : Bool :=
  (match rule with
    | .lineNumberOrToolChange => line.number.isSome
    | .annotated => line.number.isSome && line.tokens.any Token.isRemark) || line.hasToolChange

def isFooterTrigger (line : Line) : Bool := line.words.any Word.isClosing

def offsetCode? (line : Line) : Option String := Word.offsetCode? line.words

def toolRemark? (line : Line) : Option (String × String) :=
  line.tokens.findSome? fun
    | .toolComment digits description => some ("T" ++ String.ofList digits, String.ofList description)
    | _ => none

def toolWord? (line : Line) : Option String := line.words.findSome? Word.tool?

end Line

def mentions (key : List Char) : List Char → Bool
  | [] => key.isEmpty
  | c :: rest => key.isPrefixOf (c :: rest) || mentions key rest

/-- The name that a comment gives: what follows the first colon, if the comment mentions an operation at all. -/
def nameIn? (comment : List Char) : Option String :=
  let name := trim ((comment.dropWhile (· != ':')).drop 1)
  if mentions "OPERATION".toList (comment.map Char.toUpper) ∧ name ≠ [] then some (String.ofList name) else none

def Line.operationName? (line : Line) : Option String := line.comments.findSome? nameIn?

end Machining
