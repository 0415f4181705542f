/-!
What stands on a line of a program: a number that the line may begin with, then words, comments and whatever is
neither. Values are kept as they are written, since `G01` and `G1` are the same code but not the same text.
-/

namespace Machining

structure Word where
  letter : Char
  value : List Char
  deriving DecidableEq, Repr

inductive Token
  | word (w : Word)
  | comment (text : List Char)
  | toolComment (digits description : List Char)
  | other (text : List Char)
  deriving DecidableEq, Repr

structure Line where
  number : Option (List Char)
  tokens : List Token
  deriving DecidableEq, Repr

namespace Token

def word? : Token → Option Word | .word w => some w | _ => none

def comment? : Token → Option (List Char) | .comment text => some text | _ => none

def isRemark : Token → Bool | .comment _ | .toolComment _ _ => true | _ => false

end Token

def Line.words (line : Line) : List Word := line.tokens.filterMap Token.word?

def Line.comments (line : Line) : List (List Char) := line.tokens.filterMap Token.comment?

end Machining
