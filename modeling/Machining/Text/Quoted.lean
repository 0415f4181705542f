import Machining.Text.DefaultIgnorable
import Machining.Text.GraphemeExtend
import Machining.Text.Unprintable

/-!
A text in quotes, so that every character of it can be seen. The quote and the backslash are escaped, and so are the
characters that cannot be seen and those that would change the look of the character in front of them.
-/

namespace Machining.Text

/-- The letters among the extending characters: two halfwidth sound marks, which have a place of their own. -/
def isSoundMark (c : Char) : Bool := c == '\uff9e' || c == '\uff9f'

def isVisible (c : Char) : Bool :=
  !isUnprintable c && !isDefaultIgnorable c && (!isGraphemeExtend c || isSoundMark c)

def visible (c : Char) : List Char :=
  if c = '\x00' then ['\\', '0']
  else if c = '\t' then ['\\', 't']
  else if c = '\r' then ['\\', 'r']
  else if c = '\n' then ['\\', 'n']
  else if c = '\\' then ['\\', '\\']
  else if c = '"' then ['\\', '"']
  else if isVisible c then [c]
  else '\\' :: 'u' :: '{' :: Nat.toDigits 16 c.toNat ++ ['}']

def quoted (s : String) : String := String.ofList ('"' :: s.toList.flatMap visible ++ ['"'])

end Machining.Text
