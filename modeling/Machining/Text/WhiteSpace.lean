/-!
White space, the Unicode property `White_Space`, and texts without it at their ends. Names and descriptions are
trimmed by this class; between the codes of a line only the two blanks of `Machining.Line.Scan` are skipped.
-/

namespace Machining.Text

def isWhiteSpace (c : Char) : Bool :=
  let n := c.toNat
  (9 ≤ n && n ≤ 13) || n == 0x20 || n == 0x85 || n == 0xA0 || n == 0x1680 || (0x2000 ≤ n && n ≤ 0x200A)
    || n == 0x2028 || n == 0x2029 || n == 0x202F || n == 0x205F || n == 0x3000

variable {α : Type} (p : α → Bool)

def dropEndWhile (xs : List α) : List α := (xs.reverse.dropWhile p).reverse

def trim (cs : List Char) : List Char := dropEndWhile isWhiteSpace (cs.dropWhile isWhiteSpace)

end Machining.Text
