/-!
Numbers written with decimal digits only. A number is read by its exact value, however many digits it has, and is
refused when it reaches the limit that its reader sets.
-/

namespace Machining.Text

def allDigits (cs : List Char) : Bool := cs.all Char.isDigit

def value (digits : List Char) : Nat := Nat.ofDigitChars 10 digits 0

def readBelow? (limit : Nat) (cs : List Char) : Option Nat :=
  if cs ≠ [] ∧ allDigits cs ∧ value cs < limit then some (value cs) else none

theorem readBelow?_eq_some_iff {limit n : Nat} {cs : List Char} :
    readBelow? limit cs = some n ↔ cs ≠ [] ∧ allDigits cs ∧ value cs = n ∧ n < limit := by
  unfold readBelow?
  split
  · next h =>
    constructor
    · rintro ⟨rfl⟩; exact ⟨h.1, h.2.1, rfl, h.2.2⟩
    · rintro ⟨_, _, rfl, _⟩; rfl
  · next h =>
    constructor
    · intro hn; cases hn
    · rintro ⟨hne, hd, rfl, hl⟩; exact absurd ⟨hne, hd, hl⟩ h

theorem value_zeros_append (k : Nat) (cs : List Char) : value (List.replicate k '0' ++ cs) = value cs := by
  simp [value, Nat.ofDigitChars_append, Nat.ofDigitChars_replicate_zero]

theorem value_toDigits (n : Nat) : value (Nat.toDigits 10 n) = n := Nat.ofDigitChars_ten_toDigits

end Machining.Text
