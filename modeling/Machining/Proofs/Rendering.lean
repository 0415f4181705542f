import Machining.Proofs.LineEnds

/-!
Numbers and fillings as characters. A number is written with its decimal digits, of which there is at least one, and the
first of which is a zero only for the number zero.
-/

namespace Machining.Text

theorem unbroken_replicate {c : Char} (hc : c ≠ '\n' ∧ c ≠ '\r') (n : Nat) : Unbroken (List.replicate n c) :=
  ⟨fun h => hc.1 (List.eq_of_mem_replicate h).symm, fun h => hc.2 (List.eq_of_mem_replicate h).symm⟩

theorem unbroken_of_isDigit {cs : List Char} (h : ∀ c ∈ cs, c.isDigit = true) : Unbroken cs :=
  ⟨fun hfeed => absurd (h _ hfeed) (by decide), fun hreturn => absurd (h _ hreturn) (by decide)⟩

theorem toList_pushn (s : String) (c : Char) (n : Nat) : (s.pushn c n).toList = s.toList ++ List.replicate n c := by
  rw [String.pushn_eq_repeat_push]
  induction n with
  | zero => simp [Nat.repeat]
  | succ n ih => rw [Nat.repeat, String.toList_push, ih, List.replicate_succ', List.append_assoc]

theorem toList_toString (n : Nat) : (toString n).toList = Nat.toDigits 10 n := by simp

theorem isDigit_toDigits (n : Nat) : ∀ c ∈ Nat.toDigits 10 n, c.isDigit = true :=
  fun _ hc => Nat.isDigit_of_mem_toDigits (by decide) (by decide) hc

theorem unbroken_toString (n : Nat) : Unbroken (toString n).toList := by
  rw [toList_toString]
  exact unbroken_of_isDigit (isDigit_toDigits n)

theorem head_toDigits {n : Nat} (hn : n ≠ 0) : ∀ c ∈ (Nat.toDigits 10 n).head?, c ≠ '0' := by
  induction n using Nat.strongRecOn with
  | ind n ih =>
    by_cases hlt : n < 10
    · rw [Nat.toDigits_of_lt_base hlt]
      have hdigit : ∀ m < 10, m ≠ 0 → Nat.digitChar m ≠ '0' := by decide
      intro c hc
      exact Option.some.inj hc ▸ hdigit n hlt hn
    · have hdiv : n / 10 < n := Nat.div_lt_self (by omega) (by decide)
      obtain ⟨d, digits, hdigits⟩ := List.exists_cons_of_ne_nil (Nat.toDigits_ne_nil : Nat.toDigits 10 (n / 10) ≠ [])
      have hhead := ih _ hdiv (by omega)
      rw [hdigits] at hhead
      rw [Nat.toDigits_of_base_le (by decide) (Nat.le_of_not_lt hlt), hdigits]
      exact hhead

end Machining.Text
