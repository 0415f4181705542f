import Machining.Line.Scan
import Machining.Proofs.LetterCase
import Machining.Proofs.Runs

/-!
Numbers as they are written on a line, without the way they are read: digits with at most one point among them, at least
one digit in all, and at most one sign in front. A text that begins with a number begins with exactly one that cannot go on,
and this is the one that is read.
-/

namespace Machining.Line
open Machining.Text

inductive IsMagnitude : List Char → Prop
  | whole (whole : List Char) (hwhole : ∀ c ∈ whole, c.isDigit = true) (hne : whole ≠ []) : IsMagnitude whole
  | point (whole fraction : List Char) (hwhole : ∀ c ∈ whole, c.isDigit = true)
      (hfraction : ∀ c ∈ fraction, c.isDigit = true) (hne : whole ≠ [] ∨ fraction ≠ []) :
      IsMagnitude (whole ++ '.' :: fraction)

inductive IsNumeral : List Char → Prop
  | plain {m : List Char} (hm : IsMagnitude m) : IsNumeral m
  | signed {m : List Char} (sign : Char) (hsign : sign = '+' ∨ sign = '-') (hm : IsMagnitude m) : IsNumeral (sign :: m)

def EndsNumeral (value more : List Char) : Prop :=
  ∀ d ∈ more.head?, d.isDigit = false ∧ ('.' ∉ value → d ≠ '.')

theorem EndsNumeral.of_signed {m more : List Char} {sign : Char} (h : EndsNumeral (sign :: m) more)
    (hsign : sign = '+' ∨ sign = '-') : EndsNumeral m more := by
  intro d hd
  refine ⟨(h d hd).1, fun hpoint => (h d hd).2 ?_⟩
  rintro (_ | ⟨_, hmem⟩)
  · simp at hsign
  · exact hpoint hmem

theorem isMagnitude_ne_nil {m : List Char} (h : IsMagnitude m) : m ≠ [] := by
  cases h with
  | whole _ _ hne => exact hne
  | point whole fraction => exact List.append_ne_nil_of_right_ne_nil whole (List.cons_ne_nil _ _)

theorem isNumeral_ne_nil {v : List Char} (h : IsNumeral v) : v ≠ [] := by
  cases h with
  | plain hm => exact isMagnitude_ne_nil hm
  | signed => exact List.cons_ne_nil _ _

theorem ne_of_class {p : Char → Bool} {c d : Char} (hc : p c = true) (hd : p d = false) : c ≠ d := by
  rintro rfl
  exact absurd hc (by simp [hd])

theorem isNumeric_of_isDigit {c : Char} (h : c.isDigit = true) : isNumeric c = true := by simp [isNumeric, h]

theorem isNumeric_of_mem_isMagnitude {m : List Char} (h : IsMagnitude m) {c : Char} (hc : c ∈ m) :
    isNumeric c = true := by
  cases h with
  | whole _ hwhole => exact isNumeric_of_isDigit (hwhole c hc)
  | point whole fraction hwhole hfraction =>
    rcases List.mem_append.1 hc with hc | hc
    · exact isNumeric_of_isDigit (hwhole c hc)
    · rcases List.mem_cons.1 hc with rfl | hc
      · rfl
      · exact isNumeric_of_isDigit (hfraction c hc)

theorem isNumeric_of_mem_isNumeral {v : List Char} (h : IsNumeral v) {c : Char} (hc : c ∈ v) : isNumeric c = true := by
  cases h with
  | plain hm => exact isNumeric_of_mem_isMagnitude hm hc
  | signed sign hsign hm =>
    rcases List.mem_cons.1 hc with rfl | hc
    · rcases hsign with rfl | rfl <;> rfl
    · exact isNumeric_of_mem_isMagnitude hm hc

theorem isAlpha_eq_false_of_isNumeric {c : Char} (h : isNumeric c = true) : c.isAlpha = false := by
  simp only [isNumeric, Bool.or_eq_true, beq_iff_eq] at h
  rcases h with ((h | rfl) | rfl) | rfl
  · exact isAlpha_eq_false_of_isDigit h
  all_goals rfl

theorem isNumeric_eq_false_of_isAlpha {c : Char} (h : c.isAlpha = true) : isNumeric c = false := by
  rw [Bool.eq_false_iff]
  intro hnumeric
  exact absurd (isAlpha_eq_false_of_isNumeric hnumeric) (by simp [h])

theorem magnitude_append {m more : List Char} (h : IsMagnitude m) (hmore : EndsNumeral m more) :
    magnitude (m ++ more) = m := by
  cases h with
  | whole whole hwhole hne =>
    have hstop : ∀ d ∈ more.head?, d.isDigit = false := fun d hd => (hmore d hd).1
    have hpoint : ∀ d ∈ more.head?, d ≠ '.' := by
      intro d hd
      apply (hmore d hd).2
      intro hmem
      exact absurd (hwhole _ hmem) (by decide)
    simp only [magnitude, takeWhile_append_stop hwhole hstop, dropWhile_append_stop hwhole hstop]
    split
    · next rest => exact absurd rfl (hpoint '.' rfl)
    · rfl
  | point whole fraction hwhole hfraction hne =>
    have hstop : ∀ d ∈ more.head?, d.isDigit = false := fun d hd => (hmore d hd).1
    have hpoint : ∀ d ∈ ('.' :: (fraction ++ more)).head?, d.isDigit = false := by simp
    have hne : ¬(whole = [] ∧ fraction = []) := by
      rintro ⟨rfl, rfl⟩
      simp at hne
    simp only [List.append_assoc, List.cons_append, magnitude, takeWhile_append_stop hwhole hpoint,
      dropWhile_append_stop hwhole hpoint, takeWhile_append_stop hfraction hstop, if_neg hne]

theorem head_ne_sign {m : List Char} (h : IsMagnitude m) {c : Char} {rest : List Char} (hm : m = c :: rest) :
    ¬(c = '+' ∨ c = '-') := by
  have hc : c.isDigit = true ∨ c = '.' := by
    cases h with
    | whole _ hwhole => exact .inl (hwhole c (hm ▸ List.mem_cons_self))
    | point whole fraction hwhole =>
      cases whole with
      | nil => exact .inr (List.cons.inj hm).1.symm
      | cons d whole => exact .inl ((List.cons.inj hm).1 ▸ hwhole d List.mem_cons_self)
  rintro (rfl | rfl) <;> simp at hc

theorem numeral_append {v more : List Char} (h : IsNumeral v) (hmore : EndsNumeral v more) :
    numeral (v ++ more) = v := by
  cases h with
  | plain hm =>
    obtain ⟨c, rest, rfl⟩ := List.exists_cons_of_ne_nil (isMagnitude_ne_nil hm)
    rw [List.cons_append, numeral, if_neg (head_ne_sign hm rfl), ← List.cons_append, magnitude_append hm hmore]
  | @signed m sign hsign hm =>
    rw [List.cons_append, numeral, if_pos hsign, magnitude_append hm (hmore.of_signed hsign),
      if_neg (isMagnitude_ne_nil hm)]

theorem exists_magnitude {cs : List Char} (h : magnitude cs ≠ []) :
    ∃ m more, cs = m ++ more ∧ IsMagnitude m ∧ EndsNumeral m more := by
  obtain ⟨whole, rest, rfl, hwhole, hstop⟩ := exists_cut Char.isDigit cs
  simp only [magnitude, takeWhile_append_stop hwhole hstop, dropWhile_append_stop hwhole hstop] at h
  split at h
  · next rest =>
    obtain ⟨fraction, more, rfl, hfraction, hmore⟩ := exists_cut Char.isDigit rest
    rw [takeWhile_append_stop hfraction hmore] at h
    have hne : ¬(whole = [] ∧ fraction = []) := fun hnil => h (if_pos hnil)
    refine ⟨whole ++ '.' :: fraction, more, by simp, .point whole fraction hwhole hfraction (by tauto), ?_⟩
    intro d hd
    exact ⟨hmore d hd, fun hpoint => absurd (by simp) hpoint⟩
  · next hpoint =>
    refine ⟨whole, rest, rfl, .whole whole hwhole h, ?_⟩
    intro d hd
    refine ⟨hstop d hd, fun _ => ?_⟩
    rintro rfl
    cases rest with
    | nil => cases hd
    | cons c more => exact hpoint more (congrArg (· :: more) (Option.some.inj hd))

theorem exists_numeral {cs : List Char} (h : numeral cs ≠ []) :
    ∃ v more, cs = v ++ more ∧ IsNumeral v ∧ EndsNumeral v more := by
  cases cs with
  | nil => exact absurd rfl h
  | cons c rest =>
    by_cases hsign : c = '+' ∨ c = '-'
    · have hne : magnitude rest ≠ [] := by
        intro hnil
        exact h (by simp only [numeral, if_pos hsign, if_pos hnil])
      obtain ⟨m, more, rfl, hm, hmore⟩ := exists_magnitude hne
      refine ⟨c :: m, more, rfl, .signed c hsign hm, ?_⟩
      intro d hd
      exact ⟨(hmore d hd).1, fun hpoint => (hmore d hd).2 fun hmem => hpoint (List.mem_cons_of_mem c hmem)⟩
    · rw [numeral, if_neg hsign] at h
      obtain ⟨m, more, hcs, hm, hmore⟩ := exists_magnitude h
      exact ⟨m, more, hcs, .plain hm, hmore⟩

theorem magnitude_eq_nil_iff {cs : List Char} :
    magnitude cs = [] ↔
      (∀ d ∈ cs.head?, d.isDigit = false) ∧ ∀ rest, cs = '.' :: rest → ∀ d ∈ rest.head?, d.isDigit = false := by
  cases cs with
  | nil => simp [magnitude]
  | cons c rest =>
    cases hc : c.isDigit with
    | true => simp only [magnitude, List.takeWhile_cons, List.dropWhile_cons, hc, if_true]; split <;> simp [hc]
    | false =>
      by_cases hpoint : c = '.'
      · subst hpoint
        cases rest with
        | nil => simp [magnitude]
        | cons d rest => cases hd : d.isDigit <;> simp [magnitude, hd]
      · simp [magnitude, hc, hpoint]

theorem magnitude_append_ne_nil {m : List Char} (h : IsMagnitude m) (more : List Char) : magnitude (m ++ more) ≠ [] := by
  rw [ne_eq, magnitude_eq_nil_iff]
  rintro ⟨hhead, hpoint⟩
  have hwhole_nil : ∀ whole rest : List Char, m = whole ++ rest → (∀ c ∈ whole, c.isDigit = true) → whole = [] := by
    rintro (_ | ⟨c, whole⟩) rest rfl hwhole
    · rfl
    · exact absurd (hhead c rfl) (by simp [hwhole c List.mem_cons_self])
  cases h with
  | whole _ hwhole hne => exact hne (hwhole_nil m [] (by simp) hwhole)
  | point whole fraction hwhole hfraction hne =>
    obtain rfl := hwhole_nil whole _ rfl hwhole
    obtain ⟨d, fraction, rfl⟩ := List.exists_cons_of_ne_nil (hne.resolve_left fun hnot => hnot rfl)
    have hd := hpoint _ rfl d rfl
    exact absurd hd (by simp [hfraction d List.mem_cons_self])

theorem numeral_append_ne_nil {v : List Char} (h : IsNumeral v) (more : List Char) : numeral (v ++ more) ≠ [] := by
  cases h with
  | plain hm =>
    have hne := magnitude_append_ne_nil hm more
    obtain ⟨c, rest, rfl⟩ := List.exists_cons_of_ne_nil (isMagnitude_ne_nil hm)
    rwa [List.cons_append, numeral, if_neg (head_ne_sign hm rfl), ← List.cons_append]
  | signed sign hsign hm =>
    have hne := magnitude_append_ne_nil hm more
    simp [numeral, if_pos hsign, hne]

theorem numeral_of_isAlpha {d : Char} (h : d.isAlpha = true) (rest : List Char) : numeral (d :: rest) = [] := by
  have hnumeric := isNumeric_eq_false_of_isAlpha h
  simp only [isNumeric, Bool.or_eq_false_iff, beq_eq_false_iff_ne] at hnumeric
  obtain ⟨⟨⟨hdigit, hpoint⟩, hplus⟩, hminus⟩ := hnumeric
  simp [numeral, magnitude, hdigit, hpoint, hplus, hminus]

end Machining.Line
