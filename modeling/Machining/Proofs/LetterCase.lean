import Machining.Proofs.IdleLines
import Machining.Proofs.LineEnds

/-!
The case of letters. Folding makes the letters `a` to `z` upper case and keeps all other characters, so no character
becomes or ceases to be a letter, digit, blank, sign or line end. Tests that ask for no more than that are blind to
case. Trimming, dividing a text into lines and joining them use no other tests and commute with folding.
-/

namespace Machining
open Machining.Text

namespace Text

/-- The letters `a` to `z` made upper case; all other characters stay. -/
def foldCase (text : String) : String := String.ofList (text.toList.map Char.toUpper)

theorem toList_foldCase (text : String) : (foldCase text).toList = text.toList.map Char.toUpper :=
  String.toList_ofList

theorem foldCase_ofList (cs : List Char) : foldCase (String.ofList cs) = String.ofList (cs.map Char.toUpper) := by
  rw [foldCase, String.toList_ofList]

theorem map_toUpper_map_toUpper (cs : List Char) : (cs.map Char.toUpper).map Char.toUpper = cs.map Char.toUpper := by
  simp only [List.map_map, Function.comp_def, Char.toUpper_toUpper_eq_toUpper]

theorem toUpper_eq_iff {c x : Char} (hx : x.isAlpha = false) : c.toUpper = x ↔ c = x := by
  cases hc : c.isAlpha with
  | false => rw [toUpper_of_not_isAlpha hc]
  | true =>
    have hupper : c.toUpper.isAlpha = true := by simpa using hc
    constructor
    · rintro rfl
      exact absurd hx (by simp [hupper])
    · rintro rfl
      exact absurd hx (by simp [hc])

theorem map_toUpper_of_not_isAlpha {cs : List Char} (h : ∀ c ∈ cs, c.isAlpha = false) : cs.map Char.toUpper = cs := by
  rw [List.map_congr_left fun c hc => toUpper_of_not_isAlpha (h c hc), List.map_id']

def CaseBlind (p : Char → Bool) : Prop := p ∘ Char.toUpper = p

namespace CaseBlind

variable {p : Char → Bool}

theorem of_letters {b : Bool} (h : ∀ c, c.isAlpha = true → p c = b) : CaseBlind p := by
  funext c
  cases hc : c.isAlpha with
  | true => rw [Function.comp_apply, h c hc, h c.toUpper (by simpa using hc)]
  | false => rw [Function.comp_apply, toUpper_of_not_isAlpha hc]

theorem of_nonletters (h : ∀ c, p c = true → c.isAlpha = false) : CaseBlind p := by
  apply of_letters (b := false)
  intro c hc
  rw [Bool.eq_false_iff]
  intro hp
  exact absurd (h c hp) (by simp [hc])

theorem apply (h : CaseBlind p) (c : Char) : p c.toUpper = p c := congrFun h c

theorem takeWhile (h : CaseBlind p) (cs : List Char) :
    (cs.map Char.toUpper).takeWhile p = (cs.takeWhile p).map Char.toUpper := by
  rw [List.takeWhile_map, h]

theorem dropWhile (h : CaseBlind p) (cs : List Char) :
    (cs.map Char.toUpper).dropWhile p = (cs.dropWhile p).map Char.toUpper := by
  rw [List.dropWhile_map, h]

end CaseBlind

theorem isAlpha_eq_false_of_isDigit {c : Char} (h : c.isDigit = true) : c.isAlpha = false := by
  rw [Bool.eq_false_iff]
  intro halpha
  simp only [Char.isAlpha, Char.isUpper, Char.isLower, Char.isDigit, UInt32.le_iff_toNat_le] at *
  simp at *
  omega

theorem caseBlind_isDigit : CaseBlind Char.isDigit := .of_nonletters fun _ => isAlpha_eq_false_of_isDigit

theorem caseBlind_isAlpha : CaseBlind Char.isAlpha := by
  apply CaseBlind.of_letters (b := true)
  exact fun _ hc => hc

theorem caseBlind_isAlphanum : CaseBlind Char.isAlphanum := by
  apply CaseBlind.of_letters (b := true)
  intro c hc
  simp [Char.isAlphanum, hc]

theorem caseBlind_bne {x : Char} (hx : x.isAlpha = false) : CaseBlind (· != x) := by
  apply CaseBlind.of_letters (b := true)
  intro c hc
  rw [bne_iff_ne]
  rintro rfl
  exact absurd hx (by simp [hc])

theorem caseBlind_isWhiteSpace : CaseBlind isWhiteSpace := by
  apply CaseBlind.of_nonletters
  intro c hc
  have hinert := Line.isInert_of_isWhiteSpace hc
  simp_all [Line.isInert]

theorem caseBlind_isBlank : CaseBlind Line.isBlank := by
  apply CaseBlind.of_nonletters
  intro c hc
  simp only [Line.isBlank, Bool.or_eq_true, beq_iff_eq] at hc
  rcases hc with rfl | rfl <;> rfl

theorem caseBlind_isNumeric : CaseBlind Line.isNumeric := by
  apply CaseBlind.of_nonletters
  intro c hc
  simp only [Line.isNumeric, Bool.or_eq_true, beq_iff_eq] at hc
  rcases hc with ((hc | rfl) | rfl) | rfl
  · exact isAlpha_eq_false_of_isDigit hc
  all_goals rfl

theorem trim_map_toUpper (cs : List Char) : trim (cs.map Char.toUpper) = (trim cs).map Char.toUpper := by
  simp only [trim, dropEndWhile, caseBlind_isWhiteSpace.dropWhile, ← List.map_reverse]

theorem betweenEnds_map_toUpper (cs : List Char) :
    betweenEnds (cs.map Char.toUpper) = (betweenEnds cs).map (List.map Char.toUpper) := by
  fun_induction betweenEnds cs with
  | case1 => rfl
  | case2 rest ih =>
    change [] :: betweenEnds (rest.map Char.toUpper) = _
    rw [ih]
    rfl
  | case3 c rest hne hc ih =>
    have hpair : ∀ more, c = '\r' → rest.map Char.toUpper = '\n' :: more → False := by
      intro more hreturn hrest
      obtain ⟨d, tail, rfl, hd, -⟩ := List.map_eq_cons_iff.1 hrest
      exact hne tail hreturn (congrArg (· :: tail) ((toUpper_eq_iff rfl).1 hd))
    have hupper : c.toUpper = c := by rcases hc with rfl | rfl <;> rfl
    rw [List.map_cons, hupper, betweenEnds.eq_3 c _ hpair, if_pos hc, ih]
    rfl
  | case4 c rest hne hc ih =>
    obtain ⟨l, ls, hls⟩ := List.exists_cons_of_ne_nil (betweenEnds_ne_nil rest)
    have hupper : c.toUpper ≠ '\n' ∧ c.toUpper ≠ '\r' := by
      rw [ne_eq, ne_eq, toUpper_eq_iff rfl, toUpper_eq_iff rfl]
      exact not_or.1 hc
    rw [List.map_cons, betweenEnds_cons hupper, ih, hls]
    rfl

theorem lines_foldCase (text : String) : lines (foldCase text) = (lines text).map foldCase := by
  by_cases h : text = ""
  · subst h
    rfl
  · have hfold : foldCase text ≠ "" := by
      intro hempty
      have hchars := toList_foldCase text
      rw [hempty] at hchars
      exact h (String.toList_eq_nil_iff.1 (List.map_eq_nil_iff.1 hchars.symm))
    rw [lines_eq_betweenEnds h, lines_eq_betweenEnds hfold, toList_foldCase, betweenEnds_map_toUpper]
    simp [foldCase_ofList]

theorem intercalate_map {α β : Type} (f : α → β) (separator : List α) (ls : List (List α)) :
    (separator.map f).intercalate (ls.map (List.map f)) = (separator.intercalate ls).map f := by
  induction ls with
  | nil => rfl
  | cons l ls ih =>
    by_cases hls : ls = []
    · simp [hls]
    · rw [List.map_cons, List.intercalate_cons_of_ne_nil (by simpa using hls), List.intercalate_cons_of_ne_nil hls, ih]
      simp

theorem join_foldCase (ls : List String) : join (ls.map foldCase) = foldCase (join ls) := by
  apply String.toList_inj.1
  have hchars : (ls.map foldCase).map String.toList = (ls.map String.toList).map (List.map Char.toUpper) := by
    simp [Function.comp_def, toList_foldCase]
  rw [toList_foldCase, toList_join, toList_join, hchars, ← intercalate_map]
  rfl

end Text

end Machining
