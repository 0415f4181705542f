import Mathlib
import Machining.Proofs.Division
import Machining.Program.Segment

/-!
Idle lines: blank ones, and markers. White space and the percent sign begin no number, no word and no comment. So an
idle line has no line number and no token but single characters; it opens no operation, begins no block, triggers no
footer and has no say in the heading of an operation.
-/

namespace Machining
open Machining.Text

def isWhite (text : String) : Bool := trim text.toList == []

namespace Text

theorem mem_dropWhile {α : Type} (p : α → Bool) {x : α} {xs : List α} (hx : x ∈ xs) :
    p x = true ∨ x ∈ xs.dropWhile p := by
  rw [← List.takeWhile_append_dropWhile (p := p) (l := xs), List.mem_append] at hx
  rcases hx with hx | hx
  · exact .inl (List.all_eq_true.1 List.all_takeWhile x hx)
  · exact .inr hx

theorem mem_trim {c : Char} {cs : List Char} (hc : c ∈ cs) : isWhiteSpace c = true ∨ c ∈ trim cs := by
  rcases mem_dropWhile isWhiteSpace hc with hc | hc
  · exact .inl hc
  · rw [trim, dropEndWhile, List.mem_reverse]
    exact mem_dropWhile isWhiteSpace (List.mem_reverse.2 hc)

theorem toUpper_of_not_isAlpha {c : Char} (h : c.isAlpha = false) : c.toUpper = c := by
  apply Char.toUpper_eq_of_not_isLower
  simp_all [Char.isAlpha]

end Text

namespace Line

def isInert (c : Char) : Bool := !c.isAlpha && !isNumeric c && c != '(' && c != ';'

theorem isInert_of_isWhiteSpace {c : Char} (h : isWhiteSpace c = true) : isInert c = true := by
  simp only [isWhiteSpace, isInert, isNumeric, Char.isAlpha, Char.isUpper, Char.isLower, Char.isDigit, Char.toNat,
    UInt32.le_iff_toNat_le] at *
  simp [Char.ext_iff, UInt32.ext_iff] at *
  omega

theorem toUpper_eq_of_isInert {c : Char} (h : isInert c = true) : c.toUpper = c := by
  apply toUpper_of_not_isAlpha
  simp_all [isInert]

theorem lexeme_of_isInert {c : Char} (h : isInert c = true) (rest : List Char) : lexeme c rest = (.other [c], 0) := by
  simp only [isInert, Bool.and_eq_true, Bool.not_eq_true', bne_iff_ne] at h
  obtain ⟨⟨⟨halpha, hnumeric⟩, hopen⟩, hsemicolon⟩ := h
  simp [lexeme, halpha, hnumeric, hopen, hsemicolon]

theorem numberDigits_of_isInert {c : Char} (h : isInert c = true) (rest : List Char) : numberDigits c rest = [] := by
  rw [numberDigits, toUpper_eq_of_isInert h, if_neg]
  rintro rfl
  exact absurd h (by decide)

theorem piece_of_isInert {cs : List Char} (h : ∀ c ∈ cs, isInert c = true) {p : Piece} (hp : p ∈ pieces cs) :
    (∃ c, p = .blank c) ∨ ∃ c, p = .token (.other [c]) [c] := by
  rcases List.mem_append.1 hp with hp | hp
  · obtain ⟨c, -, rfl⟩ := List.mem_map.1 hp
    exact .inl ⟨c, rfl⟩
  · have hsuffix : cs.dropWhile isBlank <:+ cs := List.dropWhile_suffix isBlank
    generalize cs.dropWhile isBlank = ds at hp hsuffix
    cases ds with
    | nil => exact absurd hp List.not_mem_nil
    | cons d ds =>
      have hd : isInert d = true := h d (hsuffix.subset List.mem_cons_self)
      simp only [unindented, numberDigits_of_isInert hd, if_true] at hp
      obtain ⟨c, rest, hrest, rfl⟩ := exists_of_mem_munch Piece.next hp
      have hc : isInert c = true := h c ((hrest.trans hsuffix).subset List.mem_cons_self)
      simp only [Piece.next, lexeme_of_isInert hc]
      split
      · exact .inl ⟨c, rfl⟩
      · exact .inr ⟨c, rfl⟩

theorem ofChars_of_isInert {cs : List Char} (h : ∀ c ∈ cs, isInert c = true) :
    (ofChars cs).number = none ∧ ∀ t ∈ (ofChars cs).tokens, ∃ c, t = .other [c] := by
  constructor
  · refine List.findSome?_eq_none_iff.2 fun p hp => ?_
    rcases piece_of_isInert h hp with ⟨c, rfl⟩ | ⟨c, rfl⟩ <;> rfl
  · intro t ht
    obtain ⟨p, hp, hpt⟩ := List.mem_filterMap.1 ht
    rcases piece_of_isInert h hp with ⟨c, rfl⟩ | ⟨c, rfl⟩
    · exact absurd hpt (by simp [Piece.token?])
    · exact ⟨c, (Option.some.inj hpt).symm⟩

end Line

variable {text : String}

theorem isIdle_of_isWhite (h : isWhite text = true) : isIdle text = true := by
  simp only [isWhite] at h
  simp [isIdle, h]

theorem isWhite_eq_false {q : String → Bool} (hq : isIdle text = true → q text = false) (h : q text = true) :
    isWhite text = false := by
  cases hwhite : isWhite text with
  | false => rfl
  | true => exact absurd h (by simp [hq (isIdle_of_isWhite hwhite)])

theorem isIdle_of_isMarker (h : isMarker text = true) : isIdle text = true := by simp [isIdle, h]

theorem isInert_of_isIdle (h : isIdle text = true) {c : Char} (hc : c ∈ text.toList) : Line.isInert c = true := by
  rcases mem_trim hc with hc | hc
  · exact Line.isInert_of_isWhiteSpace hc
  · simp only [isIdle, isMarker, Bool.or_eq_true, beq_iff_eq] at h
    rcases h with h | h
    · rw [h, List.mem_singleton] at hc
      subst hc
      decide
    · rw [h] at hc
      exact absurd hc List.not_mem_nil

theorem number_of_isIdle (h : isIdle text = true) : (Line.read text).number = none :=
  (Line.ofChars_of_isInert fun _ hc => isInert_of_isIdle h hc).1

theorem tokens_of_isIdle (h : isIdle text = true) : ∀ t ∈ (Line.read text).tokens, ∃ c, t = .other [c] :=
  (Line.ofChars_of_isInert fun _ hc => isInert_of_isIdle h hc).2

theorem words_of_isIdle (h : isIdle text = true) : (Line.read text).words = [] := by
  refine List.filterMap_eq_nil_iff.2 fun t ht => ?_
  obtain ⟨c, rfl⟩ := tokens_of_isIdle h t ht
  rfl

theorem comments_of_isIdle (h : isIdle text = true) : (Line.read text).comments = [] := by
  refine List.filterMap_eq_nil_iff.2 fun t ht => ?_
  obtain ⟨c, rfl⟩ := tokens_of_isIdle h t ht
  rfl

theorem toolRemark?_of_isIdle (h : isIdle text = true) : (Line.read text).toolRemark? = none := by
  refine List.findSome?_eq_none_iff.2 fun t ht => ?_
  obtain ⟨c, rfl⟩ := tokens_of_isIdle h t ht
  rfl

theorem opensOperation_of_isIdle (rule : BoundaryRule) (h : isIdle text = true) :
    opensOperation rule text = false := by
  have hnumber := number_of_isIdle h
  have hwords := words_of_isIdle h
  cases rule <;> simp [opensOperation, Line.isBoundary, Line.hasToolChange, hnumber, hwords]

theorem selectsOffset_of_isIdle (h : isIdle text = true) : selectsOffset text = false := by
  have hwords := words_of_isIdle h
  simp [selectsOffset, Line.offsetCode?, Word.offsetCode?, hwords]

theorem triggersFooter_of_isIdle (h : isIdle text = true) : triggersFooter text = false := by
  have hwords := words_of_isIdle h
  simp [triggersFooter, Line.isFooterTrigger, hwords]

theorem Heading.add_of_isIdle (heading : Heading) (h : isIdle text = true) :
    heading.add (Line.read text) = heading := by
  have hwords := words_of_isIdle h
  have hcomments := comments_of_isIdle h
  have hremark := toolRemark?_of_isIdle h
  obtain ⟨name, tool, description⟩ := heading
  cases tool <;>
    simp [Heading.add, Heading.addTool, Heading.addName, Line.toolWord?, Line.operationName?, hwords, hcomments, hremark]

theorem Heading.ofLines_append_idle (g : List String) {w : List String} (h : ∀ l ∈ w, isIdle l = true) :
    Heading.ofLines (g ++ w) = Heading.ofLines g := by
  rw [Heading.ofLines, List.foldl_append, ← Heading.ofLines]
  induction w with
  | nil => rfl
  | cons l w ih =>
    obtain ⟨hl, hw⟩ := List.forall_mem_cons.1 h
    rw [List.foldl_cons, Heading.add_of_isIdle _ hl, ih hw]

end Machining
