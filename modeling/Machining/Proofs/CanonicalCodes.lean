import Machining.Proofs.DividedOperations
import Machining.Proofs.Rows
import Machining.Proofs.Segmentation

/-!
Offset codes as lines of their own. However a line writes its offset, the code it is given is written in one way: the
letter, one of seven numbers without zeros around it, and the digits of the selector behind one blank. Read as a line, a
code has just these words, so it selects the offset that it names, and nothing else is asked for by it.
-/

namespace Machining
open Machining.Text

def offsetNumbers : List String := ["54", "55", "56", "57", "58", "59", "54.1"]

inductive IsOffsetCode : String → Prop
  | plain {number : String} (hnumber : number ∈ offsetNumbers) : IsOffsetCode ("G" ++ number)
  | selected {number : String} {digits : List Char} (hnumber : number ∈ offsetNumbers) (hne : digits ≠ [])
      (hdigits : allDigits digits = true) (hlt : value digits < 2 ^ 32) :
      IsOffsetCode ("G" ++ number ++ " P" ++ String.ofList digits)

structure IsCanonical (code : String) : Prop where
  isOffsetCode : IsOffsetCode code
  offsetCode?_eq : (Line.read code).offsetCode? = some code
  isFooterTrigger_eq : (Line.read code).isFooterTrigger = false
  isBoundary_eq : ∀ rule, (Line.read code).isBoundary rule = false

namespace Word

variable {w : Word} {ws : List Word} {code number : String}

theorem offset?_mem (h : w.offset? = some number) : number ∈ offsetNumbers := by
  unfold offset? at h
  split at h
  · next hcode =>
    obtain ⟨n, hn, rfl⟩ := Option.map_eq_some_iff.1 h
    simp only [isCode, hn, Option.any_some, Bool.and_eq_true, List.contains_iff_mem] at hcode
    have hall : ∀ m ∈ [54, 55, 56, 57, 58, 59], toString m ∈ offsetNumbers := by decide
    exact hall n hcode.2
  · split at h
    · obtain rfl := Option.some.inj h
      decide
    · cases h

theorem exists_of_selector? (h : w.selector? = some code) :
    ∃ digits, code = String.ofList digits ∧ digits ≠ [] ∧ allDigits digits = true ∧ Text.value digits < 2 ^ 32 := by
  unfold selector? at h
  split at h
  · next hselects =>
    obtain ⟨n, hn⟩ := Option.isSome_iff_exists.1 hselects.2
    obtain ⟨hne, hdigits, rfl, hlt⟩ := readBelow?_eq_some_iff.1 hn
    exact ⟨w.value, (Option.some.inj h).symm, hne, hdigits, hlt⟩
  · cases h

theorem isOffsetCode_of_offsetCode? (h : offsetCode? ws = some code) : IsOffsetCode code := by
  induction ws with
  | nil => cases h
  | cons w rest ih =>
    unfold offsetCode? at h
    split at h
    · exact ih h
    · next number hoffset =>
      have hnumber := offset?_mem hoffset
      split at h
      · next hselector =>
        obtain ⟨next, -, hnext⟩ := Option.bind_eq_some_iff.1 hselector
        obtain ⟨digits, rfl, hne, hdigits, hlt⟩ := exists_of_selector? hnext
        obtain rfl := Option.some.inj h
        exact .selected hnumber hne hdigits hlt
      · obtain rfl := Option.some.inj h
        exact .plain hnumber

end Word

namespace Line

variable {number : String} {more digits : List Char} {ps : List Piece}

theorem isNumeral_of_mem_offsetNumbers (h : number ∈ offsetNumbers) : IsNumeral number.toList := by
  have hforms : ∀ number ∈ offsetNumbers,
      number.toList ≠ [] ∧ allDigits number.toList = true ∨ number.toList = ['5', '4'] ++ '.' :: ['1'] := by decide
  rcases hforms number h with ⟨hne, hdigits⟩ | hpoint
  · exact .plain (.whole number.toList (List.all_eq_true.1 hdigits) hne)
  · rw [hpoint]
    exact .plain (.point ['5', '4'] ['1'] (by simp) (by simp) (by simp))

theorem ofChars_offset (hnumber : number ∈ offsetNumbers) (hmore : EndsNumeral number.toList more)
    (hps : Row more ps []) :
    ofChars ('G' :: (number.toList ++ more)) = ⟨none, .word ⟨'G', number.toList⟩ :: ps.filterMap Piece.token?⟩ := by
  have hlead : Lead ([] ++ 'G' :: (number.toList ++ more)) ([].map .blank) ('G' :: (number.toList ++ more)) := by
    apply Lead.none (by simp)
    · rintro c ⟨⟩
      rfl
    · rintro c d rest hcs hc
      obtain ⟨rfl, -⟩ := List.cons.inj hcs
      cases hc
  have hword : Piece.Begins ('G' :: (number.toList ++ more))
      (.token (.word ⟨'G', number.toList⟩) ('G' :: number.toList)) more :=
    .word rfl (isNumeral_of_mem_offsetNumbers hnumber) hmore
  exact ofChars_of_lead hlead (.cons hword hps)

theorem read_plain (hnumber : number ∈ offsetNumbers) :
    read ("G" ++ number) = ⟨none, [⟨'G', number.toList⟩].map .word⟩ := by
  have hends : EndsNumeral number.toList [] := by simp [EndsNumeral]
  have hchars : ("G" ++ number).toList = 'G' :: (number.toList ++ []) := by simp
  rw [read, hchars, ofChars_offset hnumber hends .nil]
  rfl

theorem read_selected (hnumber : number ∈ offsetNumbers) (hne : digits ≠ []) (hdigits : allDigits digits = true) :
    read ("G" ++ number ++ " P" ++ String.ofList digits) =
      ⟨none, [⟨'G', number.toList⟩, ⟨'P', digits⟩].map .word⟩ := by
  have hends : EndsNumeral number.toList (' ' :: 'P' :: (digits ++ [])) := by
    rintro d ⟨⟩
    exact ⟨rfl, fun _ => by decide⟩
  have hchars : ("G" ++ number ++ " P" ++ String.ofList digits).toList =
      'G' :: (number.toList ++ ' ' :: 'P' :: (digits ++ [])) := by simp
  have hvalue : IsNumeral digits := .plain (.whole digits (List.all_eq_true.1 hdigits) hne)
  have hselector : Piece.Begins ('P' :: (digits ++ [])) (.token (.word ⟨'P', digits⟩) ('P' :: digits)) [] :=
    .word rfl hvalue (by simp [EndsNumeral])
  rw [read, hchars, ofChars_offset hnumber hends (.cons (.blank rfl) (.cons hselector .nil))]
  rfl

end Line

theorem isCanonical_of_words {code : String} {ws : List Word} (hform : IsOffsetCode code)
    (hread : Line.read code = ⟨none, ws.map .word⟩) (hcode : Word.offsetCode? ws = some code)
    (hpassive : ∀ w ∈ ws, w.isToolChange = false ∧ w.isClosing = false) : IsCanonical code := by
  have hwords : (Line.read code).words = ws := by
    rw [hread, Line.words, List.filterMap_map]
    exact List.filterMap_some
  have htool : (Line.read code).hasToolChange = false := by
    rw [Line.hasToolChange, hwords, List.any_eq_false]
    exact fun w hw => by simp [(hpassive w hw).1]
  refine ⟨hform, ?_, ?_, fun rule => ?_⟩
  · rw [Line.offsetCode?, hwords, hcode]
  · rw [Line.isFooterTrigger, hwords, List.any_eq_false]
    exact fun w hw => by simp [(hpassive w hw).2]
  · have hnumber : (Line.read code).number = none := by rw [hread]
    cases rule <;> simp [Line.isBoundary, hnumber, htool]

theorem offset_word {number : String} (h : number ∈ offsetNumbers) :
    Word.offset? ⟨'G', number.toList⟩ = some number ∧ Word.isToolChange ⟨'G', number.toList⟩ = false ∧
      Word.isClosing ⟨'G', number.toList⟩ = false := by
  have hall : ∀ number ∈ offsetNumbers, Word.offset? ⟨'G', number.toList⟩ = some number ∧
      Word.isToolChange ⟨'G', number.toList⟩ = false ∧ Word.isClosing ⟨'G', number.toList⟩ = false := by decide
  exact hall number h

theorem IsOffsetCode.isCanonical {code : String} (h : IsOffsetCode code) : IsCanonical code := by
  have hform := h
  cases h with
  | plain hnumber =>
    obtain ⟨hoffset, hpassive⟩ := offset_word hnumber
    apply isCanonical_of_words hform (Line.read_plain hnumber)
    · simp [Word.offsetCode?, hoffset]
    · simpa using hpassive
  | @selected number digits hnumber hne hdigits hlt =>
    obtain ⟨hoffset, hpassive⟩ := offset_word hnumber
    have hnatural : Word.natural? ⟨'P', digits⟩ = some (value digits) :=
      readBelow?_eq_some_iff.2 ⟨hne, hdigits, rfl, hlt⟩
    apply isCanonical_of_words hform (Line.read_selected hnumber hne hdigits)
    · simp [Word.offsetCode?, hoffset, Word.selector?, hnatural]
    · have hselector : Word.isToolChange ⟨'P', digits⟩ = false ∧ Word.isClosing ⟨'P', digits⟩ = false := by
        simp [Word.isToolChange, Word.isClosing, Word.isCode]
      simpa using ⟨hpassive, hselector⟩

/-- Every code that a line is given is canonical, and so is every code in a program. -/
theorem offsetCode?_canonical :
    (∀ text code, (Line.read text).offsetCode? = some code → IsCanonical code) ∧
    ∀ (o : Options) (text : String), ∀ op ∈ (segment o text).operations, ∀ b ∈ op.blocks, IsCanonical b.code := by
  have hcanonical (text code : String) (h : (Line.read text).offsetCode? = some code) : IsCanonical code :=
    (Word.isOffsetCode_of_offsetCode? h).isCanonical
  refine ⟨hcanonical, fun o text op hop b hb => ?_⟩
  have hseg : (segment o text).Segments o.boundary (Text.lines text) := segments_segmentLines o (Text.lines text)
  rw [← hseg.divided op hop] at hb
  obtain ⟨opening, rest, -, -, hcode, -⟩ := op.isDivided_classify.blocks_selected b hb
  exact hcanonical opening b.code hcode

theorem offsetCode?_canonical_selector :
    (Line.read "N4 g0054.10 (P1)P007 X1").offsetCode? = some "G54.1 P007" ∧ IsCanonical "G54.1 P007" ∧
    (segment {} "N4\nG054.10P007 M3\nM9").operations.flatMap Operation.blocks =
      [⟨"G54.1 P007", 2, 2, ["G054.10P007 M3"]⟩] ∧
    ∀ op ∈ (segment {} "N4\nG054.10P007 M3\nM9").operations, ∀ b ∈ op.blocks, IsCanonical b.code := by
  have hcode : (Line.read "N4 g0054.10 (P1)P007 X1").offsetCode? = some "G54.1 P007" := by decide
  exact ⟨hcode, offsetCode?_canonical.1 _ _ hcode, by decide, offsetCode?_canonical.2 {} _⟩

end Machining
