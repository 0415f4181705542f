import Machining.Line.Codes
import Machining.Proofs.LeadingZeros

/-!
Codes by the value of their numbers. Zeros in front of a number do not change its value, so the codes of a padded line
ask for the same as before. A word is a code exactly when its number is written with digits only and has the value of
the code. This is the value of all the digits, however many there are: reading them one by one refuses what reaches the
limit instead of going on with a smaller number.
-/

namespace Machining
open Machining.Text

namespace Text

def readDigits? (limit : Nat) : Nat → List Char → Option Nat
  | n, [] => some n
  | n, d :: ds =>
    let next := 10 * n + (d.toNat - '0'.toNat)
    if d.isDigit ∧ next < limit then readDigits? limit next ds else none

theorem le_ofDigitChars (n : Nat) (ds : List Char) : n ≤ Nat.ofDigitChars 10 ds n := by
  induction ds generalizing n with
  | nil => exact Nat.le_refl n
  | cons d ds ih =>
    have hnext := ih (10 * n + (d.toNat - '0'.toNat))
    rw [Nat.ofDigitChars_cons]
    omega

theorem readDigits?_eq {limit n : Nat} (hn : n < limit) (ds : List Char) :
    readDigits? limit n ds =
      if allDigits ds ∧ Nat.ofDigitChars 10 ds n < limit then some (Nat.ofDigitChars 10 ds n) else none := by
  induction ds generalizing n with
  | nil => simp [readDigits?, allDigits, hn]
  | cons d ds ih =>
    have hle := le_ofDigitChars (10 * n + (d.toNat - '0'.toNat)) ds
    simp only [readDigits?, Nat.ofDigitChars_cons, allDigits, List.all_cons, Bool.and_eq_true]
    by_cases hd : d.isDigit = true ∧ 10 * n + (d.toNat - '0'.toNat) < limit
    · rw [if_pos hd, ih hd.2]
      simp [allDigits, hd.1]
    · rw [if_neg hd, if_neg]
      rintro ⟨⟨hdigit, -⟩, hlt⟩
      exact hd ⟨hdigit, Nat.lt_of_le_of_lt hle hlt⟩

end Text

inductive Word.Padded : Word → Word → Prop
  | same (w : Word) : Padded w w
  | value (letter : Char) {v v' : List Char} (h : PadsNumber v v') : Padded ⟨letter, v⟩ ⟨letter, v'⟩

inductive Token.Padded : Token → Token → Prop
  | same (t : Token) : Padded t t
  | word {w w' : Word} (h : w.Padded w') : Padded (.word w) (.word w')

namespace Word.Padded

variable {w w' : Word}

theorem letter_eq (h : w.Padded w') : w'.letter = w.letter := by cases h <;> rfl

theorem natural?_eq (h : w.Padded w') : w'.natural? = w.natural? := by
  cases h with
  | same => rfl
  | value letter hv => exact hv.readBelow?_eq numberLimit

theorem isCode_eq (h : w.Padded w') (letter : Char) (codes : List Nat) :
    w'.isCode letter codes = w.isCode letter codes := by
  rw [isCode, isCode, h.letter_eq, h.natural?_eq]

theorem isFurtherOffset_eq (h : w.Padded w') : w'.isFurtherOffset = w.isFurtherOffset := by
  cases h with
  | same => rfl
  | value letter hv =>
    obtain ⟨-, k, rfl⟩ := hv
    have hzeros : ∀ c ∈ List.replicate k '0', (c != '.') = true := fun c hc => List.eq_of_mem_replicate hc ▸ rfl
    have hdrop : ∀ c ∈ List.replicate k '0', (c == '0') = true := fun c hc => beq_iff_eq.2 (List.eq_of_mem_replicate hc)
    simp only [isFurtherOffset, List.takeWhile_append_of_pos hzeros, List.dropWhile_append_of_pos hzeros,
      List.dropWhile_append_of_pos hdrop]

theorem offset?_eq (h : w.Padded w') : w'.offset? = w.offset? := by
  rw [offset?, offset?, h.isCode_eq, h.natural?_eq, h.isFurtherOffset_eq]

theorem isToolChange_eq (h : w.Padded w') : w'.isToolChange = w.isToolChange := h.isCode_eq 'M' [6]

theorem isClosing_eq (h : w.Padded w') : w'.isClosing = w.isClosing := by
  rw [isClosing, isClosing, h.isCode_eq, h.isCode_eq]

end Word.Padded

inductive PadsCode : String → String → Prop
  | same (code : String) : PadsCode code code
  | selector (number : String) {v v' : List Char} (h : PadsNumber v v') :
      PadsCode ("G" ++ number ++ " P" ++ String.ofList v) ("G" ++ number ++ " P" ++ String.ofList v')

namespace Word

variable {w w' : Word} {ws ws' : List Word}

theorem selector?_padded (h : w.Padded w') :
    w'.selector? = w.selector? ∨
      ∃ v v', PadsNumber v v' ∧ w.selector? = some (String.ofList v) ∧ w'.selector? = some (String.ofList v') := by
  have hnatural := h.natural?_eq
  cases h with
  | same => exact .inl rfl
  | @value letter v v' hv =>
    by_cases hselects : letter = 'P' ∧ (natural? ⟨letter, v⟩).isSome = true
    · have hselects' : letter = 'P' ∧ (natural? ⟨letter, v'⟩).isSome = true := by rwa [hnatural]
      exact .inr ⟨v, v', hv, if_pos hselects, if_pos hselects'⟩
    · have hselects' : ¬(letter = 'P' ∧ (natural? ⟨letter, v'⟩).isSome = true) := by rwa [hnatural]
      exact .inl ((if_neg hselects').trans (if_neg hselects).symm)

theorem offsetCode?_padded (h : List.Forall₂ Padded ws ws') :
    Option.Rel PadsCode (offsetCode? ws) (offsetCode? ws') := by
  induction h with
  | nil => exact .none
  | @cons w w' rest rest' hw hrest ih =>
    simp only [offsetCode?, hw.offset?_eq]
    cases w.offset? with
    | none => exact ih
    | some number =>
      cases hrest with
      | nil => exact .some (.same _)
      | @cons next next' _ _ hnext =>
        simp only [List.head?_cons, Option.bind_some]
        rcases selector?_padded hnext with heq | ⟨v, v', hv, hselector, hselector'⟩
        · rw [heq]
          cases next.selector? <;> exact .some (.same _)
        · rw [hselector, hselector']
          exact .some (.selector number hv)

theorem any_padded {f : Word → Bool} (hf : ∀ w w', Padded w w' → f w' = f w) (h : List.Forall₂ Padded ws ws') :
    ws'.any f = ws.any f := by
  induction h with
  | nil => rfl
  | cons hw hrest ih => rw [List.any_cons, List.any_cons, hf _ _ hw, ih]

end Word

namespace Line

variable {cs more : List Char} {p : Piece} {ps qs : List Piece}

structure SameCodes (line line' : Line) : Prop where
  number_isSome_eq : line'.number.isSome = line.number.isSome
  ordinal_eq : line'.ordinal = line.ordinal
  hasToolChange_eq : line'.hasToolChange = line.hasToolChange
  isBoundary_eq : ∀ rule, line'.isBoundary rule = line.isBoundary rule
  isFooterTrigger_eq : line'.isFooterTrigger = line.isFooterTrigger
  offsetCode?_padded : Option.Rel PadsCode line.offsetCode? line'.offsetCode?

theorem number?_padded (h : List.Forall₂ Piece.Padded ps qs) :
    qs.findSome? Piece.number? = ps.findSome? Piece.number? ∨
      ∃ v v', PadsNumber v v' ∧ ps.findSome? Piece.number? = some v ∧ qs.findSome? Piece.number? = some v' := by
  induction h with
  | nil => exact .inl rfl
  | @cons p q _ _ hpq hrest ih =>
    rw [List.findSome?_cons, List.findSome?_cons]
    cases hpq with
    | same => cases p.number? with
      | none => exact ih
      | some digits => exact .inl rfl
    | number c hv => exact .inr ⟨_, _, hv, rfl, rfl⟩
    | word letter c hv => exact ih

theorem tokens_padded (h : List.Forall₂ Piece.Padded ps qs) :
    List.Forall₂ Token.Padded (ps.filterMap Piece.token?) (qs.filterMap Piece.token?) := by
  refine List.rel_filterMap (fun p q hpq => ?_) h
  cases hpq with
  | same => cases p.token? with
    | none => exact .none
    | some t => exact .some (.same t)
  | number => exact .none
  | word letter c hv => exact .some (.word (.value letter hv))

theorem words_padded {ts us : List Token} (h : List.Forall₂ Token.Padded ts us) :
    List.Forall₂ Word.Padded (ts.filterMap Token.word?) (us.filterMap Token.word?) := by
  refine List.rel_filterMap (fun t u htu => ?_) h
  cases htu with
  | same => cases t.word? with
    | none => exact .none
    | some w => exact .some (.same w)
  | word hw => exact .some hw

theorem isRemark_padded {ts us : List Token} (h : List.Forall₂ Token.Padded ts us) :
    us.any Token.isRemark = ts.any Token.isRemark := by
  induction h with
  | nil => rfl
  | cons ht hrest ih =>
    rw [List.any_cons, List.any_cons, ih]
    cases ht <;> rfl

theorem sameCodes_padded (h : List.Forall₂ Piece.Padded ps qs) : SameCodes (ofPieces ps) (ofPieces qs) := by
  have htokens := tokens_padded h
  have hwords : List.Forall₂ Word.Padded (ofPieces ps).words (ofPieces qs).words := words_padded htokens
  have hnumber : (ofPieces qs).number.isSome = (ofPieces ps).number.isSome ∧
      (ofPieces qs).ordinal = (ofPieces ps).ordinal := by
    simp only [ofPieces, ordinal]
    rcases number?_padded h with heq | ⟨v, v', hv, hps, hqs⟩
    · rw [heq]
      exact ⟨rfl, rfl⟩
    · rw [hps, hqs, Option.bind_some, Option.bind_some, hv.readBelow?_eq]
      exact ⟨rfl, rfl⟩
  have htool : (ofPieces qs).hasToolChange = (ofPieces ps).hasToolChange :=
    Word.any_padded (fun _ _ hw => hw.isToolChange_eq) hwords
  have hremark : (ofPieces qs).tokens.any Token.isRemark = (ofPieces ps).tokens.any Token.isRemark :=
    isRemark_padded htokens
  refine ⟨hnumber.1, hnumber.2, htool, fun rule => ?_, ?_, Word.offsetCode?_padded hwords⟩
  · simp only [isBoundary, hnumber.1, htool, hremark]
  · exact Word.any_padded (fun _ _ hw => hw.isClosing_eq) hwords

theorem Row.isNumeral_value (h : Row cs ps more) {w : Word} (hp : p ∈ ps) (hw : p.token? = some (.word w)) :
    IsNumeral w.value := by
  induction h with
  | nil => cases hp
  | cons hbegins hrest ih =>
    rcases List.mem_cons.1 hp with rfl | hp
    · cases hbegins with
      | word hc hvalue hmore =>
        obtain rfl : Word.mk _ _ = w := by simpa [Piece.token?] using hw
        exact hvalue
      | _ => simp [Piece.token?] at hw
    · exact ih hp

theorem isNumeral_of_mem_words {w : Word} (hw : w ∈ (ofChars cs).words) : IsNumeral w.value := by
  obtain ⟨lead, mid, ps, hlead, hps⟩ := exists_lead_row cs
  rw [ofChars_of_lead hlead hps] at hw
  obtain ⟨t, ht, htw⟩ := List.mem_filterMap.1 hw
  obtain ⟨p, hp, hpt⟩ := List.mem_filterMap.1 ht
  cases t with
  | word => exact hps.isNumeral_value hp (Option.some.inj htw ▸ hpt)
  | comment | toolComment | other => cases htw

theorem digits_of_number {digits : List Char} (h : (ofChars cs).number = some digits) :
    digits ≠ [] ∧ allDigits digits = true := by
  obtain ⟨lead, mid, ps, hlead, hps⟩ := exists_lead_row cs
  rw [ofChars_of_lead hlead hps] at h
  cases hlead with
  | none => simp [findSome?_number?_blank] at h
  | number hbs hc hne hdigits hmore =>
    simp only [List.findSome?_append, findSome?_number?_blank, Option.none_or] at h
    obtain rfl := Option.some.inj h
    exact ⟨hne, List.all_eq_true.2 hdigits⟩

end Line

theorem numberLimit_eq : numberLimit = 2 ^ 32 := rfl

namespace Word

variable {w : Word}

structure CountsByValue (w : Word) : Prop where
  natural?_eq : w.natural? = readDigits? (2 ^ 32) 0 w.value
  isToolChange_iff : w.isToolChange = true ↔ w.letter = 'M' ∧ allDigits w.value = true ∧ Text.value w.value = 6
  isClosing_iff : w.isClosing = true ↔ allDigits w.value = true ∧
    (w.letter = 'M' ∧ Text.value w.value ∈ [0, 1, 2, 5, 9, 30, 99] ∨ w.letter = 'G' ∧ Text.value w.value ∈ [28, 30])
  offset?_iff : ∀ n ∈ [54, 55, 56, 57, 58, 59],
    w.offset? = some (toString n) ↔ w.letter = 'G' ∧ allDigits w.value = true ∧ Text.value w.value = n
  too_large : allDigits w.value = true → 2 ^ 32 ≤ Text.value w.value →
    w.isToolChange = false ∧ w.isClosing = false ∧ w.offset? = none

theorem natural?_eq_some_iff (hw : w.value ≠ []) {n : Nat} :
    w.natural? = some n ↔ allDigits w.value = true ∧ Text.value w.value = n ∧ n < numberLimit := by
  rw [natural?, readBelow?_eq_some_iff]
  simp [hw]

theorem isCode_iff (hw : w.value ≠ []) (letter : Char) (codes : List Nat) (hcodes : ∀ n ∈ codes, n < 100) :
    w.isCode letter codes = true ↔ w.letter = letter ∧ allDigits w.value = true ∧ Text.value w.value ∈ codes := by
  have hlimit : 100 < numberLimit := by decide
  simp only [isCode, Bool.and_eq_true, beq_iff_eq, Option.any_eq_true, natural?_eq_some_iff hw, List.contains_iff_mem]
  constructor
  · rintro ⟨hletter, n, ⟨hdigits, rfl, -⟩, hmem⟩
    exact ⟨hletter, hdigits, hmem⟩
  · rintro ⟨hletter, hdigits, hmem⟩
    exact ⟨hletter, _, ⟨hdigits, rfl, (hcodes _ hmem).trans hlimit⟩, hmem⟩

theorem isFurtherOffset_of_allDigits (h : allDigits w.value = true) : w.isFurtherOffset = false := by
  have hnone : w.value.dropWhile (· != '.') = [] :=
    List.dropWhile_eq_nil_iff.2 fun c hc => bne_iff_ne.2 (Line.ne_of_class (List.all_eq_true.1 h c hc) rfl)
  simp [isFurtherOffset, hnone, dropEndWhile]

theorem countsByValue (hw : w.value ≠ []) : w.CountsByValue := by
  have htool := isCode_iff hw 'M' [6] (by decide)
  have hstop := isCode_iff hw 'M' [0, 1, 2, 5, 9, 30, 99] (by decide)
  have hreturn := isCode_iff hw 'G' [28, 30] (by decide)
  have hoffset := isCode_iff hw 'G' [54, 55, 56, 57, 58, 59] (by decide)
  have hnatural (hdigits : allDigits w.value = true) (hlt : Text.value w.value < numberLimit) :
      w.natural? = some (Text.value w.value) := (natural?_eq_some_iff hw).2 ⟨hdigits, rfl, hlt⟩
  constructor
  · have hpos : 0 < numberLimit := by decide
    rw [← numberLimit_eq, readDigits?_eq hpos, natural?, readBelow?, Text.value]
    simp only [ne_eq, hw, not_false_eq_true, true_and]
  · simpa [isToolChange] using htool
  · rw [isClosing, Bool.or_eq_true, hstop, hreturn, and_or_left, and_left_comm,
      and_left_comm (b := allDigits w.value = true)]
  · intro n hn
    by_cases hcode : w.isCode 'G' [54, 55, 56, 57, 58, 59] = true
    · obtain ⟨hletter, hdigits, hmem⟩ := hoffset.1 hcode
      have hlt : Text.value w.value < numberLimit := by
        have hsmall : ∀ m ∈ [54, 55, 56, 57, 58, 59], m < numberLimit := by decide
        exact hsmall _ hmem
      rw [offset?, if_pos hcode, hnatural hdigits hlt, Option.map_some, Option.some.injEq]
      simp only [hletter, hdigits, true_and]
      exact Nat.repr_inj
    · have hother : "54.1" ≠ toString n := by
        have hall : ∀ m ∈ [54, 55, 56, 57, 58, 59], "54.1" ≠ toString m := by decide
        exact hall n hn
      rw [offset?, if_neg hcode]
      constructor
      · intro hsome
        split at hsome
        · exact absurd (Option.some.inj hsome) hother
        · cases hsome
      · rintro ⟨hletter, hdigits, rfl⟩
        exact absurd (hoffset.2 ⟨hletter, hdigits, hn⟩) hcode
  · intro hdigits hlarge
    rw [← numberLimit_eq] at hlarge
    have hnone : w.natural? = none := by
      rw [natural?, readBelow?, if_neg]
      rintro ⟨-, -, hlt⟩
      exact absurd hlt (Nat.not_lt.2 hlarge)
    simp [isToolChange, isClosing, offset?, isCode, hnone, isFurtherOffset_of_allDigits hdigits]

end Word

namespace Line

/-- Zeros put in front of the numbers of a line make no difference to its codes, and each word is a code by the value of
its digits. -/
theorem codes_by_value (text : String) :
    (∀ text', Padded text text' → SameCodes (read text) (read text')) ∧
    (∀ w ∈ (read text).words, w.CountsByValue) ∧
    ∀ digits, (read text).number = some digits →
      (read text).ordinal = if value digits < 2 ^ 32 then value digits else 0 := by
  refine ⟨fun text' hpadded => ?_, fun w hw => ?_, fun digits hdigits => ?_⟩
  · obtain ⟨qs, hqs, htext⟩ := hpadded
    rw [read, read, ofChars_eq, ofChars_eq, htext, pieces_padded hqs]
    exact sameCodes_padded hqs
  · exact Word.countsByValue (isNumeral_ne_nil (isNumeral_of_mem_words hw))
  · obtain ⟨hne, hall⟩ := digits_of_number hdigits
    simp only [ordinal, hdigits, Option.bind_some, readBelow?, ne_eq, hne, not_false_eq_true, hall, true_and,
      numberLimit_eq]
    split <;> rfl

/-- The numbers of this line differ by `2 ^ 32` from those of a line number 7 and a tool change. -/
theorem codes_by_value_large :
    Padded "N4294967303G54.1 P2M4294967302" "N004294967303G054.1 P02M04294967302" ∧
    SameCodes (read "N4294967303G54.1 P2M4294967302") (read "N004294967303G054.1 P02M04294967302") ∧
    ⟨'M', "4294967302".toList⟩ ∈ (read "N4294967303G54.1 P2M4294967302").words ∧
    Word.isToolChange ⟨'M', "4294967302".toList⟩ = false ∧
    (read "N4294967303G54.1 P2M4294967302").number = some "4294967303".toList ∧
    (read "N4294967303G54.1 P2M4294967302").ordinal = 0 := by
  obtain ⟨hsame, hwords, hordinal⟩ := codes_by_value "N4294967303G54.1 P2M4294967302"
  have hpieces : pieces "N4294967303G54.1 P2M4294967302".toList =
      [.number 'N' "4294967303".toList, .token (.word ⟨'G', "54.1".toList⟩) ('G' :: "54.1".toList), .blank ' ',
        .token (.word ⟨'P', ['2']⟩) ['P', '2'],
        .token (.word ⟨'M', "4294967302".toList⟩) ('M' :: "4294967302".toList)] := by decide
  have hpadded : Padded "N4294967303G54.1 P2M4294967302" "N004294967303G054.1 P02M04294967302" := by
    refine ⟨[.number 'N' "004294967303".toList, .token (.word ⟨'G', "054.1".toList⟩) ('G' :: "054.1".toList),
      .blank ' ', .token (.word ⟨'P', ['0', '2']⟩) ['P', '0', '2'],
      .token (.word ⟨'M', "04294967302".toList⟩) ('M' :: "04294967302".toList)], ?_, by decide⟩
    rw [hpieces]
    refine .cons (.number 'N' ⟨⟨'4', rfl, rfl⟩, 2, rfl⟩) (.cons (.word 'G' 'G' ⟨⟨'5', rfl, rfl⟩, 1, rfl⟩) ?_)
    refine .cons (.same _) (.cons (.word 'P' 'P' ⟨⟨'2', rfl, rfl⟩, 1, rfl⟩) ?_)
    exact .cons (.word 'M' 'M' ⟨⟨'4', rfl, rfl⟩, 1, rfl⟩) .nil
  have hword : ⟨'M', "4294967302".toList⟩ ∈ (read "N4294967303G54.1 P2M4294967302").words := by decide
  have hnumber : (read "N4294967303G54.1 P2M4294967302").number = some "4294967303".toList := by decide
  have hlarge : 2 ^ 32 ≤ value "4294967302".toList ∧ ¬value "4294967303".toList < 2 ^ 32 := by decide
  refine ⟨hpadded, hsame _ hpadded, hword, ((hwords _ hword).too_large (by decide) hlarge.1).1, hnumber, ?_⟩
  rw [hordinal _ hnumber, if_neg hlarge.2]

end Line

end Machining
