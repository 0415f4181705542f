import Machining.Proofs.Seams

/-!
Leading zeros. They may be put behind the letter of the line number, and of every word whose number begins with a digit:
the line has the same pieces in the same places, with longer numbers. For each piece only the first characters behind it
count, and those stay: a letter is followed by a digit as before, and a number by what ended it before.
-/

namespace Machining
open Machining.Text

theorem exists_of_forall₂_append {α β : Type} {r : α → β → Prop} {l more : List α} {l' : List β}
    (h : List.Forall₂ r (l ++ more) l') :
    ∃ front rear, l' = front ++ rear ∧ List.Forall₂ r l front ∧ List.Forall₂ r more rear := by
  induction l generalizing l' with
  | nil => exact ⟨[], l', rfl, .nil, h⟩
  | cons x l ih =>
    cases h with
    | cons hx hrest =>
      obtain ⟨front, rear, rfl, hfront, hrear⟩ := ih hrest
      exact ⟨_ :: front, rear, rfl, .cons hx hfront, hrear⟩

namespace Text

/-- Zeros in front of a number that begins with a digit. -/
def PadsNumber (v v' : List Char) : Prop :=
  (∃ d ∈ v.head?, d.isDigit = true) ∧ ∃ k, v' = List.replicate k '0' ++ v

namespace PadsNumber

variable {v v' : List Char}

theorem ne_nil (h : PadsNumber v v') : v ≠ [] := by
  obtain ⟨⟨d, hd, -⟩, -⟩ := h
  rintro rfl
  cases hd

theorem readBelow?_eq (h : PadsNumber v v') (limit : Nat) : readBelow? limit v' = readBelow? limit v := by
  have hne := h.ne_nil
  obtain ⟨-, k, rfl⟩ := h
  have hdigits : allDigits (List.replicate k '0' ++ v) = allDigits v := by
    simp [allDigits, List.all_replicate]
  simp only [readBelow?, value_zeros_append, hdigits]
  simp [hne]

end PadsNumber

end Text

namespace Line

inductive Piece.Padded : Piece → Piece → Prop
  | same (p : Piece) : Padded p p
  | number (c : Char) {v v' : List Char} (h : PadsNumber v v') : Padded (.number c v) (.number c v')
  | word (letter c : Char) {v v' : List Char} (h : PadsNumber v v') :
      Padded (.token (.word ⟨letter, v⟩) (c :: v)) (.token (.word ⟨letter, v'⟩) (c :: v'))

/-- The text with zeros behind the letters of its line number and of its words, in any of those places. -/
def Padded (text text' : String) : Prop :=
  ∃ qs, List.Forall₂ Piece.Padded (pieces text.toList) qs ∧ text'.toList = qs.flatMap Piece.source

/-- No piece that ends in front of one of these texts ends elsewhere in front of the other. -/
structure Alike (cs cs' : List Char) : Prop where
  head_eq : cs.head? = cs'.head?
  digit_eq : (cs.drop 1).head?.any Char.isDigit = (cs'.drop 1).head?.any Char.isDigit
  numeric_eq : cs.takeWhile isNumeric = cs'.takeWhile isNumeric

variable {cs mid mid' more more' v v' : List Char} {p q : Piece} {ps qs lead : List Piece}

theorem Alike.refl (cs : List Char) : Alike cs cs := ⟨rfl, rfl, rfl⟩

theorem Alike.cons (h : Alike mid mid') (c : Char) : Alike (c :: mid) (c :: mid') where
  head_eq := rfl
  digit_eq := by simp only [List.drop_succ_cons, List.drop_zero, h.head_eq]
  numeric_eq := by simp only [List.takeWhile_cons, h.numeric_eq]

theorem Alike.append (h : Alike mid mid') (l : List Char) : Alike (l ++ mid) (l ++ mid') := by
  induction l with
  | nil => exact h
  | cons c l ih => exact ih.cons c

theorem Alike.head {P : Char → Prop} (h : Alike mid mid') (hmid : ∀ d ∈ mid.head?, P d) : ∀ d ∈ mid'.head?, P d := by
  rwa [← h.head_eq]

theorem Alike.eq_nil (h : Alike [] mid') : mid' = [] := List.head?_eq_none_iff.1 h.head_eq.symm

/-- A number has only numeric characters, so those at the start decide whether there is one. -/
theorem numeral_takeWhile (cs : List Char) : numeral (cs.takeWhile isNumeric) = [] ↔ numeral cs = [] := by
  constructor
  · intro h
    by_contra hne
    obtain ⟨value, more, rfl, hvalue, -⟩ := exists_numeral hne
    rw [List.takeWhile_append_of_pos fun c hc => isNumeric_of_mem_isNumeral hvalue hc] at h
    exact numeral_append_ne_nil hvalue _ h
  · intro h
    by_contra hne
    obtain ⟨value, more, hcut, hvalue, -⟩ := exists_numeral hne
    have hcs := List.takeWhile_append_dropWhile (p := isNumeric) (l := cs)
    rw [hcut, List.append_assoc] at hcs
    rw [← hcs] at h
    exact numeral_append_ne_nil hvalue _ h

theorem Alike.numeral (h : Alike mid mid') (hmid : numeral mid = []) : numeral mid' = [] := by
  rw [← numeral_takeWhile, ← h.numeric_eq, numeral_takeWhile]
  exact hmid

theorem Piece.Begins.alike (h : p.Begins cs mid) (hmid : Alike mid mid') : p.Begins (p.source ++ mid') mid' := by
  cases h with
  | blank hc => exact .blank hc
  | toolComment htext htool => simpa [Piece.source] using toolComment htext htool
  | comment htext htool => simpa [Piece.source] using comment htext htool
  | unclosed htext => simpa [Piece.source, hmid.eq_nil] using unclosed htext
  | lineComment =>
    rw [hmid.eq_nil, List.append_nil]
    exact lineComment
  | word hc hvalue hmore => exact word hc hvalue (hmid.head hmore)
  | letters hc hd htail hmore => simpa [Piece.source] using letters hc hd htail (hmid.head hmore)
  | letter hc hvalue hmore => exact letter hc (hmid.numeral hvalue) (hmid.head hmore)
  | @numeric c run glued _ hc hrun hglued hstop hmore =>
    have hstop : ∀ d ∈ (glued ++ mid').head?, isNumeric d = false := (hmid.append glued).head hstop
    simpa [Piece.source] using numeric hc hrun hglued hstop (hmid.head hmore)
  | single hblank hinert => exact single hblank hinert

theorem digits_of_padsNumber (h : PadsNumber v v') (hv : ∀ c ∈ v, c.isDigit = true) : ∀ c ∈ v', c.isDigit = true := by
  obtain ⟨-, k, rfl⟩ := h
  exact List.forall_mem_append.2 ⟨fun c hc => List.eq_of_mem_replicate hc ▸ rfl, hv⟩

theorem isMagnitude_of_padsNumber (h : PadsNumber v v') (hv : IsMagnitude v) : IsMagnitude v' := by
  obtain ⟨-, k, rfl⟩ := h
  have hzeros : ∀ c ∈ List.replicate k '0', c.isDigit = true := fun c hc => List.eq_of_mem_replicate hc ▸ rfl
  cases hv with
  | whole _ hwhole hne =>
    exact .whole _ (List.forall_mem_append.2 ⟨hzeros, hwhole⟩) (List.append_ne_nil_of_right_ne_nil _ hne)
  | point whole fraction hwhole hfraction hne =>
    rw [← List.append_assoc]
    refine .point _ fraction (List.forall_mem_append.2 ⟨hzeros, hwhole⟩) hfraction ?_
    exact hne.imp_left (List.append_ne_nil_of_right_ne_nil _)

theorem isNumeral_of_padsNumber (h : PadsNumber v v') (hv : IsNumeral v) : IsNumeral v' := by
  cases hv with
  | plain hm => exact .plain (isMagnitude_of_padsNumber h hm)
  | signed sign hsign hm =>
    obtain ⟨⟨d, hd, hdigit⟩, -⟩ := h
    obtain rfl : sign = d := Option.some.inj hd
    rcases hsign with rfl | rfl <;> cases hdigit

theorem endsNumeral_of_padsNumber (h : PadsNumber v v') (hmore : EndsNumeral v more) : EndsNumeral v' more := by
  obtain ⟨-, k, rfl⟩ := h
  intro d hd
  refine ⟨(hmore d hd).1, fun hpoint => (hmore d hd).2 fun hmem => hpoint ?_⟩
  exact List.mem_append_right _ hmem

theorem Piece.Begins.padded (h : p.Begins cs mid) (hpq : p.Padded q) (hmid : Alike mid mid') :
    q.Begins (q.source ++ mid') mid' ∧ Alike cs (q.source ++ mid') := by
  cases hpq with
  | same =>
    refine ⟨h.alike hmid, ?_⟩
    rw [← h.source_append]
    exact hmid.append p.source
  | number => cases h
  | @word letter c v v' hv =>
    cases h with
    | word hc hvalue hmore =>
      have hends : EndsNumeral v' mid' := endsNumeral_of_padsNumber hv (hmid.head hmore)
      refine ⟨.word hc (isNumeral_of_padsNumber hv hvalue) hends, rfl, ?_, ?_⟩
      · obtain ⟨⟨d, hd, hdigit⟩, k, rfl⟩ := hv
        obtain ⟨v, rfl⟩ := List.head?_eq_some_iff.1 hd
        cases k <;> simp [Piece.source, List.replicate_succ, hdigit]
      · simp [Piece.source, isNumeric_eq_false_of_isAlpha hc]

theorem Row.padded (h : Row cs ps more) (hpad : List.Forall₂ Piece.Padded ps qs) (hmore : Alike more more') :
    Row (qs.flatMap Piece.source ++ more') qs more' ∧ Alike cs (qs.flatMap Piece.source ++ more') := by
  induction h generalizing qs with
  | nil =>
    cases hpad
    exact ⟨.nil, hmore⟩
  | cons hp hps ih =>
    cases hpad with
    | cons hpq hpad =>
      obtain ⟨hrow, hmid⟩ := ih hpad hmore
      obtain ⟨hq, halike⟩ := hp.padded hpq hmid
      rw [List.flatMap_cons, List.append_assoc]
      exact ⟨.cons hq hrow, halike⟩

theorem eq_of_padded_blanks {bs : List Char} (h : List.Forall₂ Piece.Padded (bs.map .blank) qs) :
    qs = bs.map .blank := by
  induction bs generalizing qs with
  | nil => exact List.forall₂_nil_left_iff.1 h
  | cons c bs ih =>
    cases h with
    | cons hc hbs =>
      cases hc
      rw [ih hbs, List.map_cons]

theorem Lead.padded (h : Lead cs lead mid) (hpad : List.Forall₂ Piece.Padded lead qs) (hmid : Alike mid mid') :
    Lead (qs.flatMap Piece.source ++ mid') qs mid' := by
  cases h with
  | @none bs _ hbs hmore hnumber =>
    rw [eq_of_padded_blanks hpad, flatMap_source_blank]
    apply none hbs (hmid.head hmore)
    intro c d rest hrest hc
    have hhead := hmid.head_eq
    have hdigit := hmid.digit_eq
    rw [hrest] at hhead hdigit
    obtain ⟨tail, rfl⟩ := List.head?_eq_some_iff.1 hhead
    cases tail with
    | nil => simpa using hdigit.symm
    | cons d' tail => simpa [hnumber c d' tail rfl hc] using hdigit.symm
  | @number bs digits _ c hbs hc hne hdigits hmore =>
    obtain ⟨before, last, rfl, hbefore, hlast⟩ := exists_of_forall₂_append hpad
    rw [eq_of_padded_blanks hbefore]
    cases hlast with
    | cons hnumber hnil =>
      cases hnil
      have hstop : ∀ d ∈ mid'.head?, d.isDigit = false := hmid.head hmore
      cases hnumber with
      | same => simpa [flatMap_source_blank, Piece.source] using number hbs hc hne hdigits hstop
      | @number _ _ v' hv =>
        have hne : v' ≠ [] := by
          obtain ⟨-, k, rfl⟩ := hv
          exact List.append_ne_nil_of_right_ne_nil _ hne
        simpa [flatMap_source_blank, Piece.source] using number hbs hc hne (digits_of_padsNumber hv hdigits) hstop

theorem pieces_padded (h : List.Forall₂ Piece.Padded (pieces cs) qs) : pieces (qs.flatMap Piece.source) = qs := by
  obtain ⟨lead, mid, ps, hlead, hps⟩ := exists_lead_row cs
  rw [pieces_of_lead hlead hps] at h
  obtain ⟨front, rear, rfl, hfront, hrear⟩ := exists_of_forall₂_append h
  obtain ⟨hrow, hmid⟩ := hps.padded hrear (Alike.refl [])
  rw [List.flatMap_append, ← List.append_nil (rear.flatMap Piece.source)]
  exact pieces_of_lead (hlead.padded hfront hmid) hrow

end Line

end Machining
