import Machining.Proofs.Rows

/-!
Whole words. A word is never taken out of something longer. Its number does not go on behind it, and no letter and no
sign stands right in front of it. A digit or a point may stand there only as the end of the word or line number before.
-/

namespace Machining.Line
open Machining.Text

def Piece.isNumbered : Piece → Bool
  | .number _ _ => true
  | .token (.word _) _ => true
  | _ => false

structure Stands (text : List Char) (w : Word) (before : List Piece) (letter : Char) (behind : List Piece) : Prop where
  pieces_eq : pieces text = before ++ .token (.word w) (letter :: w.value) :: behind
  text_eq : text = before.flatMap Piece.source ++ letter :: w.value ++ behind.flatMap Piece.source
  isAlpha_letter : letter.isAlpha = true
  letter_eq : letter.toUpper = w.letter
  behind_ends : EndsNumeral w.value (behind.flatMap Piece.source)
  before_ends : ∀ d ∈ (before.flatMap Piece.source).getLast?, d.isAlpha = false ∧ d ≠ '+' ∧ d ≠ '-'
  before_numbered : ∀ d ∈ (before.flatMap Piece.source).getLast?, d.isDigit = true ∨ d = '.' →
    ∃ p ∈ before.getLast?, p.isNumbered = true ∧ p.source.getLast? = some d

variable {cs mid more : List Char} {p : Piece} {ps lead : List Piece}

theorem getLast_isNumeral {v : List Char} (h : IsNumeral v) : ∀ d ∈ v.getLast?, d.isDigit = true ∨ d = '.' := by
  have hmagnitude : ∀ m, IsMagnitude m → ∀ d ∈ m.getLast?, d.isDigit = true ∨ d = '.' := by
    intro m hm d hd
    cases hm with
    | whole _ hwhole => exact .inl (hwhole d (List.mem_of_getLast? hd))
    | point whole fraction hwhole hfraction =>
      rw [List.getLast?_append_of_ne_nil _ (List.cons_ne_nil _ _)] at hd
      rcases List.mem_cons.1 (List.mem_of_getLast? hd) with rfl | hmem
      · exact .inr rfl
      · exact .inl (hfraction d hmem)
  cases h with
  | plain hm => exact hmagnitude v hm
  | @signed m sign hsign hm =>
    rw [← List.singleton_append, List.getLast?_append_of_ne_nil _ (isMagnitude_ne_nil hm)]
    exact hmagnitude m hm

structure Piece.Precedes (p : Piece) : Prop where
  ends : ∀ d ∈ p.source.getLast?, d.isAlpha = false ∧ d ≠ '+' ∧ d ≠ '-'
  numbered : ∀ d ∈ p.source.getLast?, d.isDigit = true ∨ d = '.' → p.isNumbered = true

namespace Piece.Precedes

theorem of_isNumbered (hp : p.isNumbered = true) (h : ∀ d ∈ p.source.getLast?, d.isDigit = true ∨ d = '.') :
    p.Precedes where
  ends d hd := by
    rcases h d hd with hdigit | rfl
    · exact ⟨isAlpha_eq_false_of_isDigit hdigit, ne_of_class hdigit rfl, ne_of_class hdigit rfl⟩
    · decide
  numbered _ _ _ := hp

theorem of_isInert (h : ∀ d ∈ p.source.getLast?, isInert d = true) : p.Precedes := by
  have hclass : ∀ d ∈ p.source.getLast?, d.isAlpha = false ∧ isNumeric d = false := by
    intro d hd
    have hinert := h d hd
    simp only [isInert, Bool.and_eq_true, Bool.not_eq_true'] at hinert
    exact hinert.1.1
  constructor
  · intro d hd
    obtain ⟨halpha, hnumeric⟩ := hclass d hd
    exact ⟨halpha, (ne_of_class rfl hnumeric).symm, (ne_of_class rfl hnumeric).symm⟩
  · intro d hd hnumber
    have hnumeric := (hclass d hd).2
    rcases hnumber with hdigit | rfl
    · exact absurd (isNumeric_of_isDigit hdigit) (by simp [hnumeric])
    · cases hnumeric

theorem of_begins {c : Char} (h : p.Begins cs (c :: more)) (hc : c.isAlpha = true) : p.Precedes := by
  cases h with
  | blank hblank => exact of_isInert fun d hd => Option.some.inj hd ▸ isInert_of_isBlank hblank
  | toolComment | comment =>
    apply of_isInert
    intro d hd
    simp only [Piece.source, ← List.cons_append, List.getLast?_concat] at hd
    exact Option.some.inj hd ▸ rfl
  | @word letter value _ _ hvalue _ =>
    apply of_isNumbered rfl
    intro d hd
    rw [Piece.source, ← List.singleton_append, List.getLast?_append_of_ne_nil _ (isNumeral_ne_nil hvalue)] at hd
    exact getLast_isNumeral hvalue d hd
  | letters _ _ _ hmore => exact absurd (hmore c rfl) (by simp [swallows, Char.isAlphanum, hc])
  | letter _ _ hmore => exact absurd (hmore c rfl) (by simp [hc])
  | numeric _ _ _ _ hmore => exact absurd (hmore c rfl) (by simp [Char.isAlphanum, hc])
  | single _ hinert => exact of_isInert fun d hd => Option.some.inj hd ▸ hinert

theorem of_lead (h : Lead cs lead mid) : ∀ p ∈ lead.getLast?, p.Precedes := by
  intro p hp
  cases h with
  | none hbs =>
    obtain ⟨c, hc, rfl⟩ := List.mem_map.1 (List.mem_of_getLast? hp)
    exact of_isInert fun d hd => Option.some.inj hd ▸ isInert_of_isBlank (hbs c hc)
  | number hbs hc hne hdigits hmore =>
    rw [List.getLast?_concat] at hp
    obtain rfl := Option.some.inj hp
    apply of_isNumbered rfl
    intro d hd
    rw [Piece.source, ← List.singleton_append, List.getLast?_append_of_ne_nil _ hne] at hd
    exact .inl (hdigits d (List.mem_of_getLast? hd))

theorem of_row {c : Char} (hlead : Lead cs lead mid) (hps : Row mid ps (c :: more)) (hc : c.isAlpha = true) :
    ∀ p ∈ (lead ++ ps).getLast?, p.Precedes := by
  rcases List.eq_nil_or_concat' ps with rfl | ⟨ps, p, rfl⟩
  · rw [List.append_nil]
    exact of_lead hlead
  · obtain ⟨mid', -, hlast⟩ := hps.exists_of_append
    rw [← List.append_assoc, List.getLast?_concat]
    rintro _ ⟨rfl⟩
    cases hlast with
    | cons hbegins hnil =>
      cases hnil
      exact of_begins hbegins hc

end Piece.Precedes

theorem Piece.Begins.source_ne_nil (h : p.Begins cs more) : p.source ≠ [] := by
  cases h <;> simp [Piece.source]

theorem source_ne_nil_of_mem (hlead : Lead cs lead mid) (hps : Row mid ps more) : ∀ p ∈ lead ++ ps, p.source ≠ [] := by
  refine List.forall_mem_append.2 ⟨?_, ?_⟩
  · cases hlead <;> simp [Piece.source, or_imp, forall_and]
  · clear hlead
    induction hps with
    | nil => simp
    | cons hp hps ih => exact List.forall_mem_cons.2 ⟨hp.source_ne_nil, ih⟩

theorem getLast?_flatMap_source {d : Char} (hsource : ∀ p ∈ ps, p.source ≠ [])
    (hd : d ∈ (ps.flatMap Piece.source).getLast?) : ∃ p ∈ ps.getLast?, p.source.getLast? = some d := by
  rcases List.eq_nil_or_concat' ps with rfl | ⟨ps, p, rfl⟩
  · cases hd
  · refine ⟨p, List.getLast?_concat, ?_⟩
    rwa [List.flatMap_append, List.flatMap_singleton,
      List.getLast?_append_of_ne_nil _ (hsource p (by simp))] at hd

theorem Piece.Begins.exists_letter {w : Word} (h : p.Begins cs more) (hp : p.token? = some (.word w)) :
    ∃ c, p = .token (.word w) (c :: w.value) ∧ cs = c :: (w.value ++ more) ∧ c.isAlpha = true ∧ c.toUpper = w.letter ∧
      EndsNumeral w.value more := by
  cases h with
  | @word c value _ hc _ hmore =>
    obtain rfl : ⟨c.toUpper, value⟩ = w := by simpa [Piece.token?] using hp
    exact ⟨c, rfl, rfl, hc, rfl, hmore⟩
  | _ => simp [Piece.token?] at hp

theorem stands_of_row {text : List Char} {w : Word} {behind : List Piece} (hlead : Lead text lead mid)
    (hps : Row mid ps cs) (hp : p.Begins cs more) (hword : p.token? = some (.word w)) (hbehind : Row more behind []) :
    ∃ letter, Stands text w (lead ++ ps) letter behind := by
  obtain ⟨c, rfl, rfl, hc, hletter, hends⟩ := hp.exists_letter hword
  have hpieces : pieces text = lead ++ ps ++ .token (.word w) (c :: w.value) :: behind := by
    rw [hlead.pieces_eq, hps.munch_eq, hp.munch_eq, hbehind.munch_eq, munch_nil, List.append_nil, List.append_assoc]
  have hmore : behind.flatMap Piece.source = more := by simpa using hbehind.source_append
  have hsource := source_ne_nil_of_mem hlead hps
  have hprecedes := Piece.Precedes.of_row hlead hps hc
  refine ⟨c, hpieces, ?_, hc, hletter, hmore ▸ hends, ?_, ?_⟩
  · rw [← flatMap_source_pieces text, hpieces, List.flatMap_append, List.flatMap_cons, ← List.append_assoc]
    rfl
  · intro d hd
    obtain ⟨q, hq, hlast⟩ := getLast?_flatMap_source hsource hd
    exact (hprecedes q hq).ends d hlast
  · intro d hd hnumber
    obtain ⟨q, hq, hlast⟩ := getLast?_flatMap_source hsource hd
    exact ⟨q, hq, (hprecedes q hq).numbered d hlast hnumber, hlast⟩

/-- Every word of a line has its place in the text and is whole there. -/
theorem word_stands {text : String} {ts us : List Token} {w : Word} (h : (read text).tokens = ts ++ .word w :: us) :
    ∃ before letter behind, Stands text.toList w before letter behind ∧ before.filterMap Piece.token? = ts ∧
      behind.filterMap Piece.token? = us := by
  obtain ⟨lead, mid, ps, hlead, hps⟩ := exists_lead_row text.toList
  rw [read, ofChars_of_lead hlead hps] at h
  obtain ⟨front, rest, rfl, hfront, hrest⟩ := List.filterMap_eq_append_iff.1 h
  obtain ⟨blanks, p, behind, rfl, hblanks, hword, hbehind⟩ := List.filterMap_eq_cons_iff.1 hrest
  rw [← List.append_assoc] at hps
  obtain ⟨start, hbefore, hrow⟩ := hps.exists_of_append
  cases hrow with
  | cons hp hmore =>
    obtain ⟨letter, hstands⟩ := stands_of_row hlead hbefore hp hword hmore
    refine ⟨_, letter, behind, hstands, ?_, hbehind⟩
    have hnone : blanks.filterMap Piece.token? = [] := List.filterMap_eq_nil_iff.2 hblanks
    rw [List.filterMap_append, List.filterMap_append, hlead.filterMap_token?, hfront, hnone]
    simp

/-- The digit in front of this word ends the line number. -/
theorem word_stands_numbered :
    (read "N10G54").tokens = [] ++ .word ⟨'G', ['5', '4']⟩ :: [] ∧
      ∃ before letter behind, Stands "N10G54".toList ⟨'G', ['5', '4']⟩ before letter behind ∧
        before.filterMap Piece.token? = [] ∧ behind.filterMap Piece.token? = [] := by
  have h : (read "N10G54").tokens = [] ++ .word ⟨'G', ['5', '4']⟩ :: [] := by decide
  exact ⟨h, word_stands h⟩

example : (read "1G54 AG54 G54.5").words = [⟨'G', ['5', '4', '.', '5']⟩] := by decide

end Machining.Line
