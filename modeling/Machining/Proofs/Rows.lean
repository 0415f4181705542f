import Machining.Proofs.Pieces

/-!
A line as a row of pieces. In front stand blanks, and behind them the line number if there is one; then piece follows
piece to the end. A row is closed if no comment in it runs to the end of the line for want of a closing parenthesis.
What stands behind a closed row can be exchanged for anything that begins with a blank or a comment: no piece of the
row reaches into it, and none that ended in front of what stood there before now goes on.
-/

namespace Machining.Line
open Machining.Text

variable {cs mid more : List Char} {p : Piece} {ps qs lead : List Piece}

/-- The place of the line number: blanks, and behind them the number if there is one. -/
inductive Lead : List Char → List Piece → List Char → Prop
  | none {bs more : List Char} (hbs : ∀ c ∈ bs, isBlank c = true) (hmore : ∀ c ∈ more.head?, isBlank c = false)
      (hnumber : ∀ c d rest, more = c :: d :: rest → c.toUpper = 'N' → d.isDigit = false) :
      Lead (bs ++ more) (bs.map .blank) more
  | number {bs digits more : List Char} {c : Char} (hbs : ∀ c ∈ bs, isBlank c = true) (hc : c.toUpper = 'N')
      (hne : digits ≠ []) (hdigits : ∀ d ∈ digits, d.isDigit = true) (hmore : ∀ d ∈ more.head?, d.isDigit = false) :
      Lead (bs ++ c :: (digits ++ more)) (bs.map .blank ++ [.number c digits]) more

inductive Row : List Char → List Piece → List Char → Prop
  | nil {cs : List Char} : Row cs [] cs
  | cons {cs mid more : List Char} {p : Piece} {ps : List Piece} (h : p.Begins cs mid) (hps : Row mid ps more) :
      Row cs (p :: ps) more

theorem Piece.Begins.ne_nil (h : p.Begins cs more) : cs ≠ [] := by
  cases h <;> exact List.cons_ne_nil _ _

theorem Piece.Begins.length_lt (h : p.Begins cs more) : more.length < cs.length := by
  cases h <;> simp <;> omega

namespace Row

theorem exists_row (cs : List Char) : ∃ ps, Row cs ps [] := by
  induction hn : cs.length using Nat.strongRecOn generalizing cs with
  | ind n ih =>
    cases cs with
    | nil => exact ⟨[], .nil⟩
    | cons c rest =>
      obtain ⟨p, mid, hp⟩ := Piece.Begins.exists_of_cons c rest
      obtain ⟨ps, hps⟩ := ih _ (hn ▸ hp.length_lt) mid rfl
      exact ⟨p :: ps, .cons hp hps⟩

theorem munch_eq (h : Row cs ps more) : munch Piece.next cs = ps ++ munch Piece.next more := by
  induction h with
  | nil => rfl
  | cons hp hps ih => rw [hp.munch_eq, ih, List.cons_append]

theorem source_append (h : Row cs ps more) : ps.flatMap Piece.source ++ more = cs := by
  induction h with
  | nil => rfl
  | cons hp hps ih => rw [List.flatMap_cons, List.append_assoc, ih, hp.source_append]

theorem exists_of_append (h : Row cs (ps ++ qs) more) : ∃ mid, Row cs ps mid ∧ Row mid qs more := by
  induction ps generalizing cs with
  | nil => exact ⟨cs, .nil, h⟩
  | cons p ps ih =>
    cases h with
    | cons hp hrest =>
      obtain ⟨mid, hps, hqs⟩ := ih hrest
      exact ⟨mid, .cons hp hps, hqs⟩

end Row

theorem isBlank_eq_false_of_toUpper {c : Char} (hc : c.toUpper = 'N') : isBlank c = false := by
  rw [Bool.eq_false_iff]
  intro hblank
  rw [toUpper_eq_of_isInert (isInert_of_isBlank hblank)] at hc
  exact absurd hblank (by simp [hc]; rfl)

namespace Lead

theorem exists_lead (cs : List Char) : ∃ lead more, Lead cs lead more := by
  obtain ⟨bs, r, rfl, hbs, hr⟩ := exists_cut isBlank cs
  cases r with
  | nil => exact ⟨_, _, none hbs hr (by simp)⟩
  | cons c rest =>
    obtain ⟨digits, more, rfl, hdigits, hmore⟩ := exists_cut Char.isDigit rest
    by_cases hnumber : c.toUpper = 'N' ∧ digits ≠ []
    · exact ⟨_, _, number hbs hnumber.1 hnumber.2 hdigits hmore⟩
    · refine ⟨_, _, none hbs hr ?_⟩
      intro c' d rest hcs hc
      obtain ⟨rfl, hrest⟩ := List.cons.inj hcs
      obtain rfl : digits = [] := by tauto
      exact hmore d (congrArg List.head? hrest)

theorem source_append (h : Lead cs lead more) : lead.flatMap Piece.source ++ more = cs := by
  cases h <;> simp [flatMap_source_blank, Piece.source]

theorem unindented_of_not_number (h : ∀ c d rest, cs = c :: d :: rest → c.toUpper = 'N' → d.isDigit = false) :
    unindented cs = munch Piece.next cs := by
  cases cs with
  | nil => rfl
  | cons c rest =>
    simp only [unindented]
    rw [if_pos]
    unfold numberDigits
    split
    · next hc =>
      cases rest with
      | nil => rfl
      | cons d rest => simp [h c d rest rfl hc]
    · rfl

theorem unindented_of_number {c : Char} {digits : List Char} (hc : c.toUpper = 'N') (hne : digits ≠ [])
    (hdigits : ∀ d ∈ digits, d.isDigit = true) (hmore : ∀ d ∈ more.head?, d.isDigit = false) :
    unindented (c :: (digits ++ more)) = .number c digits :: munch Piece.next more := by
  have htake : numberDigits c (digits ++ more) = digits := by
    rw [numberDigits, if_pos hc, takeWhile_append_stop hdigits hmore]
  simp only [unindented, htake, if_neg hne, List.drop_left]

theorem pieces_eq (h : Lead cs lead more) : pieces cs = lead ++ munch Piece.next more := by
  cases h with
  | none hbs hmore hnumber =>
    rw [pieces, takeWhile_append_stop hbs hmore, dropWhile_append_stop hbs hmore, unindented_of_not_number hnumber]
  | @number bs digits _ c hbs hc hne hdigits hmore =>
    have hstop : ∀ d ∈ (c :: (digits ++ more)).head?, isBlank d = false := by
      intro d hd
      obtain rfl : c = d := Option.some.inj hd
      exact isBlank_eq_false_of_toUpper hc
    rw [pieces, takeWhile_append_stop hbs hstop, dropWhile_append_stop hbs hstop,
      unindented_of_number hc hne hdigits hmore, List.append_assoc, List.singleton_append]

end Lead

theorem exists_lead_row (cs : List Char) : ∃ lead mid ps, Lead cs lead mid ∧ Row mid ps [] := by
  obtain ⟨lead, mid, hlead⟩ := Lead.exists_lead cs
  obtain ⟨ps, hps⟩ := Row.exists_row mid
  exact ⟨lead, mid, ps, hlead, hps⟩

theorem pieces_of_lead (hlead : Lead cs lead mid) (hps : Row mid ps []) : pieces cs = lead ++ ps := by
  rw [hlead.pieces_eq, hps.munch_eq, munch_nil, List.append_nil]

theorem findSome?_number?_blank (bs : List Char) : (bs.map Piece.blank).findSome? Piece.number? = none := by
  simp [Piece.number?]

theorem Lead.filterMap_token? (h : Lead cs lead mid) : lead.filterMap Piece.token? = [] := by
  cases h <;> simp [List.filterMap_append, Piece.token?]

theorem Row.findSome?_number? (h : Row cs ps more) : ps.findSome? Piece.number? = none := by
  induction h with
  | nil => rfl
  | cons hp hps ih =>
    rw [List.findSome?_cons, ih]
    cases hp <;> rfl

theorem ofChars_of_lead (hlead : Lead cs lead mid) (hps : Row mid ps []) :
    ofChars cs = ⟨lead.findSome? Piece.number?, ps.filterMap Piece.token?⟩ := by
  simp only [ofChars, pieces_of_lead hlead hps, List.findSome?_append, List.filterMap_append, hlead.filterMap_token?,
    hps.findSome?_number?, Option.or_none, List.nil_append]

def isStop (c : Char) : Bool := isBlank c || c == '(' || c == ';'

def Piece.isOpen : Piece → Bool
  | .token _ (c :: rest) => c == ';' || c == '(' && !rest.contains ')'
  | _ => false

theorem Piece.Begins.open_form (h : p.Begins cs more) (hp : p.isOpen = true) :
    more = [] ∧ ((∃ text, cs = ';' :: text) ∨ ∃ text, cs = '(' :: text ∧ ∀ c ∈ text, c ≠ ')') := by
  have hletter {c : Char} (hc : c.isAlpha = true ∨ isNumeric c = true) : c ≠ '(' ∧ c ≠ ';' := by
    rcases hc with hc | hc <;> exact ⟨ne_of_class hc rfl, ne_of_class hc rfl⟩
  cases h with
  | @unclosed text htext => exact ⟨rfl, .inr ⟨text, rfl, htext⟩⟩
  | @lineComment text => exact ⟨rfl, .inl ⟨text, rfl⟩⟩
  | blank | toolComment | comment => simp [Piece.isOpen] at hp
  | word hc | letters hc | letter hc => simp [Piece.isOpen, hletter (.inl hc)] at hp
  | numeric hc => simp [Piece.isOpen, hletter (.inr hc)] at hp
  | single _ hinert =>
    simp only [isInert, Bool.and_eq_true, bne_iff_ne] at hinert
    simp [Piece.isOpen, hinert] at hp

@[elab_as_elim]
theorem isStop_elim {P : Char → Prop} {d : Char} (h : isStop d = true) (hP : P ' ' ∧ P '\t' ∧ P '(' ∧ P ';') : P d := by
  simp only [isStop, isBlank, Bool.or_eq_true, beq_iff_eq] at h
  obtain ⟨hblank, htab, hopen, hsemicolon⟩ := hP
  rcases h with ((rfl | rfl) | rfl) | rfl <;> assumption

section Exchange

variable {x s s' : List Char}

theorem exchange_head {P : Char → Prop} (h : ∀ d ∈ (x ++ s).head?, P d) (hs : ∀ d ∈ s'.head?, isStop d = true)
    (hP : P ' ' ∧ P '\t' ∧ P '(' ∧ P ';') : ∀ d ∈ (x ++ s').head?, P d := by
  cases x with
  | nil => exact fun d hd => isStop_elim (hs d hd) hP
  | cons c x => exact h

theorem numeral_exchange (h : numeral (x ++ s) = []) (hs : ∀ d ∈ s'.head?, isStop d = true) :
    numeral (x ++ s') = [] := by
  by_contra hne
  obtain ⟨v, rest, hcut, hv, -⟩ := exists_numeral hne
  rcases List.append_eq_append_iff.1 hcut with ⟨y, rfl, rfl⟩ | ⟨y, rfl, rfl⟩
  · cases y with
    | nil => exact numeral_append_ne_nil hv s (by simpa using h)
    | cons d y =>
      have hd : isNumeric d = true := isNumeric_of_mem_isNumeral hv (by simp)
      have hnot : isNumeric d = false := isStop_elim (hs d rfl) (by decide)
      exact absurd hd (by simp [hnot])
  · rw [List.append_assoc] at h
    exact numeral_append_ne_nil hv _ h

theorem Piece.Begins.exchange (h : p.Begins cs (x ++ s)) (hopen : p.isOpen = false)
    (hs : ∀ d ∈ s'.head?, isStop d = true) : p.Begins (p.source ++ (x ++ s')) (x ++ s') := by
  generalize hmid : x ++ s = mid at h
  cases h with
  | blank hc => exact .blank hc
  | toolComment htext htool => simpa [Piece.source] using toolComment htext htool
  | comment htext htool => simpa [Piece.source] using comment htext htool
  | @unclosed text htext =>
    have hclose : ')' ∈ text := by simpa [Piece.isOpen] using hopen
    exact absurd rfl (htext ')' hclose)
  | lineComment => simp [Piece.isOpen] at hopen
  | @word c value _ hc hvalue hmore =>
    subst hmid
    have hends : EndsNumeral value (x ++ s') := exchange_head hmore hs (by simp)
    exact word hc hvalue hends
  | letters hc hd htail hmore =>
    subst hmid
    have hends : ∀ d ∈ (x ++ s').head?, swallows d = false := exchange_head hmore hs (by decide)
    simpa [Piece.source] using letters hc hd htail hends
  | letter hc hvalue hmore =>
    subst hmid
    have hvalue : numeral (x ++ s') = [] := numeral_exchange hvalue hs
    have hends : ∀ d ∈ (x ++ s').head?, d.isAlpha = false := exchange_head hmore hs (by decide)
    exact letter hc hvalue hends
  | @numeric c run glued _ hc hrun hglued hstop hmore =>
    subst hmid
    have hstop : ∀ d ∈ (glued ++ (x ++ s')).head?, isNumeric d = false := by
      rw [← List.append_assoc] at hstop ⊢
      exact exchange_head hstop hs (by decide)
    have hends : ∀ d ∈ (x ++ s').head?, d.isAlphanum = false := exchange_head hmore hs (by decide)
    simpa [Piece.source] using numeric hc hrun hglued hstop hends
  | single hblank hinert => exact single hblank hinert

theorem Row.exchange (h : Row cs ps s) (hopen : ∀ p ∈ ps, p.isOpen = false) (hs : ∀ d ∈ s'.head?, isStop d = true) :
    Row (ps.flatMap Piece.source ++ s') ps s' := by
  induction ps generalizing cs with
  | nil => exact .nil
  | cons p ps ih =>
    obtain ⟨hp, hps⟩ := List.forall_mem_cons.1 hopen
    cases h with
    | cons hbegins hrow =>
      rw [← hrow.source_append] at hbegins
      rw [List.flatMap_cons, List.append_assoc]
      exact .cons (hbegins.exchange hp hs) (ih hrow hps)

theorem Lead.exchange (h : Lead cs lead (x ++ s)) (hs : ∀ d ∈ s'.head?, isStop d = true)
    (hplace : (∀ c ∈ lead.flatMap Piece.source ++ x, isBlank c = true) → ∀ d ∈ s'.head?, isBlank d = false) :
    Lead (lead.flatMap Piece.source ++ (x ++ s')) lead (x ++ s') := by
  generalize hmid : x ++ s = mid at h
  cases h with
  | @none bs _ hbs hmore hnumber =>
    subst hmid
    rw [flatMap_source_blank] at hplace ⊢
    apply none hbs
    · cases x with
      | nil => exact hplace (by simpa using hbs)
      | cons c x => exact hmore
    · intro c d rest hrest hc
      rcases x with _ | ⟨c', _ | ⟨d', x⟩⟩
      · have hstop : isStop c = true := hs c (congrArg List.head? hrest)
        exact absurd hc (isStop_elim hstop (by decide))
      · obtain ⟨-, rfl⟩ := List.cons.inj hrest
        exact isStop_elim (hs d rfl) (by decide)
      · exact hnumber c d (x ++ s) (by simp_all) hc
  | @number bs digits _ c hbs hc hne hdigits hmore =>
    subst hmid
    have hends : ∀ d ∈ (x ++ s').head?, d.isDigit = false := exchange_head hmore hs (by decide)
    simpa [flatMap_source_blank, Piece.source] using number hbs hc hne hdigits hends

theorem pieces_exchange (hlead : Lead cs lead mid) (hps : Row mid ps s) (hopen : ∀ p ∈ ps, p.isOpen = false)
    (hs : ∀ d ∈ s'.head?, isStop d = true)
    (hplace : (∀ c ∈ (lead ++ ps).flatMap Piece.source, isBlank c = true) → ∀ d ∈ s'.head?, isBlank d = false) :
    pieces ((lead ++ ps).flatMap Piece.source ++ s') = lead ++ ps ++ munch Piece.next s' := by
  rw [List.flatMap_append] at hplace
  rw [← hps.source_append] at hlead
  rw [List.flatMap_append, List.append_assoc, (hlead.exchange hs hplace).pieces_eq, (hps.exchange hopen hs).munch_eq,
    List.append_assoc]

end Exchange

end Machining.Line
