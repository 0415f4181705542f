import Machining.Proofs.LineGrammar
import Machining.Proofs.Rows

/-!
Reading a line by its grammar. On every text the rule of a line reads all of it, and what the nodes amount to is what
the reader gives. Nothing is lost: the text is blanks and spans in turn, and the spans belong to the line number and to
the tokens, one to each.
-/

namespace Machining.Line
open Machining.Text

/-- What a piece other than a blank is written as, given what follows it. -/
inductive Piece.IsSpan : Piece → List Char → Prop
  | number {c : Char} {digits more : List Char} (hc : c.toUpper = 'N') (hne : digits ≠ [])
      (hdigits : ∀ d ∈ digits, d.isDigit = true) : IsSpan (.number c digits) more
  | word {c : Char} {value more : List Char} (hc : c.isAlpha = true) (hvalue : IsNumeral value) :
      IsSpan (.token (.word ⟨c.toUpper, value⟩) (c :: value)) more
  | toolComment {text digits description more : List Char} (htext : ∀ c ∈ text, c ≠ ')')
      (htool : toolComment? text = some (digits, description)) :
      IsSpan (.token (.toolComment digits description) ('(' :: (text ++ [')']))) more
  | comment {text more : List Char} (htext : ∀ c ∈ text, c ≠ ')') :
      IsSpan (.token (.comment text) ('(' :: (text ++ [')']))) more
  | unclosed {text : List Char} (htext : ∀ c ∈ text, c ≠ ')') : IsSpan (.token (.comment text) ('(' :: text)) []
  | lineComment {text : List Char} : IsSpan (.token (.comment text) (';' :: text)) []
  | other {text more : List Char} (hne : text ≠ []) : IsSpan (.token (.other text) text) more

/-- The text is the spans of these pieces in order, with blanks in front of, between and behind them. -/
inductive Spells : List Piece → List Char → Prop
  | nil {bs : List Char} (hbs : ∀ c ∈ bs, isBlank c = true) : Spells [] bs
  | cons {bs more : List Char} {p : Piece} {ps : List Piece} (hbs : ∀ c ∈ bs, isBlank c = true) (hp : p.IsSpan more)
      (hps : Spells ps more) : Spells (p :: ps) (bs ++ (p.source ++ more))

variable {cs mid more bs : List Char} {p : Piece} {ps lead : List Piece} {ns : List (Node Rule)} {n : Node Rule}

namespace Piece

def isToken (p : Piece) : Bool := p.token?.isSome

theorem Begins.blank_or_token (h : p.Begins cs more) :
    (∃ c, isBlank c = true ∧ p = .blank c ∧ cs = c :: more) ∨
      p.isToken = true ∧ ∀ c ∈ cs.head?, isBlank c = false := by
  cases h with
  | @blank c _ hc => exact .inl ⟨c, hc, rfl, rfl⟩
  | toolComment | comment | unclosed | lineComment => exact .inr ⟨rfl, fun c hc => Option.some.inj hc ▸ rfl⟩
  | word hc | letters hc | letter hc =>
    exact .inr ⟨rfl, fun d hd => Option.some.inj hd ▸ (Begins.lexeme_of_isAlpha hc).1⟩
  | numeric hc => exact .inr ⟨rfl, fun d hd => Option.some.inj hd ▸ (Begins.lexeme_of_isNumeric hc).1⟩
  | single hblank => exact .inr ⟨rfl, fun d hd => Option.some.inj hd ▸ hblank⟩

theorem Begins.isSpan (h : p.Begins cs more) (hp : p.isToken = true) : p.IsSpan more := by
  cases h with
  | blank => cases hp
  | toolComment htext htool => exact .toolComment htext htool
  | comment htext htool => exact .comment htext
  | unclosed htext => exact .unclosed htext
  | lineComment => exact .lineComment
  | word hc hvalue hmore => exact .word hc hvalue
  | letters | letter | numeric | single => exact .other (List.cons_ne_nil _ _)

end Piece

theorem Spells.blanks_append {text : List Char} (h : Spells ps text) (hbs : ∀ c ∈ bs, isBlank c = true) :
    Spells ps (bs ++ text) := by
  cases h with
  | nil hbs' => exact .nil (List.forall_mem_append.2 ⟨hbs, hbs'⟩)
  | cons hbs' hp hps =>
    rw [← List.append_assoc]
    exact .cons (List.forall_mem_append.2 ⟨hbs, hbs'⟩) hp hps

theorem Row.spells (h : Row cs ps []) : Spells (ps.filter Piece.isToken) cs := by
  generalize hmore : ([] : List Char) = more at h
  induction h with
  | nil => exact hmore ▸ .nil (by simp)
  | cons hp hps ih =>
    have hspells := ih hmore
    rcases hp.blank_or_token with ⟨c, hc, rfl, rfl⟩ | ⟨htoken, -⟩
    · have hblank : ∀ d ∈ [c], isBlank d = true := by simpa using hc
      exact hspells.blanks_append hblank
    · have hnone : ∀ d ∈ [], isBlank d = true := by simp
      rw [List.filter_cons_of_pos htoken, ← hp.source_append]
      exact .cons hnone (hp.isSpan htoken) hspells

theorem addNode_of_pieceOf? (line : Line) (h : pieceOf? n = some p) :
    addNode line n = { line with tokens := line.tokens ++ p.token?.toList } := by
  obtain ⟨t, ht, rfl⟩ := Option.map_eq_some_iff.1 h
  obtain ⟨rule, source, inner⟩ := n
  cases rule with
  | lineNumber | endOfInput => cases ht
  | _ => simp [addNode, Node.rule, ht, Piece.token?]

theorem source_of_pieceOf? (h : pieceOf? n = some p) : n.source = p.source := by
  obtain ⟨t, -, rfl⟩ := Option.map_eq_some_iff.1 h
  rfl

theorem foldl_addNode (line : Line) (h : ns.map pieceOf? = ps.map some) :
    ns.foldl addNode line = { line with tokens := line.tokens ++ ps.filterMap Piece.token? } := by
  induction ns generalizing ps line with
  | nil =>
    obtain rfl : ps = [] := by simpa using h.symm
    simp
  | cons n ns ih =>
    obtain ⟨p, ps, rfl⟩ : ∃ p ps', ps = p :: ps' := by
      cases ps with
      | nil => cases h
      | cons p ps => exact ⟨p, ps, rfl⟩
    obtain ⟨hp, hps⟩ := List.cons.inj h
    rw [List.foldl_cons, addNode_of_pieceOf? line hp, ih _ hps]
    cases htoken : p.token? <;> simp [htoken]

theorem map_source_of_pieceOf? (h : ns.map pieceOf? = ps.map some) : ns.map Node.source = ps.map Piece.source := by
  rw [← List.forall₂_eq_eq_eq, List.forall₂_map_left_iff, List.forall₂_map_right_iff] at *
  exact h.imp fun n p hp => source_of_pieceOf? hp

theorem ofNodes_append {number : Option (List Char)} {ts : List (Node Rule)} (hns : ofNodes ns = ⟨number, []⟩)
    (hts : ts.map pieceOf? = ps.map some) :
    ofNodes (ns ++ ts ++ [⟨.endOfInput, [], []⟩]) = ⟨number, ps.filterMap Piece.token?⟩ := by
  rw [ofNodes] at hns
  rw [ofNodes, List.foldl_append, List.foldl_append, hns, foldl_addNode _ hts]
  rfl

namespace Grammar
open Peg

theorem parses_all_blanks (hbs : ∀ c ∈ bs, isBlank c = true) : blanks.Parses bs (some ([], [])) := by
  have hparses := takes_blank.parses_many (r := []) hbs (by simp)
  rwa [List.append_nil] at hparses

theorem parses_token_nil : token.Parses [] none := by
  have hword : word.Parses [] none := .namedFails (.seqFirst (.namedFails .charEnd))
  have hbare : bare.Parses [] none := .namedFails (.seqFirst .charEnd)
  have hother : other.Parses [] none :=
    .namedFails (.choiceSecond (.seqFirst (takes_numeric.parses_many1_none (by simp))) .charEnd)
  apply Parses.choiceSecond (.namedFails (.seqFirst .charEnd))
  apply Parses.choiceSecond (.namedFails (.seqFirst .charEnd))
  apply Parses.choiceSecond (.namedFails (.seqFirst .charEnd))
  exact .choiceSecond hword (.choiceSecond hbare hother)

theorem exists_tokens (bs : List Char) (hbs : ∀ c ∈ bs, isBlank c = true) (h : Row cs ps []) :
    ∃ ns rest, (blanks.seq token).many.Parses (bs ++ cs) (some (ns, rest)) ∧ (∀ c ∈ rest, isBlank c = true) ∧
      ns.map pieceOf? = (ps.filter Piece.isToken).map some := by
  -- on the pieces; the repetition skips blanks in one go, so those in front of the next token are gathered in `bs`
  induction ps generalizing cs bs with
  | nil =>
    cases h
    have hstop : (blanks.seq token).Parses bs none := .seqSecond (parses_all_blanks hbs) parses_token_nil
    exact ⟨[], bs, by simpa using Parses.manyStop hstop, hbs, rfl⟩
  | cons p ps ih =>
    cases h with
    | @cons _ mid _ _ _ hp hps =>
      rcases hp.blank_or_token with ⟨c, hc, rfl, rfl⟩ | ⟨htoken, hhead⟩
      · have hmore := ih (bs ++ [c]) (List.forall_mem_append.2 ⟨hbs, by simpa using hc⟩) hps
        rwa [List.append_assoc, List.singleton_append] at hmore
      · obtain ⟨n, hn, hpiece⟩ := exists_token hp htoken
        obtain ⟨ns, rest, hns, hrest, hpieces⟩ := ih [] (by simp) hps
        have htokens := Parses.manyMore (.seq (takes_blank.parses_many hbs hhead) hn) hns
        exact ⟨_, rest, htokens, hrest, by simp [htoken, hpiece, hpieces]⟩

theorem exists_rest (h : Row cs ps []) :
    ∃ ns, (blanks.seq (tokens.seq (blanks.seq endOfInput))).Parses cs (some (ns ++ [⟨.endOfInput, [], []⟩], [])) ∧
      ns.map pieceOf? = (ps.filter Piece.isToken).map some := by
  obtain ⟨ns, rest, hmany, hrest, hpieces⟩ := exists_tokens [] (by simp) h
  have hend : (blanks.seq endOfInput).Parses rest (some ([⟨.endOfInput, [], []⟩], [])) :=
    .seq (parses_all_blanks hrest) (.named rfl (.absent .charEnd))
  refine ⟨ns, ?_, hpieces⟩
  cases hmany with
  | manyStop =>
    have htokens : tokens.Parses [] (some ([], [])) := .choiceSecond (.seqFirst parses_token_nil) .empty
    have hnone : (blanks.seq endOfInput).Parses [] (some ([⟨.endOfInput, [], []⟩], [])) :=
      .seq (parses_all_blanks (by simp)) (.named rfl (.absent .charEnd))
    exact .seq (parses_all_blanks hrest) (.seq htokens hnone)
  | manyMore hfirst hmany =>
    cases hfirst with
    | seq hblanks htoken =>
      have htokens := Parses.seq (a := tokens) (.choiceFirst (.seq htoken hmany)) hend
      simpa using Parses.seq hblanks htokens

theorem parses_lineNumber {c : Char} {digits : List Char} (hc : c.toUpper = 'N') (hne : digits ≠ [])
    (hdigits : ∀ d ∈ digits, d.isDigit = true) (hmore : ∀ d ∈ more.head?, d.isDigit = false) :
    lineNumber.Parses (c :: (digits ++ more)) (some ([⟨.lineNumber, c :: digits, [⟨.int, digits, []⟩]⟩], more)) := by
  have hletter := parses_letters (l := [c]) (r := digits ++ more) ['N'] (by simp [hc])
  exact .named (List.cons_append ..) (.seq hletter (parses_int hne hdigits hmore))

theorem parses_lineNumber_none (h : ∀ c d rest, cs = c :: d :: rest → c.toUpper = 'N' → d.isDigit = false) :
    lineNumber.Parses cs none := by
  apply Parses.namedFails
  cases cs with
  | nil => exact .seqFirst (.seqFirst .charEnd)
  | cons c rest =>
    by_cases hc : c.toUpper = 'N'
    · apply Parses.seqSecond (parses_letters (l := [c]) ['N'] (by simp [hc]))
      apply parses_int_none
      intro d hd
      obtain ⟨rest, rfl⟩ : ∃ rest', rest = d :: rest' := by
        cases rest with
        | nil => cases hd
        | cons d' rest => exact ⟨rest, congrArg (· :: rest) (Option.some.inj hd)⟩
      exact h c d rest rfl hc
    · exact .seqFirst (.seqFirst (.charOther (by simpa using hc)))

theorem exists_number (h : Lead cs lead mid) :
    ∃ (ns : List (Node Rule)) (numbers : List Piece) (rest : List Char),
      blanks.Parses cs (some ([], rest)) ∧ lineNumber.opt.Parses rest (some (ns, mid)) ∧
      ofNodes ns = ⟨lead.findSome? Piece.number?, []⟩ ∧ ns.map Node.source = numbers.map Piece.source ∧
      numbers.map Piece.number? = (lead.findSome? Piece.number?).toList.map some ∧
      ∀ tokens, Spells tokens mid → Spells (numbers ++ tokens) cs := by
  cases h with
  | @none bs _ hbs hmore hnumber =>
    refine ⟨[], [], mid, takes_blank.parses_many hbs hmore, .choiceSecond (parses_lineNumber_none hnumber) .empty, ?_⟩
    rw [findSome?_number?_blank]
    exact ⟨rfl, rfl, rfl, fun tokens hspells => hspells.blanks_append hbs⟩
  | @number bs digits _ c hbs hc hne hdigits hmore =>
    have hblanks : blanks.Parses (bs ++ c :: (digits ++ mid)) (some ([], c :: (digits ++ mid))) :=
      takes_blank.parses_many hbs fun d hd => Option.some.inj hd ▸ isBlank_eq_false_of_toUpper hc
    refine ⟨_, [.number c digits], _, hblanks, .choiceFirst (parses_lineNumber hc hne hdigits hmore), ?_⟩
    have hnumber : (bs.map Piece.blank ++ [Piece.number c digits]).findSome? Piece.number? = some digits := by
      rw [List.findSome?_append, findSome?_number?_blank]
      rfl
    rw [hnumber]
    exact ⟨rfl, rfl, rfl, fun tokens hspells => .cons hbs (.number hc hne hdigits) hspells⟩

end Grammar

theorem map_token?_filter (ps : List Piece) :
    (ps.filter Piece.isToken).map Piece.token? = (ps.filterMap Piece.token?).map some := by
  induction ps with
  | nil => rfl
  | cons p ps ih => cases htoken : p.token? <;> simp [Piece.isToken, htoken, ih]

theorem filterMap_token?_filter (ps : List Piece) :
    (ps.filter Piece.isToken).filterMap Piece.token? = ps.filterMap Piece.token? := by
  have hsome := congrArg (List.filterMap id) (map_token?_filter ps)
  simpa using hsome

/-- The grammar reads every text to its end and in one way only, and nothing but blanks is left out. -/
theorem read_by_grammar (text : String) :
    ∃ (nodes : List (Node Rule)) (numbers tokens : List Piece),
      (∀ result, Grammar.line.Parses text.toList result ↔ result = some ([⟨.line, text.toList, nodes⟩], [])) ∧
      ofNodes nodes = read text ∧
      nodes.map Node.source = (numbers ++ tokens).map Piece.source ++ [[]] ∧
      numbers.map Piece.number? = (read text).number.toList.map some ∧
      tokens.map Piece.token? = (read text).tokens.map some ∧
      Spells (numbers ++ tokens) text.toList := by
  obtain ⟨lead, mid, ps, hlead, hps⟩ := exists_lead_row text.toList
  obtain ⟨ns, numbers, rest, hblanks, hnumber, hofNodes, hsources, hnumbers, hspells⟩ := Grammar.exists_number hlead
  obtain ⟨ts, htokens, hpieces⟩ := Grammar.exists_rest hps
  have hread : read text = ⟨lead.findSome? Piece.number?, ps.filterMap Piece.token?⟩ := ofChars_of_lead hlead hps
  have hparts := Peg.Parses.seq hblanks (.seq hnumber htokens)
  rw [List.nil_append, ← List.append_assoc] at hparts
  have hline : Grammar.line.Parses text.toList _ := .named (List.append_nil _) hparts
  refine ⟨_, numbers, ps.filter Piece.isToken, fun result => ⟨fun h => h.unique hline, fun h => h ▸ hline⟩, ?_⟩
  rw [hread]
  refine ⟨?_, ?_, hnumbers, map_token?_filter ps, hspells _ hps.spells⟩
  · rw [ofNodes_append hofNodes hpieces, filterMap_token?_filter]
  · simp only [List.map_append, hsources, map_source_of_pieceOf? hpieces]
    rfl

end Machining.Line
