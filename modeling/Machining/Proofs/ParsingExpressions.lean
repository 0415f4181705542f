import Machining.Proofs.Runs

/-!
Parsing expressions. An expression reads a part of a text from its start and leaves the rest, or it fails. Of two
alternatives the second is tried only where the first fails, a repetition goes on as long as it can, and neither choice is
taken back. What a named rule reads becomes a node, which holds the nodes of the rules in it. `Peg.Parses` says what
reading ends in; it ends in one way at most, and in none if it never ends.
-/

namespace Machining

inductive Node (ρ : Type)
  | mk (rule : ρ) (source : List Char) (inner : List (Node ρ))

namespace Node

variable {ρ : Type}

def rule : Node ρ → ρ | mk rule _ _ => rule

def source : Node ρ → List Char | mk _ source _ => source

def inner : Node ρ → List (Node ρ) | mk _ _ inner => inner

end Node

inductive Peg (ρ : Type)
  | empty
  | char (p : Char → Bool)
  | seq (a b : Peg ρ)
  | choice (a b : Peg ρ)
  | many (a : Peg ρ)
  | absent (a : Peg ρ)
  | named (rule : ρ) (a : Peg ρ)

namespace Peg

variable {ρ : Type}

def opt (a : Peg ρ) : Peg ρ := a.choice .empty

def many1 (a : Peg ρ) : Peg ρ := a.seq a.many

def any : Peg ρ := .char fun _ => true

abbrev Result (ρ : Type) := Option (List (Node ρ) × List Char)

inductive Parses : Peg ρ → List Char → Result ρ → Prop
  | empty {cs : List Char} : Parses .empty cs (some ([], cs))
  | char {p : Char → Bool} {c : Char} {cs : List Char} (hc : p c = true) : Parses (.char p) (c :: cs) (some ([], cs))
  | charOther {p : Char → Bool} {c : Char} {cs : List Char} (hc : p c = false) : Parses (.char p) (c :: cs) none
  | charEnd {p : Char → Bool} : Parses (.char p) [] none
  | seq {a b : Peg ρ} {cs ds es : List Char} {ns ms : List (Node ρ)} (ha : Parses a cs (some (ns, ds)))
      (hb : Parses b ds (some (ms, es))) : Parses (.seq a b) cs (some (ns ++ ms, es))
  | seqFirst {a b : Peg ρ} {cs : List Char} (ha : Parses a cs none) : Parses (.seq a b) cs none
  | seqSecond {a b : Peg ρ} {cs ds : List Char} {ns : List (Node ρ)} (ha : Parses a cs (some (ns, ds)))
      (hb : Parses b ds none) : Parses (.seq a b) cs none
  | choiceFirst {a b : Peg ρ} {cs ds : List Char} {ns : List (Node ρ)} (ha : Parses a cs (some (ns, ds))) :
      Parses (.choice a b) cs (some (ns, ds))
  | choiceSecond {a b : Peg ρ} {cs : List Char} {r : Result ρ} (ha : Parses a cs none) (hb : Parses b cs r) :
      Parses (.choice a b) cs r
  | manyStop {a : Peg ρ} {cs : List Char} (ha : Parses a cs none) : Parses (.many a) cs (some ([], cs))
  | manyMore {a : Peg ρ} {cs ds es : List Char} {ns ms : List (Node ρ)} (ha : Parses a cs (some (ns, ds)))
      (hmany : Parses (.many a) ds (some (ms, es))) : Parses (.many a) cs (some (ns ++ ms, es))
  | absent {a : Peg ρ} {cs : List Char} (ha : Parses a cs none) : Parses (.absent a) cs (some ([], cs))
  | absentReads {a : Peg ρ} {cs ds : List Char} {ns : List (Node ρ)} (ha : Parses a cs (some (ns, ds))) :
      Parses (.absent a) cs none
  | named {rule : ρ} {a : Peg ρ} {source rest cs : List Char} {ns : List (Node ρ)} (hcs : source ++ rest = cs)
      (ha : Parses a cs (some (ns, rest))) : Parses (.named rule a) cs (some ([⟨rule, source, ns⟩], rest))
  | namedFails {rule : ρ} {a : Peg ρ} {cs : List Char} (ha : Parses a cs none) : Parses (.named rule a) cs none

theorem Parses.unique {e : Peg ρ} {cs : List Char} {r s : Result ρ} (h : Parses e cs r) (h' : Parses e cs s) : r = s := by
  induction h generalizing s with
  | empty => cases h'; rfl
  | char hc => cases h' <;> simp_all
  | charOther hc => cases h' <;> simp_all
  | charEnd => cases h'; rfl
  | seq ha hb iha ihb =>
    cases h' with
    | seq ha' hb' =>
      obtain ⟨rfl, rfl⟩ := Prod.mk.inj (Option.some.inj (iha ha'))
      obtain ⟨rfl, rfl⟩ := Prod.mk.inj (Option.some.inj (ihb hb'))
      rfl
    | seqFirst ha' => cases iha ha'
    | seqSecond ha' hb' =>
      obtain ⟨rfl, rfl⟩ := Prod.mk.inj (Option.some.inj (iha ha'))
      cases ihb hb'
  | seqFirst ha iha =>
    cases h' with
    | seq ha' _ => cases iha ha'
    | seqFirst => rfl
    | seqSecond => rfl
  | seqSecond ha hb iha ihb =>
    cases h' with
    | seq ha' hb' =>
      obtain ⟨rfl, rfl⟩ := Prod.mk.inj (Option.some.inj (iha ha'))
      cases ihb hb'
    | seqFirst ha' => rfl
    | seqSecond => rfl
  | choiceFirst ha iha =>
    cases h' with
    | choiceFirst ha' => exact iha ha'
    | choiceSecond ha' => cases iha ha'
  | choiceSecond ha hb iha ihb =>
    cases h' with
    | choiceFirst ha' => cases iha ha'
    | choiceSecond ha' hb' => exact ihb hb'
  | manyStop ha iha =>
    cases h' with
    | manyStop => rfl
    | manyMore ha' => cases iha ha'
  | manyMore ha hmany iha ihmany =>
    cases h' with
    | manyStop ha' => cases iha ha'
    | manyMore ha' hmany' =>
      obtain ⟨rfl, rfl⟩ := Prod.mk.inj (Option.some.inj (iha ha'))
      obtain ⟨rfl, rfl⟩ := Prod.mk.inj (Option.some.inj (ihmany hmany'))
      rfl
  | absent ha iha =>
    cases h' with
    | absent => rfl
    | absentReads ha' => cases iha ha'
  | absentReads ha iha =>
    cases h' with
    | absent ha' => cases iha ha'
    | absentReads => rfl
  | named hcs ha iha =>
    cases h' with
    | named hcs' ha' =>
      obtain ⟨rfl, rfl⟩ := Prod.mk.inj (Option.some.inj (iha ha'))
      rw [List.append_cancel_right (hcs.trans hcs'.symm)]
    | namedFails ha' => cases iha ha'
  | namedFails ha iha =>
    cases h' with
    | named _ ha' => cases iha ha'
    | namedFails => rfl

structure Takes (e : Peg ρ) (p : Char → Bool) : Prop where
  parses : ∀ c cs, p c = true → e.Parses (c :: cs) (some ([], cs))
  parses_none : ∀ cs, (∀ c ∈ cs.head?, p c = false) → e.Parses cs none

variable {a b : Peg ρ} {p q : Char → Bool}

theorem takes_char (p : Char → Bool) : (Peg.char p : Peg ρ).Takes p where
  parses _ _ hc := .char hc
  parses_none cs hcs := by
    cases cs with
    | nil => exact .charEnd
    | cons c cs => exact .charOther (hcs c rfl)

theorem Takes.choice (ha : a.Takes p) (hb : b.Takes q) : (a.choice b).Takes fun c => p c || q c where
  parses c cs hc := by
    cases hp : p c with
    | true => exact .choiceFirst (ha.parses c cs hp)
    | false => 
      have hfails : a.Parses (c :: cs) none := ha.parses_none _ fun d hd => Option.some.inj hd ▸ hp
      exact .choiceSecond hfails (hb.parses c cs (by simpa [hp] using hc))
  parses_none cs hcs :=
    .choiceSecond (ha.parses_none cs fun c hc => (Bool.or_eq_false_iff.1 (hcs c hc)).1)
      (hb.parses_none cs fun c hc => (Bool.or_eq_false_iff.1 (hcs c hc)).2)

theorem Takes.absent_any (ha : a.Takes p) : ((absent a).seq any).Takes fun c => !p c where
  parses c cs hc := by
    have hfails : a.Parses (c :: cs) none := ha.parses_none _ fun d hd => Option.some.inj hd ▸ by simpa using hc
    exact .seq (.absent hfails) (.char rfl)
  parses_none cs hcs := by
    cases cs with
    | nil => exact .seqSecond (.absent (ha.parses_none [] (by simp))) .charEnd
    | cons c cs => exact .seqFirst (.absentReads (ha.parses c cs (by simpa using hcs c rfl)))

theorem Takes.parses_many (ha : a.Takes p) {l r : List Char} (hl : ∀ c ∈ l, p c = true)
    (hr : ∀ c ∈ r.head?, p c = false) : a.many.Parses (l ++ r) (some ([], r)) := by
  induction l with
  | nil => exact .manyStop (ha.parses_none r hr)
  | cons c l ih => 
    obtain ⟨hc, hl⟩ := List.forall_mem_cons.1 hl
    exact .manyMore (ha.parses c (l ++ r) hc) (ih hl)

theorem Takes.parses_many1 (ha : a.Takes p) {l r : List Char} (hne : l ≠ []) (hl : ∀ c ∈ l, p c = true)
    (hr : ∀ c ∈ r.head?, p c = false) : a.many1.Parses (l ++ r) (some ([], r)) := by
  obtain ⟨c, l, rfl⟩ := List.exists_cons_of_ne_nil hne
  obtain ⟨hc, hl⟩ := List.forall_mem_cons.1 hl
  exact .seq (ha.parses c (l ++ r) hc) (ha.parses_many hl hr)

theorem Takes.parses_many1_none (ha : a.Takes p) {cs : List Char} (hcs : ∀ c ∈ cs.head?, p c = false) :
    a.many1.Parses cs none := .seqFirst (ha.parses_none cs hcs)

end Peg

end Machining
