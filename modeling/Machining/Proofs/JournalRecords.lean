import Machining.Proofs.JournaledReading
import Machining.Proofs.Numbering
import Machining.Proofs.Rendering

/-!
What the journal of a text says about its program. The kind of a record is told by its level and by the words in which it
ends. Records are made line by line, before the operation is complete to which they belong, but those of a kind are the
records of all operations, of all blocks or of all lines of the program, in order and with nothing left out.
-/

namespace Machining

variable {rule : BoundaryRule} {ls : List String} {p : Program}

namespace Record

def found (b : OffsetBlock) : Record := ⟨.debug, s!"line {b.firstLine}: {b.code} block"⟩

def footerAt (n : Nat) : Record := ⟨.debug, s!"line {n}: footer starts"⟩

def storedFrom (first : Nat) (phase : Phase) (count : Nat) : List Record :=
  (List.range' first count).map (stored · phase)

def endsIn (words : String) (r : Record) : Bool := words.toList.isSuffixOf r.message.toList

inductive Kind
  | line
  | opening
  | block
  | extent
  | other
  deriving DecidableEq, Repr

def kind (r : Record) : Kind :=
  match r.level with
  | .trace => .line
  | .debug =>
    if r.endsIn " block" then .block
    else if r.endsIn "footer starts" then .other
    else if r.endsIn " starts" then .opening
    else if r.endsIn " WCS block(s)" then .extent
    else .other
  | .info => .other

def ofKind (k : Kind) (rs : List Record) : List Record := rs.filter (·.kind == k)

theorem endsIn_of_suffix {level : Level} {front tail words : String} (h : words.toList <:+ tail.toList) :
    (⟨level, front ++ tail⟩ : Record).endsIn words = true := by
  rw [endsIn, String.toList_append, List.isSuffixOf_iff_suffix]
  exact List.suffix_append_of_suffix h

/-- Read from the end, the record and the words come to different letters. -/
theorem endsIn_eq_false {level : Level} {front tail words : String} {c d : Char} {common : List Char}
    (htail : c :: common <:+ tail.toList) (hwords : d :: common <:+ words.toList) (hne : c ≠ d) :
    (⟨level, front ++ tail⟩ : Record).endsIn words = false := by
  obtain ⟨before, htail⟩ := htail
  obtain ⟨before', hwords⟩ := hwords
  have hlength : (d :: common).length = (c :: common).length := rfl
  rw [endsIn, ← Bool.not_eq_true, List.isSuffixOf_iff_suffix, String.toList_append, ← htail, ← hwords,
    ← List.append_assoc, List.suffix_append_inj_of_length_eq hlength]
  rintro ⟨-, hend⟩
  exact hne (List.cons.inj hend).1.symm

theorem endsIn_eq_false_of_last {level : Level} {front tail words : String} {c d : Char}
    (htail : tail.toList.getLast? = some c) (hwords : words.toList.getLast? = some d) (hne : c ≠ d) :
    (⟨level, front ++ tail⟩ : Record).endsIn words = false := by
  obtain ⟨before, hbefore⟩ := List.getLast?_eq_some_iff.1 htail
  obtain ⟨before', hbefore'⟩ := List.getLast?_eq_some_iff.1 hwords
  exact endsIn_eq_false ⟨before, hbefore.symm⟩ ⟨before', hbefore'.symm⟩ hne

theorem exists_digit_suffix (n : Nat) (tail : String) :
    ∃ c : Char, c.isDigit = true ∧ c :: tail.toList <:+ (toString n ++ tail).toList := by
  rcases List.eq_nil_or_concat' (Nat.toDigits 10 n) with hnil | ⟨front, c, hc⟩
  · exact absurd hnil Nat.toDigits_ne_nil
  · have hdigit : c.isDigit = true := Text.isDigit_toDigits n c (by simp [hc])
    refine ⟨c, hdigit, front, ?_⟩
    rw [String.toList_append, Text.toList_toString, hc]
    simp

@[simp] theorem kind_stored (n : Nat) (phase : Phase) : (stored n phase).kind = .line := rfl

@[simp] theorem kind_found (b : OffsetBlock) : (found b).kind = .block := by
  have hblock : (found b).endsIn " block" = true := endsIn_of_suffix (List.suffix_refl _)
  simp only [kind, hblock]
  rfl

@[simp] theorem kind_footerAt (n : Nat) : (footerAt n).kind = .other := by
  have hblock : (footerAt n).endsIn " block" = false := endsIn_eq_false_of_last rfl rfl (by decide)
  have hfooter : (footerAt n).endsIn "footer starts" = true := endsIn_of_suffix ⟨": ".toList, rfl⟩
  simp only [kind, hblock, hfooter]
  rfl

/-- In front of its last word the record of an opening has a digit, and not the end of another word. -/
@[simp] theorem kind_opened (op : Operation) : (opened op).kind = .opening := by
  obtain ⟨c, hc, hsuffix⟩ := exists_digit_suffix op.ordinal " starts"
  have hne : c ≠ 'r' := by
    rintro rfl
    exact absurd hc (by decide)
  have hblock : (opened op).endsIn " block" = false := endsIn_eq_false_of_last rfl rfl (by decide)
  have hstarts : (opened op).endsIn " starts" = true := endsIn_of_suffix (List.suffix_refl _)
  have hfooter : (opened op).endsIn "footer starts" = false := by
    have h : (⟨.debug, s!"line {op.firstLine}: operation N" ++ (toString op.ordinal ++ " starts")⟩ : Record).endsIn
        "footer starts" = false := endsIn_eq_false hsuffix ⟨"foote".toList, rfl⟩ hne
    rwa [← String.append_assoc] at h
  simp only [kind, hblock, hfooter, hstarts]
  rfl

@[simp] theorem kind_closed (op : Operation) : (closed op).kind = .extent := by
  have hblock : (closed op).endsIn " block" = false := endsIn_eq_false_of_last rfl rfl (by decide)
  have hfooter : (closed op).endsIn "footer starts" = false := endsIn_eq_false_of_last rfl rfl (by decide)
  have hstarts : (closed op).endsIn " starts" = false := endsIn_eq_false_of_last rfl rfl (by decide)
  have hextent : (closed op).endsIn " WCS block(s)" = true := endsIn_of_suffix (List.suffix_refl _)
  simp only [kind, hblock, hfooter, hstarts, hextent]
  rfl

@[simp] theorem ofKind_nil (k : Kind) : ofKind k [] = [] := rfl

@[simp] theorem ofKind_cons (k : Kind) (r : Record) (rs : List Record) :
    ofKind k (r :: rs) = if r.kind = k then r :: ofKind k rs else ofKind k rs := by
  simp [ofKind, List.filter_cons]

@[simp] theorem ofKind_append (k : Kind) (rs more : List Record) :
    ofKind k (rs ++ more) = ofKind k rs ++ ofKind k more := List.filter_append rs more

@[simp] theorem ofKind_storedFrom (k : Kind) (first : Nat) (phase : Phase) (count : Nat) :
    ofKind k (storedFrom first phase count) = if k = .line then storedFrom first phase count else [] := by
  split
  · next h =>
    subst h
    refine List.filter_eq_self.2 fun r hr => ?_
    obtain ⟨n, -, rfl⟩ := List.mem_map.1 hr
    rfl
  · next h =>
    refine List.filter_eq_nil_iff.2 fun r hr => ?_
    obtain ⟨n, -, rfl⟩ := List.mem_map.1 hr
    simpa using Ne.symm h

end Record

def OffsetBlock.records (b : OffsetBlock) : List Record :=
  Record.found b :: Record.storedFrom b.firstLine .inOffset b.lines.length

namespace Operation

open Record

variable {op : Operation} {header footer g : List String} {gs : List (List String)}

def footerLine (op : Operation) : Nat := op.firstLine + op.header.length + op.blockLines.length

def entries (op : Operation) : List (Nat × Phase) :=
  (List.range' op.firstLine op.header.length).map (·, .beforeOffset) ++
    op.blocks.flatMap (fun b => (List.range' b.firstLine b.lines.length).map (·, .inOffset)) ++
    (List.range' op.footerLine op.footer.length).map (·, .inFooter)

theorem Numbered.lineAt?_append (h : op.Numbered ls) {before part after : List String}
    (hsource : op.source = before ++ part ++ after) {j : Nat} (hj : j < part.length) :
    lineAt? ls (op.firstLine + before.length + j) = part[j]? := by
  have hlt : before.length + j < op.source.length := by
    rw [hsource, List.length_append, List.length_append]
    omega
  rw [Nat.add_assoc, h.source_at _ hlt, hsource, List.append_assoc, List.getElem?_append_right (Nat.le_add_right _ _),
    Nat.add_sub_cancel_left, List.getElem?_append_left hj]

end Operation

namespace Program

end Program

end Machining
