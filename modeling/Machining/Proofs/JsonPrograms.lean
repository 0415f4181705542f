import Machining.CommandLine
import Machining.Proofs.JsonDocuments
import Machining.Proofs.Numbering

/-!
A program is not changed by writing it in JSON and reading it again, whatever texts are in it. Each record is written
with all its fields, and a record is read field by field, so a field that is null has been null, and one that is empty has
been empty. Numbers have to fit into the bits that the reader takes.
-/

namespace Machining

namespace Json

variable {α : Type}

theorem mapM_map {β γ : Type} {f : α → β} {g : β → Option γ} {k : α → γ} {xs : List α}
    (h : ∀ x ∈ xs, g (f x) = some (k x)) : (xs.map f).mapM g = some (xs.map k) := by
  induction xs with
  | nil => rfl
  | cons x xs ih =>
    obtain ⟨hx, hxs⟩ := List.forall_mem_cons.1 h
    rw [List.map_cons, List.mapM_cons, hx, ih hxs]
    rfl

theorem list?_map {f : α → Json} {item? : Json → Option α} {xs : List α} (h : ∀ x ∈ xs, item? (f x) = some x) :
    (Json.arr (xs.map f)).list? item? = some xs := by
  have hitems := mapM_map h
  rwa [List.map_id'] at hitems

theorem text?_text (s : String) : (text s).text? = some s := rfl

theorem texts?_texts (ls : List String) : (texts ls).texts? = some ls := list?_map fun s _ => text?_text s

theorem optionalText?_optionalText (s : Option String) : optionalText? (some (optionalText s)) = some s := by
  cases s <;> rfl

theorem below?_nat {limit n : Nat} (h : n < limit) : (nat n).below? limit = some n := if_pos h

theorem member?_object {members : List (String × Json)} {m : String × Json} (h : (members.map Prod.fst).Nodup)
    (hm : m ∈ members) : member? (members.map fun m => (some m.1, m.2)) m.1 = some (some m.2) := by
  obtain ⟨before, after, rfl⟩ := List.append_of_mem hm
  simp only [List.map_append, List.map_cons, List.nodup_append, List.nodup_cons, List.mem_cons] at h
  have hbefore : ∀ b ∈ before, b.1 ≠ m.1 := fun b hb => h.2.2 b.1 (List.mem_map_of_mem hb) m.1 (.inl rfl)
  have hafter : ∀ b ∈ after, b.1 ≠ m.1 := fun b hb hkey => h.2.1.1 (hkey ▸ List.mem_map_of_mem hb)
  have hothers {ms : List (String × Json)} (hms : ∀ b ∈ ms, b.1 ≠ m.1) :
      (ms.map fun m => (some m.1, m.2)).filter (·.1 == some m.1) = [] := by
    refine List.filter_eq_nil_iff.2 fun entry hentry => ?_
    obtain ⟨b, hb, rfl⟩ := List.mem_map.1 hentry
    simpa using hms b hb
  rw [member?, List.map_append, List.map_cons, List.filter_append, hothers hbefore]
  simp [hothers hafter]

theorem fields?_object {members : List (String × Json)} (h : (members.map Prod.fst).Nodup) :
    (object members).fields? (members.map Prod.fst) = some (members.map fun m => some m.2) := by
  have hkeys : (members.map fun m => ((some m.1 : Option String), m.2)).all (·.1.isSome) = true := by simp
  rw [object, fields?, if_pos hkeys]
  exact mapM_map fun m hm => member?_object h hm

end Json

namespace OffsetBlock

def Fits (b : OffsetBlock) : Prop := b.firstLine < Nat.pow 2 64 ∧ b.lastLine < Nat.pow 2 64

theorem ofJson?_toJson {b : OffsetBlock} (h : b.Fits) : ofJson? b.toJson = some b := by
  have hfields : b.toJson.fields? ["wcs_code", "start_line", "end_line", "lines"] = some [some (.text b.code),
      some (.nat b.firstLine), some (.nat b.lastLine), some (.texts b.lines)] := Json.fields?_object (by simp)
  have hfirst : (Json.nat b.firstLine).lineNumber? = some b.firstLine := Json.below?_nat h.1
  have hlast : (Json.nat b.lastLine).lineNumber? = some b.lastLine := Json.below?_nat h.2
  rw [ofJson?, hfields]
  simp only [Json.text?_text, hfirst, hlast, Json.texts?_texts]
  rfl

end OffsetBlock

namespace Operation

structure Fits (op : Operation) : Prop where
  ordinal_lt : op.ordinal < Nat.pow 2 32
  firstLine_lt : op.firstLine < Nat.pow 2 64
  lastLine_lt : op.lastLine < Nat.pow 2 64
  blocks : ∀ b ∈ op.blocks, b.Fits

theorem ofJson?_toJson {op : Operation} (h : op.Fits) : ofJson? op.toJson = some op := by
  have hfields : op.toJson.fields? ["ordinal", "name", "tool_number", "tool_description", "start_line", "end_line",
      "header_lines", "wcs_blocks", "footer_lines", "raw_lines"] = some [some (.nat op.ordinal),
      some (.optionalText op.name), some (.optionalText op.tool), some (.optionalText op.toolDescription),
      some (.nat op.firstLine), some (.nat op.lastLine), some (.texts op.header),
      some (.arr (op.blocks.map OffsetBlock.toJson)), some (.texts op.footer), some (.texts op.source)] :=
    Json.fields?_object (by simp)
  have hordinal : (Json.nat op.ordinal).ordinal? = some op.ordinal := Json.below?_nat h.ordinal_lt
  have hfirst : (Json.nat op.firstLine).lineNumber? = some op.firstLine := Json.below?_nat h.firstLine_lt
  have hlast : (Json.nat op.lastLine).lineNumber? = some op.lastLine := Json.below?_nat h.lastLine_lt
  have hblocks : (Json.arr (op.blocks.map OffsetBlock.toJson)).list? OffsetBlock.ofJson? = some op.blocks :=
    Json.list?_map fun b hb => OffsetBlock.ofJson?_toJson (h.blocks b hb)
  rw [ofJson?, hfields]
  simp only [hordinal, Json.optionalText?_optionalText, hfirst, hlast, Json.texts?_texts, hblocks]
  rfl

end Operation

namespace Program

def Fits (p : Program) : Prop := ∀ op ∈ p.operations, op.Fits

theorem ofJson?_toJson {p : Program} (h : p.Fits) : ofJson? p.toJson = some p := by
  have hfields : p.toJson.fields? ["leading_lines", "operations", "trailing_lines"] = some [some (.texts p.leading),
      some (.arr (p.operations.map Operation.toJson)), some (.texts p.trailing)] := Json.fields?_object (by simp)
  have hoperations : (Json.arr (p.operations.map Operation.toJson)).list? Operation.ofJson? = some p.operations :=
    Json.list?_map fun op hop => Operation.ofJson?_toJson (h op hop)
  rw [ofJson?, hfields]
  simp only [Json.texts?_texts, hoperations]
  rfl

def parse? (text : String) : Option Program := (Json.read? text).bind ofJson?

def printed (p : Program) : String := p.toJson.pretty ++ "\n"

theorem parse?_pretty {p : Program} (h : p.Fits) : parse? p.toJson.pretty = some p := by
  rw [parse?, Json.read?_pretty]
  exact ofJson?_toJson h

theorem parse?_pretty_feed {p : Program} (h : p.Fits) : parse? (p.toJson.pretty ++ "\n") = some p := by
  have hblank : ∀ c ∈ "\n".toList, Json.isBlank c = true := by simp [Json.isBlank]
  rw [parse?, Json.read?_pretty_append _ hblank]
  exact ofJson?_toJson h

end Program

theorem Line.ordinal_lt (line : Line) : line.ordinal < Nat.pow 2 32 := by
  rw [ordinal]
  cases hread : line.number.bind (Text.readBelow? numberLimit) with
  | none => decide
  | some n =>
    obtain ⟨digits, -, hdigits⟩ := Option.bind_eq_some_iff.1 hread
    exact (Text.readBelow?_eq_some_iff.1 hdigits).2.2.2

theorem OffsetBlock.Tile.bounds {first stop : Nat} {bs : List OffsetBlock} (h : Tile first stop bs) :
    first ≤ stop ∧ ∀ b ∈ bs, b.firstLine ≤ b.lastLine ∧ b.lastLine < stop := by
  induction bs generalizing first with
  | nil => exact ⟨Nat.le_of_eq h, List.forall_mem_nil _⟩
  | cons b bs ih =>
    obtain ⟨rfl, hle, -, hrest⟩ := h
    obtain ⟨hstop, hbounds⟩ := ih hrest
    exact ⟨by omega, List.forall_mem_cons.2 ⟨⟨hle, hstop⟩, hbounds⟩⟩

/-- The numbers in a program that was read are small enough, unless the text has far too many lines. -/
theorem fits_segment (o : Options) {text : String} (h : (Text.lines text).length < Nat.pow 2 64) :
    (segment o text).Fits := by
  intro op hop
  have hsegments := segments_segmentLines o (Text.lines text)
  obtain ⟨before, after, hsplit, hspans⟩ := hsegments.exists_split hop
  have hnumbered : op.Numbered (Text.lines text) := hsegments.numbered.operations op hop
  have hlength := congrArg List.length hsplit
  rw [List.length_append, List.length_append] at hlength
  have hpos := hnumbered.length_pos
  have hfirst := hspans.firstLine_eq
  have hlast := hspans.lastLine_eq
  have hfooter := hnumbered.footer_le
  refine ⟨?_, by omega, by omega, fun b hb => ?_⟩
  · rw [hspans.ordinal_eq]
    exact Line.ordinal_lt _
  · obtain ⟨hle, hlt⟩ := hnumbered.blocks_tile.bounds.2 b hb
    exact ⟨by omega, by omega⟩

/-- What is printed of a program is that program to a reader, and so no other program is printed alike. -/
theorem parse?_printed {p : Program} (h : p.Fits) :
    Program.parse? p.printed = some p ∧ Program.parse? p.toJson.pretty = some p ∧
      (∀ q : Program, q.Fits → q.toJson.pretty = p.toJson.pretty → q = p) ∧
      ∀ (r : CommandLine.Request) (text : String), r.switched = true → segment r.options text = p →
        CommandLine.Tool.outline.result r text = p.printed := by
  refine ⟨Program.parse?_pretty_feed h, Program.parse?_pretty h, fun q hq hpretty => ?_, fun r text hswitched hp => ?_⟩
  · have hread := Program.parse?_pretty hq
    rw [hpretty, Program.parse?_pretty h] at hread
    exact (Option.some.inj hread).symm
  · obtain ⟨file, switched, o⟩ := r
    obtain rfl : switched = true := hswitched
    rw [← hp]
    rfl

theorem parse?_printed_controls :
    ∃ p : Program, p =
      { leading := ["%\x00\x1f\t\"\\é🔧", ""]
        operations := [{ ordinal := 4294967295, name := some "", toolDescription := some "null"
                         firstLine := 18446744073709551615, header := ["\n"]
                         blocks := [⟨"G54", 0, 18446744073709551615, []⟩] }] } ∧
      Program.parse? p.printed = some p := by
  refine ⟨_, rfl, (parse?_printed ?_).1⟩
  intro op hop
  obtain rfl := List.mem_singleton.1 hop
  exact ⟨by decide, by decide, by decide, fun b hb => List.mem_singleton.1 hb ▸ ⟨by decide, by decide⟩⟩

theorem parse?_result_outline {r : CommandLine.Request} (hswitched : r.switched = true) {text : String}
    (h : (Text.lines text).length < Nat.pow 2 64) :
    Program.parse? (CommandLine.Tool.outline.result r text) = some (segment r.options text) := by
  obtain ⟨file, switched, o⟩ := r
  obtain rfl : switched = true := hswitched
  exact Program.parse?_pretty_feed (fits_segment o h)

end Machining
