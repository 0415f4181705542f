import Machining.Proofs.Sentinel

/-!
Where the heading of an operation comes from. It depends on the lines of the operation alone, also if closing lines have
been cut off behind them. The tool is that of the last line with a tool comment; if there is none, that of the first
line with a tool word. The name is that of the last line that gives one. On a line the first comment or word counts.
-/

namespace Machining
open Machining.Text

section Choices

variable {α β : Type} {r : α → β → Prop} {f : α → Option β} {l : List α} {o : Option β}

/-- What the first element gives that gives anything. -/
def IsFirst (r : α → β → Prop) (l : List α) : Option β → Prop
  | none => ∀ x ∈ l, ∀ y, ¬r x y
  | some y => ∃ before x after, l = before ++ x :: after ∧ r x y ∧ ∀ b ∈ before, ∀ z, ¬r b z

def IsLast (r : α → β → Prop) (l : List α) : Option β → Prop
  | none => ∀ x ∈ l, ∀ y, ¬r x y
  | some y => ∃ before x after, l = before ++ x :: after ∧ r x y ∧ ∀ a ∈ after, ∀ z, ¬r a z

theorem isLast_iff_isFirst_reverse : IsLast r l o ↔ IsFirst r l.reverse o := by
  cases o with
  | none => simp [IsLast, IsFirst]
  | some y =>
    constructor
    · rintro ⟨before, x, after, rfl, hx, hafter⟩
      exact ⟨after.reverse, x, before.reverse, by simp, hx, by simpa using hafter⟩
    · rintro ⟨before, x, after, hl, hx, hbefore⟩
      refine ⟨after.reverse, x, before.reverse, ?_, hx, by simpa using hbefore⟩
      rw [← List.reverse_reverse l, hl]
      simp

theorem isFirst_iff (hf : ∀ x y, f x = some y ↔ r x y) : IsFirst r l o ↔ l.findSome? f = o := by
  have hnone (x : α) : f x = none ↔ ∀ y, ¬r x y := by
    simp only [← hf, Option.eq_none_iff_forall_ne_some, ne_eq]
  cases o with
  | none => simp only [IsFirst, List.findSome?_eq_none_iff, hnone]
  | some y => simp only [IsFirst, List.findSome?_eq_some_iff, hnone, hf]

theorem isLast_iff (hf : ∀ x y, f x = some y ↔ r x y) : IsLast r l o ↔ l.reverse.findSome? f = o := by
  rw [isLast_iff_isFirst_reverse, isFirst_iff hf]

theorem isLast_concat {x : α} {y : β} (h : r x y) : IsLast r (l ++ [x]) (some y) := ⟨l, x, [], rfl, h, by simp⟩

theorem IsLast.concat {x : α} (h : IsLast r l o) (hx : ∀ y, ¬r x y) : IsLast r (l ++ [x]) o := by
  cases o with
  | none => exact List.forall_mem_append.2 ⟨h, List.forall_mem_singleton.2 hx⟩
  | some y =>
    obtain ⟨before, z, after, rfl, hz, hafter⟩ := h
    refine ⟨before, z, after ++ [x], by simp, hz, ?_⟩
    exact List.forall_mem_append.2 ⟨hafter, List.forall_mem_singleton.2 hx⟩

end Choices

namespace Text

def IsTrimmed (text core : List Char) : Prop :=
  ∃ before after, text = before ++ core ++ after ∧ (∀ c ∈ before, isWhiteSpace c = true) ∧
    (∀ c ∈ after, isWhiteSpace c = true) ∧ (∀ c ∈ core.head?, isWhiteSpace c = false) ∧
    ∀ c ∈ core.getLast?, isWhiteSpace c = false

theorem trim_append {before core after : List Char} (hbefore : ∀ c ∈ before, isWhiteSpace c = true)
    (hafter : ∀ c ∈ after, isWhiteSpace c = true) (hhead : ∀ c ∈ core.head?, isWhiteSpace c = false)
    (hlast : ∀ c ∈ core.getLast?, isWhiteSpace c = false) : trim (before ++ core ++ after) = core := by
  cases core with
  | nil =>
    have hall : ∀ c ∈ before ++ after, isWhiteSpace c = true := List.forall_mem_append.2 ⟨hbefore, hafter⟩
    rw [List.append_nil, trim, List.dropWhile_eq_nil_iff.2 hall]
    rfl
  | cons d core =>
    have hstop : ∀ c ∈ ((d :: core).reverse).head?, isWhiteSpace c = false := by rwa [List.head?_reverse]
    have hfront : (before ++ (d :: core ++ after)).dropWhile isWhiteSpace = d :: core ++ after :=
      dropWhile_append_stop hbefore hhead
    have hrear : (after.reverse ++ (d :: core).reverse).dropWhile isWhiteSpace = (d :: core).reverse :=
      dropWhile_append_stop (fun c hc => hafter c (List.mem_reverse.1 hc)) hstop
    rw [trim, List.append_assoc, hfront, dropEndWhile, List.reverse_append, hrear, List.reverse_reverse]

theorem isTrimmed_trim (text : List Char) : IsTrimmed text (trim text) := by
  obtain ⟨before, rest, rfl, hbefore, hrest⟩ := exists_cut isWhiteSpace text
  obtain ⟨after, core, hcut, hafter, hcore⟩ := exists_cut isWhiteSpace rest.reverse
  have hsplit : rest = core.reverse ++ after.reverse := by
    rw [← List.reverse_reverse rest, ← hcut, List.reverse_append]
  have hafter : ∀ c ∈ after.reverse, isWhiteSpace c = true := fun c hc => hafter c (List.mem_reverse.1 hc)
  have hlast : ∀ c ∈ core.reverse.getLast?, isWhiteSpace c = false := by rwa [List.getLast?_reverse]
  have hhead : ∀ c ∈ core.reverse.head?, isWhiteSpace c = false := by
    intro c hc
    apply hrest
    rw [hsplit, List.head?_append, hc]
    rfl
  rw [hsplit, ← List.append_assoc, trim_append hbefore hafter hhead hlast]
  exact ⟨before, after.reverse, rfl, hbefore, hafter, hhead, hlast⟩

theorem trim_eq_iff {text core : List Char} : trim text = core ↔ IsTrimmed text core := by
  constructor
  · rintro rfl
    exact isTrimmed_trim text
  · rintro ⟨before, after, rfl, hbefore, hafter, hhead, hlast⟩
    exact trim_append hbefore hafter hhead hlast

end Text

theorem mentions_iff {key cs : List Char} : mentions key cs = true ↔ key <:+: cs := by
  induction cs with
  | nil => simp [mentions]
  | cons c cs ih => simp [mentions, ih, List.infix_cons_iff]

def Token.DescribesTool (t : Token) (found : String × String) : Prop :=
  ∃ digits description, t = .toolComment digits description ∧
    found = ("T" ++ String.ofList digits, String.ofList description)

def Word.SelectsTool (w : Word) (tool : String) : Prop :=
  ∃ digits, w = ⟨'T', digits⟩ ∧ digits ≠ [] ∧ allDigits digits = true ∧ Text.value digits < 2 ^ 32 ∧
    tool = "T" ++ String.ofList digits

def NamesOperation (comment : List Char) (name : String) : Prop :=
  (∃ word, word <:+: comment ∧ word.map Char.toUpper = "OPERATION".toList) ∧
    ∃ front rest, comment = front ++ ':' :: rest ∧ ':' ∉ front ∧ IsTrimmed rest name.toList ∧ name ≠ ""

theorem tool?_eq_some_iff (w : Word) (tool : String) : w.tool? = some tool ↔ w.SelectsTool tool := by
  have hnatural : w.natural?.isSome = true ↔ w.value ≠ [] ∧ allDigits w.value = true ∧ value w.value < 2 ^ 32 := by
    simp [Option.isSome_iff_exists, Word.natural?, readBelow?_eq_some_iff, numberLimit]
  obtain ⟨letter, digits⟩ := w
  simp only [Word.tool?, Word.SelectsTool, hnatural, Word.mk.injEq, Option.ite_none_right_eq_some, Option.some.injEq]
  constructor
  · rintro ⟨⟨rfl, hne, hdigits, hlt⟩, rfl⟩
    exact ⟨digits, ⟨rfl, rfl⟩, hne, hdigits, hlt, rfl⟩
  · rintro ⟨_, ⟨rfl, rfl⟩, hne, hdigits, hlt, rfl⟩
    exact ⟨⟨rfl, hne, hdigits, hlt⟩, rfl⟩

theorem drop_dropWhile_colon {front rest : List Char} (hfront : ':' ∉ front) :
    ((front ++ ':' :: rest).dropWhile (· != ':')).drop 1 = rest := by
  have hplain : ∀ c ∈ front, (c != ':') = true := fun c hc => bne_iff_ne.2 fun h => hfront (h ▸ hc)
  rw [dropWhile_append_stop hplain (by simp)]
  rfl

theorem nameIn?_eq_some_iff (comment : List Char) (name : String) :
    nameIn? comment = some name ↔ NamesOperation comment name := by
  have hmentions : (∃ word, word <:+: comment ∧ word.map Char.toUpper = "OPERATION".toList) ↔
      mentions "OPERATION".toList (comment.map Char.toUpper) = true := by
    rw [mentions_iff, List.infix_map_iff]
    exact exists_congr fun word => and_congr_right fun _ => eq_comm
  simp only [nameIn?, NamesOperation, hmentions, Option.ite_none_right_eq_some, Option.some.injEq, and_assoc]
  refine and_congr_right fun _ => ?_
  constructor
  · rintro ⟨hne, rfl⟩
    obtain ⟨front, rear, rfl, hfront, hrear⟩ := exists_cut (· != ':') comment
    have hcolon : ':' ∉ front := fun hmem => by simpa using hfront ':' hmem
    cases rear with
    | nil =>
      have hnil : (front ++ []).dropWhile (· != ':') = [] := by
        rw [List.append_nil]
        exact List.dropWhile_eq_nil_iff.2 hfront
      rw [hnil] at hne
      exact absurd rfl hne
    | cons c rest =>
      obtain rfl : c = ':' := by simpa using hrear c rfl
      rw [drop_dropWhile_colon hcolon] at hne ⊢
      refine ⟨front, rest, rfl, hcolon, ?_, by simpa using hne⟩
      rw [String.toList_ofList]
      exact isTrimmed_trim rest
  · rintro ⟨front, rest, rfl, hcolon, htrimmed, hne⟩
    rw [drop_dropWhile_colon hcolon, trim_eq_iff.2 htrimmed]
    exact ⟨by simpa using hne, String.ofList_toList⟩

namespace Line

variable {line : Line}

theorem isFirst_toolRemark {o : Option (String × String)} :
    IsFirst Token.DescribesTool line.tokens o ↔ line.toolRemark? = o := by
  refine isFirst_iff fun t found => ?_
  cases t <;> simp [Token.DescribesTool, eq_comm]

theorem isFirst_toolWord {o : Option String} : IsFirst Word.SelectsTool line.words o ↔ line.toolWord? = o :=
  isFirst_iff tool?_eq_some_iff

theorem isFirst_operationName {o : Option String} : IsFirst NamesOperation line.comments o ↔ line.operationName? = o :=
  isFirst_iff nameIn?_eq_some_iff

def Describes (text : String) (found : String × String) : Prop :=
  IsFirst Token.DescribesTool (read text).tokens (some found)

def Selects (text tool : String) : Prop := IsFirst Word.SelectsTool (read text).words (some tool)

def Names (text name : String) : Prop := IsFirst NamesOperation (read text).comments (some name)

end Line

namespace Heading

theorem ofLines_concat (ls : List String) (text : String) :
    ofLines (ls ++ [text]) = (ofLines ls).add (Line.read text) := by
  rw [ofLines, List.foldl_append, ← ofLines]
  rfl

theorem name_addTool (h : Heading) (line : Line) : (h.addTool line).name = h.name := by
  unfold addTool
  split
  · rfl
  · split <;> rfl

theorem tool_addTool (h : Heading) (line : Line) :
    (h.addTool line).tool = (line.toolRemark?.map Prod.fst).or (h.tool.or line.toolWord?) := by
  unfold addTool
  cases line.toolRemark? with
  | some found => rfl
  | none => cases htool : h.tool <;> simp [htool]

theorem toolDescription_addTool (h : Heading) (line : Line) :
    (h.addTool line).toolDescription = (line.toolRemark?.map Prod.snd).or h.toolDescription := by
  unfold addTool
  cases line.toolRemark? with
  | some found => rfl
  | none => cases h.tool <;> rfl

theorem add_eq (h : Heading) (line : Line) :
    h.add line = { h.addTool line with name := line.operationName?.or h.name } := by
  rw [add, addName, ← name_addTool h line]
  cases line.operationName? <;> rfl

def toolRemark? (ls : List String) : Option (String × String) := ls.reverse.findSome? (Line.read · |>.toolRemark?)

theorem toolRemark?_concat (ls : List String) (text : String) :
    toolRemark? (ls ++ [text]) = (Line.read text).toolRemark?.or (toolRemark? ls) := by
  rw [toolRemark?, toolRemark?, List.reverse_concat, List.findSome?_cons]
  cases (Line.read text).toolRemark? <;> rfl

-- The lines are read from the first on, so these inductions take off the last one.

theorem name_ofLines (ls : List String) :
    (ofLines ls).name = ls.reverse.findSome? (Line.read · |>.operationName?) := by
  induction ls using List.reverseRecOn with
  | nil => rfl
  | append_singleton ls text ih =>
    rw [ofLines_concat, add_eq, ih, List.reverse_concat, List.findSome?_cons]
    cases (Line.read text).operationName? <;> rfl

theorem toolDescription_ofLines (ls : List String) : (ofLines ls).toolDescription = (toolRemark? ls).map Prod.snd := by
  induction ls using List.reverseRecOn with
  | nil => rfl
  | append_singleton ls text ih =>
    rw [ofLines_concat, add_eq, toolDescription_addTool, ih, toolRemark?_concat]
    cases (Line.read text).toolRemark? <;> rfl

theorem tool_ofLines (ls : List String) :
    (ofLines ls).tool = ((toolRemark? ls).map Prod.fst).or (ls.findSome? (Line.read · |>.toolWord?)) := by
  induction ls using List.reverseRecOn with
  | nil => rfl
  | append_singleton ls text ih =>
    rw [ofLines_concat, add_eq, tool_addTool, ih, toolRemark?_concat, List.findSome?_append, List.findSome?_singleton,
      Option.or_assoc]
    cases (Line.read text).toolRemark? <;> rfl

end Heading

namespace Operation

variable {op : Operation}

def heading (op : Operation) : Heading := ⟨op.name, op.tool, op.toolDescription⟩

theorem heading_ofLines (first : Nat) (ls : List String) : (ofLines first ls).heading = Heading.ofLines ls := rfl

theorem heading_classify (op : Operation) : op.classify.heading = op.heading := rfl

theorem heading_of_mem_chain {first : Nat} {gs : List (List String)} (hop : op ∈ chain first gs) :
    op.heading = Heading.ofLines op.source := by
  induction gs generalizing first with
  | nil => exact absurd hop List.not_mem_nil
  | cons g gs ih =>
    rw [chain_cons] at hop
    rcases List.mem_cons.1 hop with rfl | hop
    · exact heading_ofLines first g
    · exact ih hop

end Operation

theorem isIdle_of_mem_trailingLines (rule : TrailingRule) (gs : List (List String)) (g : List String) :
    ∀ l ∈ trailingLines rule (gs ++ [g]), isIdle l = true := by
  cases rule with
  | keep => exact List.forall_mem_nil _
  | sentinel =>
    rw [trailingLines_sentinel]
    exact (closingEnd_closingLines g).idle

/-- The heading is read before the closing lines are cut off, but they say nothing. -/
theorem heading_segmentLines {o : Options} {ls : List String} {op : Operation}
    (hop : op ∈ (segmentLines o ls).operations) : op.heading = Heading.ofLines op.source := by
  obtain ⟨lead, gs, hlead, hgs, rfl⟩ := exists_runs (opensOperation o.boundary) ls
  rcases List.eq_nil_or_concat' gs with rfl | ⟨gs, g, rfl⟩
  · rw [List.flatten_nil, List.append_nil, segmentLines_leading hlead] at hop
    exact absurd hop List.not_mem_nil
  · have hrun : IsRun (opensOperation o.boundary) g := hgs g (by simp)
    have hidle := isIdle_of_mem_trailingLines o.trailing gs g
    obtain ⟨hbody, hsource, -⟩ := hrun.cut (trailingLines_suffix o.trailing gs g)
    rw [segmentLines_append hlead hgs] at hop
    rcases List.mem_append.1 hop with hop | hop
    · obtain ⟨op, hmem, rfl⟩ := List.mem_map.1 hop
      rw [Operation.heading_classify]
      exact Operation.heading_of_mem_chain hmem
    · rw [List.mem_singleton.1 hop]
      generalize trailingLines o.trailing (gs ++ [g]) = closing at hbody hsource hidle
      generalize g.take (g.length - closing.length) = body at hbody hsource
      rw [← hsource, Operation.dropEnd_ofLines _ hbody.ne_nil hidle]
      rfl

theorem Heading.isLast_toolRemark {ls : List String} {o : Option (String × String)} :
    IsLast Line.Describes ls o ↔ toolRemark? ls = o :=
  isLast_iff fun _ _ => Line.isFirst_toolRemark.symm

/-- What an operation of a program is called and which tool it has follows from its own lines. -/
theorem heading_segment {o : Options} {text : String} {op : Operation} (hop : op ∈ (segment o text).operations) :
    op.heading = Heading.ofLines op.source ∧ IsLast Line.Names op.source op.name ∧
    ((∃ tool description, IsLast Line.Describes op.source (some (tool, description)) ∧
        op.tool = some tool ∧ op.toolDescription = some description) ∨
      (IsLast Line.Describes op.source none ∧
        IsFirst Line.Selects op.source op.tool ∧ op.toolDescription = none)) := by
  have hheading : op.heading = Heading.ofLines op.source := heading_segmentLines hop
  have hname : op.name = _ := (congrArg Heading.name hheading).trans (Heading.name_ofLines op.source)
  have htool : op.tool = _ := (congrArg Heading.tool hheading).trans (Heading.tool_ofLines op.source)
  have hdescription : op.toolDescription = _ :=
    (congrArg Heading.toolDescription hheading).trans (Heading.toolDescription_ofLines op.source)
  refine ⟨hheading, ?_, ?_⟩
  · exact (isLast_iff fun _ _ => Line.isFirst_operationName.symm).2 hname.symm
  · cases hremark : Heading.toolRemark? op.source with
    | some found =>
      rw [hremark] at htool hdescription
      exact .inl ⟨found.1, found.2, Heading.isLast_toolRemark.2 hremark, htool, hdescription⟩
    | none =>
      rw [hremark] at htool hdescription
      have hfirst : IsFirst Line.Selects op.source op.tool :=
        (isFirst_iff fun _ _ => Line.isFirst_toolWord.symm).2 htool.symm
      exact .inr ⟨Heading.isLast_toolRemark.2 hremark, hfirst, hdescription⟩

theorem heading_segment_sentinel :
    (∃ op ∈ (segment {} "N1 T4999999999 T07 (Operation 1 : A:B )\nT8").operations,
      op.heading = ⟨some "A:B", some "T07", none⟩ ∧ IsLast Line.Names op.source (some "A:B") ∧
        IsLast Line.Describes op.source none ∧ IsFirst Line.Selects op.source (some "T07")) ∧
    ∃ op ∈ (segment ⟨.annotated, .sentinel⟩ "N2 T3 (TOOL 4: TAP)\n(tool 9:FACE)(TOOL 5:)\nT6\n%\n").operations,
      op.heading = ⟨none, some "T9", some "FACE"⟩ ∧ IsLast Line.Names op.source none ∧
        IsLast Line.Describes op.source (some ("T9", "FACE")) := by
  have hwords : ∃ op ∈ (segment {} "N1 T4999999999 T07 (Operation 1 : A:B )\nT8").operations,
      op.heading = ⟨some "A:B", some "T07", none⟩ := by decide
  have hcomments : ∃ op ∈ (segment ⟨.annotated, .sentinel⟩
      "N2 T3 (TOOL 4: TAP)\n(tool 9:FACE)(TOOL 5:)\nT6\n%\n").operations,
      op.heading = ⟨none, some "T9", some "FACE"⟩ := by decide
  constructor
  · obtain ⟨op, hop, hheading⟩ := hwords
    obtain ⟨hname, htool, hdescription⟩ := Heading.mk.inj hheading
    obtain ⟨-, hnames, htools⟩ := heading_segment hop
    rw [hname] at hnames
    rw [htool, hdescription] at htools
    rcases htools with ⟨_, _, -, -, hsome⟩ | ⟨hnone, hfirst, -⟩
    · exact absurd hsome (by simp)
    · exact ⟨op, hop, hheading, hnames, hnone, hfirst⟩
  · obtain ⟨op, hop, hheading⟩ := hcomments
    obtain ⟨hname, htool, hdescription⟩ := Heading.mk.inj hheading
    obtain ⟨-, hnames, htools⟩ := heading_segment hop
    rw [hname] at hnames
    rw [htool, hdescription] at htools
    rcases htools with ⟨_, _, hlast, hnumber, hsome⟩ | ⟨-, -, hnone⟩
    · cases hnumber
      cases hsome
      exact ⟨op, hop, hheading, hnames, hlast⟩
    · exact absurd hnone (by simp)

end Machining
