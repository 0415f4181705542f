import Machining.Proofs.JsonSymbols

/-!
Every document is read back from its text. Written inside of other values, a value stands behind an indentation and in
front of a comma or of the next line, and the reader has taken exactly this value when it comes there. What is open around
the value stays as it was.
-/

namespace Machining.Json
open Machining.Text

/-! ### The text of a document -/

def indentation (depth : Nat) : List Char := '\n' :: List.replicate (2 * depth) ' '

mutual

def written (depth : Nat) : Json → List Char
  | .null => "null".toList
  | .bool b => (if b then "true" else "false").toList
  | .nat n => Nat.toDigits 10 n
  | .otherNumber => "-0".toList
  | .str s => quoted s
  | .arr [] => ['[', ']']
  | .arr (v :: vs) =>
    '[' :: (indentation (depth + 1) ++ (written (depth + 1) v ++ (writtenItems (depth + 1) vs ++
      (indentation depth ++ [']']))))
  | .obj [] => ['{', '}']
  | .obj ((k, v) :: ms) =>
    '{' :: (indentation (depth + 1) ++ (quoted k ++ ':' :: ' ' :: (written (depth + 1) v ++
      (writtenMembers (depth + 1) ms ++ (indentation depth ++ ['}'])))))

def writtenItems (depth : Nat) : List Json → List Char
  | [] => []
  | v :: vs => ',' :: (indentation depth ++ (written depth v ++ writtenItems depth vs))

def writtenMembers (depth : Nat) : List (Option String × Json) → List Char
  | [] => []
  | (k, v) :: ms =>
    ',' :: (indentation depth ++ (quoted k ++ ':' :: ' ' :: (written depth v ++ writtenMembers depth ms)))

end

theorem toList_append (out : String) (cs : List Char) : (append out cs).toList = out.toList ++ cs := by
  induction cs generalizing out with
  | nil => simp [append]
  | cons c cs ih =>
    change (append (out.push c) cs).toList = _
    rw [ih]
    simp

theorem toList_newLine (depth : Nat) (out : String) : (newLine depth out).toList = out.toList ++ indentation depth := by
  rw [newLine, toList_pushn, String.toList_push, List.append_assoc]
  rfl

theorem toList_writeKey (key : Option String) (out : String) :
    (writeKey key out).toList = out.toList ++ (quoted key ++ [':', ' ']) := by
  simp [writeKey, toList_append]

mutual

theorem toList_write (depth : Nat) (out : String) (v : Json) :
    (write depth out v).toList = out.toList ++ written depth v := by
  match v with
  | .null | .otherNumber | .arr [] => simp [write, written]
  | .bool b => simp [write, written]
  | .nat n => simp [write, written]
  | .str s => simp [write, written, toList_append]
  | .arr (v :: vs) => simp [write, written, toList_newLine, toList_writeItems, toList_write (depth + 1) _ v]
  | .obj [] => simp [write, written]
  | .obj ((k, v) :: ms) =>
    simp [write, written, toList_newLine, toList_writeKey, toList_writeMembers, toList_write (depth + 1) _ v]

theorem toList_writeItems (depth : Nat) (out : String) (vs : List Json) :
    (writeItems depth out vs).toList = out.toList ++ writtenItems depth vs := by
  match vs with
  | [] => simp [writeItems, writtenItems]
  | v :: vs => simp [writeItems, writtenItems, toList_newLine, toList_write depth _ v, toList_writeItems depth _ vs]

theorem toList_writeMembers (depth : Nat) (out : String) (ms : List (Option String × Json)) :
    (writeMembers depth out ms).toList = out.toList ++ writtenMembers depth ms := by
  match ms with
  | [] => simp [writeMembers, writtenMembers]
  | (k, v) :: ms =>
    simp [writeMembers, writtenMembers, toList_newLine, toList_writeKey, toList_write depth _ v,
      toList_writeMembers depth _ ms]

end

/-! ### Reading it -/

namespace Reader

variable {r : Reader} {frames : List Frame} {cs rest : List Char} {c : Char} {s : Symbol}

def run (r : Reader) (cs : List Char) : Option Reader := (munch symbol cs).foldlM step r

theorem run_of_munch (h : munch symbol cs = s :: munch symbol rest) : r.run cs = (r.step s).bind (·.run rest) := by
  rw [run, h, List.foldlM_cons]
  rfl

theorem run_blank (r : Reader) (hc : isBlank c = true) (rest : List Char) : r.run (c :: rest) = r.run rest :=
  run_of_munch (munch_blank hc rest)

theorem run_indentation (r : Reader) (depth : Nat) (rest : List Char) :
    r.run (indentation depth ++ rest) = r.run rest := by
  have hblanks (n : Nat) : r.run (List.replicate n ' ' ++ rest) = r.run rest := by
    induction n with
    | zero => rfl
    | succ n ih => rw [List.replicate_succ, List.cons_append, run_blank r rfl, ih]
  rw [indentation, List.cons_append, run_blank r rfl, hblanks]

/-- Where the reader stands in front of a value for the innermost of the frames. -/
inductive Awaits : Reader → List Frame → Prop
  | value (frames : List Frame) : Awaits ⟨.value, frames⟩ frames
  | firstItem (frames : List Frame) : Awaits ⟨.firstItem, frames⟩ (.array #[] :: frames)

theorem Awaits.step_scalar (h : Awaits r frames) (v : Json) : r.step (.scalar v) = some (give v frames) := by
  cases h <;> rfl

theorem Awaits.step_array (h : Awaits r frames) : r.step (.mark '[') = some ⟨.firstItem, frames⟩ := by
  cases h <;> rfl

theorem Awaits.step_object (h : Awaits r frames) : r.step (.mark '{') = some ⟨.firstKey, frames⟩ := by
  cases h <;> rfl

theorem Awaits.run_scalar (h : Awaits r frames) {v : Json} (hmunch : munch symbol cs = .scalar v :: munch symbol rest) :
    r.run cs = (give v frames).run rest := by
  rw [run_of_munch hmunch, h.step_scalar]
  rfl

theorem Awaits.run_array (h : Awaits r frames) (rest : List Char) :
    r.run ('[' :: rest) = run ⟨.firstItem, frames⟩ rest := by
  rw [run_of_munch (munch_mark rfl rest), h.step_array]
  rfl

theorem Awaits.run_object (h : Awaits r frames) (rest : List Char) :
    r.run ('{' :: rest) = run ⟨.firstKey, frames⟩ rest := by
  rw [run_of_munch (munch_mark rfl rest), h.step_object]
  rfl

theorem run_itemEnd (items : Array Json) (frames : List Frame) (rest : List Char) :
    run ⟨.itemEnd items, frames⟩ (',' :: rest) = run ⟨.value, .array items :: frames⟩ rest ∧
      run ⟨.itemEnd items, frames⟩ (']' :: rest) = (give (.arr items.toList) frames).run rest :=
  ⟨run_of_munch (munch_mark rfl rest), run_of_munch (munch_mark rfl rest)⟩

theorem run_memberEnd (members : Array (Option String × Json)) (frames : List Frame) (rest : List Char) :
    run ⟨.memberEnd members, frames⟩ (',' :: rest) = run ⟨.key members, frames⟩ rest ∧
      run ⟨.memberEnd members, frames⟩ ('}' :: rest) = (give (.obj members.toList) frames).run rest :=
  ⟨run_of_munch (munch_mark rfl rest), run_of_munch (munch_mark rfl rest)⟩

theorem run_key {members : Array (Option String × Json)}
    (hr : ∀ key, r.step (.scalar (.str key)) = some ⟨.colon members key, frames⟩) (key : Option String)
    (rest : List Char) :
    r.run (quoted key ++ ':' :: ' ' :: rest) = run ⟨.value, .object members key :: frames⟩ rest := by
  rw [run_of_munch (munch_quoted key _), hr]
  exact (run_of_munch (munch_mark rfl (' ' :: rest))).trans (run_blank _ rfl rest)

theorem endsNumber_items (depth depth' : Nat) (vs : List Json) (rest : List Char) :
    ∀ c ∈ (writtenItems depth vs ++ (indentation depth' ++ rest)).head?, endsNumber c = true := by
  cases vs <;> simp [writtenItems, indentation, endsNumber, isBlank, isMark]

theorem endsNumber_members (depth depth' : Nat) (ms : List (Option String × Json)) (rest : List Char) :
    ∀ c ∈ (writtenMembers depth ms ++ (indentation depth' ++ rest)).head?, endsNumber c = true := by
  cases ms <;> simp [writtenMembers, indentation, endsNumber, isBlank, isMark]

-- The induction is on the document. Each part of it is read with the frames of the parts around it, so these vary.
mutual

theorem Awaits.run_written {r : Reader} {frames : List Frame} {rest : List Char} (h : Awaits r frames)
    (hrest : ∀ c ∈ rest.head?, endsNumber c = true) (depth : Nat) (v : Json) :
    r.run (written depth v ++ rest) = (give v frames).run rest := by
  match v with
  | .null => exact h.run_scalar (munch_null rest)
  | .bool b => exact h.run_scalar (munch_bool b rest)
  | .nat n => exact h.run_scalar (munch_nat n hrest)
  | .otherNumber => exact h.run_scalar (munch_otherNumber hrest)
  | .str s => exact h.run_scalar (munch_quoted s rest)
  | .arr [] => exact (h.run_array _).trans (run_of_munch (munch_mark rfl rest))
  | .arr (v :: vs) =>
    have hends := endsNumber_items (depth + 1) depth vs (']' :: rest)
    have hfirst := Awaits.run_written (.firstItem frames) hends (depth + 1) v
    simp only [written, List.cons_append, List.append_assoc, List.nil_append]
    rw [h.run_array, run_indentation, hfirst]
    exact run_items (depth + 1) depth #[v] frames rest vs
  | .obj [] => exact (h.run_object _).trans (run_of_munch (munch_mark rfl rest))
  | .obj ((k, v) :: ms) =>
    have hends := endsNumber_members (depth + 1) depth ms ('}' :: rest)
    have hfirst := Awaits.run_written (.value (.object #[] k :: frames)) hends (depth + 1) v
    simp only [written, List.cons_append, List.append_assoc, List.nil_append]
    rw [h.run_object, run_indentation, run_key fun _ => rfl, hfirst]
    exact run_members (depth + 1) depth #[(k, v)] frames rest ms

theorem run_items (depth depth' : Nat) (items : Array Json) (frames : List Frame) (rest : List Char) (vs : List Json) :
    run ⟨.itemEnd items, frames⟩ (writtenItems depth vs ++ (indentation depth' ++ ']' :: rest)) =
      (give (.arr (items.toList ++ vs)) frames).run rest := by
  match vs with
  | [] =>
    rw [writtenItems, List.nil_append, run_indentation, (run_itemEnd items frames rest).2, List.append_nil]
  | v :: vs =>
    have hends := endsNumber_items depth depth' vs (']' :: rest)
    have hnext := Awaits.run_written (.value (.array items :: frames)) hends depth v
    simp only [writtenItems, List.cons_append, List.append_assoc]
    rw [(run_itemEnd items frames _).1, run_indentation, hnext]
    have hitems := run_items depth depth' (items.push v) frames rest vs
    rwa [Array.toList_push, List.append_assoc] at hitems

theorem run_members (depth depth' : Nat) (members : Array (Option String × Json)) (frames : List Frame)
    (rest : List Char) (ms : List (Option String × Json)) :
    run ⟨.memberEnd members, frames⟩ (writtenMembers depth ms ++ (indentation depth' ++ '}' :: rest)) =
      (give (.obj (members.toList ++ ms)) frames).run rest := by
  match ms with
  | [] =>
    rw [writtenMembers, List.nil_append, run_indentation, (run_memberEnd members frames rest).2, List.append_nil]
  | (k, v) :: ms =>
    have hends := endsNumber_members depth depth' ms ('}' :: rest)
    have hnext := Awaits.run_written (.value (.object members k :: frames)) hends depth v
    simp only [writtenMembers, List.cons_append, List.append_assoc]
    rw [(run_memberEnd members frames _).1, run_indentation, run_key fun _ => rfl, hnext]
    have hmembers := run_members depth depth' (members.push (k, v)) frames rest ms
    rwa [Array.toList_push, List.append_assoc] at hmembers

end

theorem run_blanks (r : Reader) (h : ∀ c ∈ cs, isBlank c = true) : r.run cs = some r := by
  induction cs with
  | nil => rfl
  | cons c cs ih =>
    obtain ⟨hc, hcs⟩ := List.forall_mem_cons.1 h
    rw [run_blank r hc, ih hcs]

end Reader

theorem toList_pretty (v : Json) : v.pretty.toList = written 0 v := by
  rw [pretty, toList_write]
  simp

theorem read?_pretty_append (v : Json) {tail : String} (h : ∀ c ∈ tail.toList, isBlank c = true) :
    read? (v.pretty ++ tail) = some v := by
  have hends : ∀ c ∈ tail.toList.head?, endsNumber c = true := by
    intro c hc
    rw [endsNumber, h c (List.mem_of_head? hc), Bool.true_or]
  have hawaits : Reader.Awaits .start [] := .value []
  have hrun : Reader.start.run (v.pretty ++ tail).toList = some (Reader.give v []) := by
    rw [String.toList_append, toList_pretty, hawaits.run_written hends, Reader.run_blanks _ h]
  change (Reader.start.run (v.pretty ++ tail).toList).bind Reader.result? = some v
  rw [hrun]
  rfl

theorem read?_pretty (v : Json) : read? v.pretty = some v := by
  have hread : read? (v.pretty ++ "") = some v := v.read?_pretty_append (by simp)
  rwa [String.append_empty] at hread

end Machining.Json
