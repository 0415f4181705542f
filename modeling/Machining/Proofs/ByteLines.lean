import Machining.Proofs.LineEnds

/-!
Cutting a text into lines by the positions of its bytes. A slice is only taken between boundaries of characters, so the
cut could fail on a text with characters of more than one byte. It never does: no byte of such a character is a carriage
return or a line feed, and every line lies between boundaries.
-/

namespace Machining.Text

/-- The part of the text from byte `start` to byte `stop`; none unless both are boundaries of characters. -/
def slice? (text : String) (start stop : Nat) : Option String :=
  if h : (String.Pos.Raw.mk start).IsValid text ∧ (String.Pos.Raw.mk stop).IsValid text ∧ start ≤ stop then
    some (text.extract ⟨⟨start⟩, h.1⟩ ⟨⟨stop⟩, h.2.1⟩)
  else none

def cutFrom? (text : String) (done : Array String) (start i : Nat) : List UInt8 → Option (Array String)
  | [] => do return done.push (← slice? text start text.utf8ByteSize)
  | 0x0D :: 0x0A :: rest => do cutFrom? text (done.push (← slice? text start i)) (i + 2) (i + 2) rest
  | b :: rest =>
    if b = 0x0A ∨ b = 0x0D then do cutFrom? text (done.push (← slice? text start i)) (i + 1) (i + 1) rest
    else cutFrom? text done start (i + 1) rest

def cutLines? (text : String) : Option (List String) :=
  if text = "" then some [] else (cutFrom? text #[] 0 0 text.toByteArray.data.toList).map Array.toList

theorem extract_toByteArray_append (front line rear : String) :
    (front ++ line ++ rear).toByteArray.extract front.utf8ByteSize (front ++ line).utf8ByteSize = line.toByteArray := by
  have hshift := ByteArray.extract_append_size_add (a := front.toByteArray) (b := (line ++ rear).toByteArray) (i := 0)
    (j := line.utf8ByteSize)
  rw [String.append_assoc, String.toByteArray_append, String.utf8ByteSize_append]
  exact hshift.trans (ByteArray.extract_append_eq_left rfl)

theorem slice?_append (front line rear : String) :
    slice? (front ++ line ++ rear) front.utf8ByteSize (front ++ line).utf8ByteSize = some line := by
  have hstart : (String.Pos.Raw.mk front.utf8ByteSize).IsValid (front ++ line ++ rear) :=
    String.Pos.Raw.isValid_iff_exists_append.2 ⟨front, line ++ rear, String.append_assoc, rfl⟩
  have hstop : (String.Pos.Raw.mk (front ++ line).utf8ByteSize).IsValid (front ++ line ++ rear) :=
    String.Pos.Raw.isValid_iff_exists_append.2 ⟨front ++ line, rear, rfl, rfl⟩
  have hle : front.utf8ByteSize ≤ (front ++ line).utf8ByteSize := by simp
  rw [slice?, dif_pos ⟨hstart, hstop, hle⟩, Option.some.injEq, ← String.toByteArray_inj, String.toByteArray_extract]
  exact extract_toByteArray_append front line rear

theorem bytes_ofList (cs : List Char) :
    (String.ofList cs).toByteArray.data.toList = cs.flatMap String.utf8EncodeChar := by
  rw [String.toByteArray_ofList, List.utf8Encode, List.toList_data_toByteArray]

section Encoding

variable {c d : Char}

theorem high_or (x : UInt8) {y : UInt8} (h : 128 ≤ y.toNat) : 128 ≤ (x ||| y).toNat := by
  rw [UInt8.toNat_or]
  exact Nat.le_trans h Nat.right_le_or

theorem utf8EncodeChar_cases (c : Char) :
    (c.toNat < 128 ∧ String.utf8EncodeChar c = [c.val.toUInt8]) ∨ ∀ b ∈ String.utf8EncodeChar c, 128 ≤ b.toNat := by
  rcases Char.utf8Size_eq c with h | h | h | h
  · have hle := UInt32.le_iff_toNat_le.1 (Char.utf8Size_eq_one_iff.1 h)
    exact .inl ⟨Nat.lt_succ_of_le hle, String.utf8EncodeChar_eq_singleton h⟩
  all_goals right
  · rw [String.utf8EncodeChar_eq_cons_cons h]
    simp only [List.forall_mem_cons]
    exact ⟨high_or _ (by decide), high_or _ (by decide), List.forall_mem_nil _⟩
  · rw [String.utf8EncodeChar_eq_cons_cons_cons h]
    simp only [List.forall_mem_cons]
    exact ⟨high_or _ (by decide), high_or _ (by decide), high_or _ (by decide), List.forall_mem_nil _⟩
  · rw [String.utf8EncodeChar_eq_cons_cons_cons_cons h]
    simp only [List.forall_mem_cons]
    exact ⟨high_or _ (by decide), high_or _ (by decide), high_or _ (by decide), high_or _ (by decide),
      List.forall_mem_nil _⟩

theorem toNat_byte (hc : c.toNat < 128) : c.val.toUInt8.toNat = c.toNat := by
  rw [UInt32.toNat_toUInt8]
  exact Nat.mod_eq_of_lt (Nat.lt_trans hc (by decide))

theorem eq_of_mem_utf8EncodeChar (hd : d.toNat < 128) (h : d.val.toUInt8 ∈ String.utf8EncodeChar c) : c = d := by
  rcases utf8EncodeChar_cases c with ⟨hc, hsingle⟩ | hhigh
  · rw [hsingle, List.mem_singleton] at h
    exact Char.toNat_inj.1 (by rw [← toNat_byte hc, ← h, toNat_byte hd])
  · have hlow := toNat_byte hd
    have hge := hhigh _ h
    omega

end Encoding

theorem exists_feed_of_bytes {cs : List Char} {rest : List UInt8}
    (h : cs.flatMap String.utf8EncodeChar = 0x0A :: rest) : ∃ more, cs = '\n' :: more := by
  cases cs with
  | nil => exact absurd h.symm (List.cons_ne_nil _ _)
  | cons c cs =>
    obtain ⟨b, bs, hbs⟩ := List.exists_cons_of_ne_nil (String.utf8EncodeChar_ne_nil (c := c))
    rw [List.flatMap_cons, hbs] at h
    have hmem : '\n'.val.toUInt8 ∈ String.utf8EncodeChar c := by
      rw [hbs, (List.cons.inj h).1]
      exact List.mem_cons_self
    exact ⟨cs, by rw [eq_of_mem_utf8EncodeChar (by decide) hmem]⟩

/-- Byte `i` of the text is the first one of the characters left, and byte `start` the first one of the line begun,
which is held backwards. -/
def Cuts (text : String) (start i : Nat) (begun cs : List Char) : Prop :=
  ∃ front, text = front ++ String.ofList begun.reverse ++ String.ofList cs ∧ start = front.utf8ByteSize ∧
    i = (front ++ String.ofList begun.reverse).utf8ByteSize

section Cutting

variable {text : String} {done : Array String} {start i : Nat} {begun cs : List Char} {c : Char}

theorem cuts_start (text : String) : Cuts text 0 0 [] text.toList := ⟨"", by simp, rfl, rfl⟩

theorem Cuts.slice (h : Cuts text start i begun cs) : slice? text start i = some (String.ofList begun.reverse) := by
  obtain ⟨front, rfl, rfl, rfl⟩ := h
  exact slice?_append front (String.ofList begun.reverse) (String.ofList cs)

theorem Cuts.stop (h : Cuts text start i begun []) : i = text.utf8ByteSize := by
  obtain ⟨front, rfl, -, rfl⟩ := h
  simp

theorem Cuts.read (h : Cuts text start i begun (c :: cs)) : Cuts text start (i + c.utf8Size) (c :: begun) cs := by
  obtain ⟨front, rfl, rfl, rfl⟩ := h
  refine ⟨front, ?_, rfl, ?_⟩
  · rw [List.reverse_cons, ← List.singleton_append, String.ofList_append, String.ofList_append]
    simp only [String.append_assoc]
  · simp [Nat.add_assoc]

theorem Cuts.close (h : Cuts text start i begun cs) : Cuts text i i [] cs := by
  obtain ⟨front, rfl, -, rfl⟩ := h
  exact ⟨front ++ String.ofList begun.reverse, by simp, rfl, by simp⟩

theorem cutFrom?_append {plain : List UInt8} (h : ∀ b ∈ plain, b ≠ 0x0A ∧ b ≠ 0x0D) (rest : List UInt8) :
    cutFrom? text done start i (plain ++ rest) = cutFrom? text done start (i + plain.length) rest := by
  induction plain generalizing i with
  | nil => rfl
  | cons b plain ih =>
    obtain ⟨hb, hplain⟩ := List.forall_mem_cons.1 h
    rw [List.cons_append, cutFrom?.eq_3 _ _ _ _ _ _ fun _ hr => absurd hr hb.2, if_neg (not_or.2 hb), ih hplain,
      List.length_cons, Nat.add_assoc, Nat.add_comm 1]

theorem cutFrom?_eq (h : Cuts text start i begun cs) :
    cutFrom? text done start i (cs.flatMap String.utf8EncodeChar) = some (linesFrom done begun cs) := by
  fun_induction linesFrom done begun cs generalizing start i with
  | case1 done begun =>
    rw [List.flatMap_nil, cutFrom?, ← h.stop, h.slice]
    rfl
  | case2 done begun rest ih =>
    have hbytes : ('\r' :: '\n' :: rest).flatMap String.utf8EncodeChar =
        0x0D :: 0x0A :: rest.flatMap String.utf8EncodeChar := rfl
    rw [hbytes, cutFrom?, h.slice]
    exact ih h.read.read.close
  | case3 done begun c rest hne hc ih =>
    obtain ⟨b, hbytes, hb, hreturn⟩ : ∃ b, String.utf8EncodeChar c = [b] ∧ (b = 0x0A ∨ b = 0x0D) ∧
        (b = 0x0D → c = '\r') := by
      rcases hc with rfl | rfl
      · exact ⟨0x0A, rfl, .inl rfl, by decide⟩
      · exact ⟨0x0D, rfl, .inr rfl, fun _ => rfl⟩
    have hpair : ∀ tail, b = 0x0D → rest.flatMap String.utf8EncodeChar = 0x0A :: tail → False := by
      intro tail hb hfeed
      obtain ⟨more, rfl⟩ := exists_feed_of_bytes hfeed
      exact hne more (hreturn hb) rfl
    have hread : Cuts text start (i + 1) (c :: begun) rest := by
      have hsize : c.utf8Size = 1 := by
        rw [← String.length_utf8EncodeChar, hbytes, List.length_singleton]
      rw [← hsize]
      exact h.read
    rw [List.flatMap_cons, hbytes, List.singleton_append, cutFrom?.eq_3 _ _ _ _ _ _ hpair, if_pos hb, h.slice]
    exact ih hread.close
  | case4 done begun c rest hne hc ih =>
    have hplain : ∀ b ∈ String.utf8EncodeChar c, b ≠ 0x0A ∧ b ≠ 0x0D := by
      intro b hb
      constructor
      · rintro rfl
        exact hc (.inl (eq_of_mem_utf8EncodeChar (d := '\n') (by decide) hb))
      · rintro rfl
        exact hc (.inr (eq_of_mem_utf8EncodeChar (d := '\r') (by decide) hb))
    rw [List.flatMap_cons, cutFrom?_append hplain, String.length_utf8EncodeChar]
    exact ih h.read

end Cutting

theorem cutLines?_eq (text : String) : cutLines? text = some (lines text) := by
  unfold cutLines?
  split
  · next h =>
    subst h
    rfl
  · next h =>
    have hcut : cutFrom? text #[] 0 0 _ = _ := cutFrom?_eq (cuts_start text)
    rw [← bytes_ofList, String.ofList_toList] at hcut
    rw [hcut, Option.map_some, lines]
    split
    · next he => exact absurd (String.toList_eq_nil_iff.1 he) h
    · next he => rw [he]

end Machining.Text
