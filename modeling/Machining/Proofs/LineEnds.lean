import Machining.Text.Lines

/-!
Lines and line ends. Joining the lines of a text makes all its line ends line feeds and changes nothing else.
Splitting what was joined gives the lines back, provided that no line holds a line end of its own and that the
lines are not one empty line, whose text is that of no line at all. Two texts with a line feed between them have the
lines of both, unless the first ends in a return, which would take the line feed to itself.
-/

namespace Machining.Text

def Unbroken (cs : List Char) : Prop := '\n' ∉ cs ∧ '\r' ∉ cs

instance : DecidablePred Unbroken := fun cs => inferInstanceAs (Decidable ('\n' ∉ cs ∧ '\r' ∉ cs))

def mergePairs : List Char → List Char
  | [] => []
  | '\r' :: '\n' :: rest => '\n' :: mergePairs rest
  | c :: rest => c :: mergePairs rest

def returnToFeed (c : Char) : Char := if c = '\r' then '\n' else c

/-- The text with line feeds for all its line ends: for the pairs first, then for the carriage returns left. -/
def unifyEnds (text : String) : String := String.ofList ((mergePairs text.toList).map returnToFeed)

theorem unbroken_nil : Unbroken [] := ⟨List.not_mem_nil, List.not_mem_nil⟩

theorem unbroken_cons_iff {c : Char} {cs : List Char} :
    Unbroken (c :: cs) ↔ (c ≠ '\n' ∧ c ≠ '\r') ∧ Unbroken cs := by
  simp only [Unbroken, List.mem_cons, not_or]
  constructor
  · rintro ⟨⟨hn, hns⟩, hr, hrs⟩
    exact ⟨⟨Ne.symm hn, Ne.symm hr⟩, hns, hrs⟩
  · rintro ⟨⟨hn, hr⟩, hns, hrs⟩
    exact ⟨⟨Ne.symm hn, hns⟩, Ne.symm hr, hrs⟩

theorem unbroken_append_iff {front l : List Char} : Unbroken (front ++ l) ↔ Unbroken front ∧ Unbroken l := by
  simp only [Unbroken, List.mem_append, not_or]
  exact and_and_and_comm

theorem Unbroken.mono {cs part : List Char} (h : Unbroken cs) (hpart : part ⊆ cs) : Unbroken part :=
  ⟨fun hfeed => h.1 (hpart hfeed), fun hreturn => h.2 (hpart hreturn)⟩

theorem betweenEnds_ne_nil (cs : List Char) : betweenEnds cs ≠ [] := by
  fun_induction betweenEnds cs with
  | case1 => exact List.cons_ne_nil _ _
  | case2 rest => exact List.cons_ne_nil _ _
  | case3 c rest => exact List.cons_ne_nil _ _
  | case4 c rest hne hc ih =>
    intro h
    exact ih (List.modifyHead_eq_nil_iff.1 h)

theorem intercalate_betweenEnds (cs : List Char) :
    ['\n'].intercalate (betweenEnds cs) = (mergePairs cs).map returnToFeed := by
  fun_induction betweenEnds cs with
  | case1 => rfl
  | case2 rest ih =>
    rw [List.intercalate_cons_of_ne_nil (betweenEnds_ne_nil rest), ih, mergePairs]
    rfl
  | case3 c rest hne hc ih =>
    rw [List.intercalate_cons_of_ne_nil (betweenEnds_ne_nil rest), ih, mergePairs.eq_3 c rest hne]
    rcases hc with rfl | rfl <;> rfl
  | case4 c rest hne hc ih =>
    obtain ⟨l, ls, hls⟩ := List.exists_cons_of_ne_nil (betweenEnds_ne_nil rest)
    have hfeed : returnToFeed c = c := if_neg fun h => hc (.inr h)
    rw [hls] at ih ⊢
    rw [mergePairs.eq_3 c rest hne, List.map_cons, hfeed, ← ih, List.modifyHead_cons, List.intercalate_cons_cons_left]

theorem unbroken_of_mem_betweenEnds {cs l : List Char} (hl : l ∈ betweenEnds cs) : Unbroken l := by
  fun_induction betweenEnds cs generalizing l with
  | case1 => rw [List.mem_singleton.1 hl]; exact unbroken_nil
  | case2 rest ih =>
    rcases List.mem_cons.1 hl with rfl | hl
    · exact unbroken_nil
    · exact ih hl
  | case3 c rest hne hc ih =>
    rcases List.mem_cons.1 hl with rfl | hl
    · exact unbroken_nil
    · exact ih hl
  | case4 c rest hne hc ih =>
    obtain ⟨m, ms, hms⟩ := List.exists_cons_of_ne_nil (betweenEnds_ne_nil rest)
    rw [hms] at ih hl
    rcases List.mem_cons.1 hl with rfl | hl
    · exact unbroken_cons_iff.2 ⟨not_or.1 hc, ih List.mem_cons_self⟩
    · exact ih (List.mem_cons_of_mem m hl)

theorem betweenEnds_cons {c : Char} (hc : c ≠ '\n' ∧ c ≠ '\r') (rest : List Char) :
    betweenEnds (c :: rest) = (betweenEnds rest).modifyHead (c :: ·) := by
  rw [betweenEnds.eq_3 c rest fun _ h => absurd h hc.2, if_neg (not_or.2 hc)]

theorem betweenEnds_of_unbroken {cs : List Char} (h : Unbroken cs) : betweenEnds cs = [cs] := by
  induction cs with
  | nil => rfl
  | cons c cs ih =>
    obtain ⟨hc, hcs⟩ := unbroken_cons_iff.1 h
    rw [betweenEnds_cons hc, ih hcs, List.modifyHead_cons]

theorem getLast?_ne_of_cons {α : Type} {x c : α} {cs : List α} (h : (c :: cs).getLast? ≠ some x) :
    cs.getLast? ≠ some x := by
  intro hlast
  exact h (by simp [List.getLast?_cons, hlast])

/-- A line feed between two texts ends a line, unless it makes a pair with a carriage return in front of it. -/
theorem betweenEnds_append {cs : List Char} (h : cs.getLast? ≠ some '\r') (rest : List Char) :
    betweenEnds (cs ++ '\n' :: rest) = betweenEnds cs ++ betweenEnds rest := by
  fun_induction betweenEnds cs with
  | case1 => rfl
  | case2 more ih =>
    have hmore : more.getLast? ≠ some '\r' := getLast?_ne_of_cons (getLast?_ne_of_cons h)
    simp only [List.cons_append, betweenEnds, ih hmore]
  | case3 c more hne hc ih =>
    -- the character ends a line of its own, so it must not be drawn into a pair by the line feed put behind it
    have hpair : ∀ tail, c = '\r' → more ++ '\n' :: rest = '\n' :: tail → False := by
      rintro tail rfl heq
      cases more with
      | nil => exact h rfl
      | cons d more => exact hne more rfl (congrArg (· :: more) (List.cons.inj heq).1)
    rw [List.cons_append, betweenEnds.eq_3 c _ hpair, if_pos hc, ih (getLast?_ne_of_cons h)]
    rfl
  | case4 c more hne hc ih =>
    obtain ⟨l, ls, hls⟩ := List.exists_cons_of_ne_nil (betweenEnds_ne_nil more)
    rw [List.cons_append, betweenEnds_cons (not_or.1 hc), ih (getLast?_ne_of_cons h), hls]
    rfl

theorem betweenEnds_append_feed {cs : List Char} (h : Unbroken cs) (rest : List Char) :
    betweenEnds (cs ++ '\n' :: rest) = cs :: betweenEnds rest := by
  have hlast : cs.getLast? ≠ some '\r' := fun hlast => h.2 (List.mem_of_getLast? hlast)
  rw [betweenEnds_append hlast, betweenEnds_of_unbroken h]
  rfl

theorem betweenEnds_intercalate {ls : List (List Char)} (h : ∀ l ∈ ls, Unbroken l) (hne : ls ≠ []) :
    betweenEnds (['\n'].intercalate ls) = ls := by
  induction ls with
  | nil => exact absurd rfl hne
  | cons l ls ih =>
    have hl : Unbroken l := h l List.mem_cons_self
    by_cases hls : ls = []
    · subst hls
      rw [List.intercalate_singleton, betweenEnds_of_unbroken hl]
    · rw [List.intercalate_cons_of_ne_nil hls, List.append_assoc, List.singleton_append, betweenEnds_append_feed hl,
        ih (fun m hm => h m (List.mem_cons_of_mem l hm)) hls]

theorem lines_append {front rear : String} (hfront : front ≠ "") (hreturn : front.toList.getLast? ≠ some '\r')
    (hrear : rear ≠ "") : lines (front ++ "\n" ++ rear) = lines front ++ lines rear := by
  have hchars : (front ++ "\n" ++ rear).toList = front.toList ++ '\n' :: rear.toList := by simp
  have hboth : front ++ "\n" ++ rear ≠ "" := by
    intro hempty
    simp [hempty] at hchars
  rw [lines_eq_betweenEnds hboth, hchars, betweenEnds_append hreturn, List.map_append, lines_eq_betweenEnds hfront,
    lines_eq_betweenEnds hrear]

theorem join_lines (text : String) : join (lines text) = unifyEnds text := by
  by_cases h : text = ""
  · subst h
    rfl
  · apply String.toList_inj.1
    rw [toList_join, lines_eq_betweenEnds h, List.map_map, unifyEnds, String.toList_ofList, ← intercalate_betweenEnds]
    simp [Function.comp_def]

theorem unbroken_of_mem_lines {text l : String} (hl : l ∈ lines text) : Unbroken l.toList := by
  by_cases h : text = ""
  · subst h
    exact absurd hl List.not_mem_nil
  · rw [lines_eq_betweenEnds h] at hl
    obtain ⟨cs, hcs, rfl⟩ := List.mem_map.1 hl
    rw [String.toList_ofList]
    exact unbroken_of_mem_betweenEnds hcs

theorem lines_ne_singleton_empty (text : String) : lines text ≠ [""] := by
  intro h
  have hjoin : unifyEnds text = "" := by rw [← join_lines, h]; rfl
  have hmerge : mergePairs text.toList = [] := by
    rw [unifyEnds, String.ofList_eq_empty_iff, List.map_eq_nil_iff] at hjoin
    exact hjoin
  have hempty : text.toList = [] := by
    generalize text.toList = cs at hmerge
    fun_cases mergePairs cs with
    | case1 => rfl
    | case2 rest => exact absurd hmerge (List.cons_ne_nil _ _)
    | case3 c rest hne =>
      rw [mergePairs.eq_3 c rest hne] at hmerge
      exact absurd hmerge (List.cons_ne_nil _ _)
  rw [String.toList_eq_nil_iff.1 hempty, lines_empty] at h
  exact absurd h.symm (List.cons_ne_nil _ _)

theorem lines_join {ls : List String} (h : ∀ l ∈ ls, Unbroken l.toList) (hne : ls ≠ [""]) : lines (join ls) = ls := by
  by_cases hnil : ls = []
  · subst hnil
    rfl
  have hunbroken : ∀ l ∈ ls.map String.toList, Unbroken l := by
    intro l hl
    obtain ⟨s, hs, rfl⟩ := List.mem_map.1 hl
    exact h s hs
  have hback : betweenEnds (join ls).toList = ls.map String.toList := by
    rw [toList_join]
    exact betweenEnds_intercalate hunbroken (by simpa using hnil)
  have htext : join ls ≠ "" := by
    intro hempty
    rw [hempty] at hback
    obtain ⟨s, rfl, hs⟩ := List.map_eq_singleton_iff.1 hback.symm
    rw [String.toList_eq_nil_iff.1 hs] at hne
    exact hne rfl
  rw [lines_eq_betweenEnds htext, hback, List.map_map]
  simp [Function.comp_def]

theorem lines_unifyEnds (text : String) : lines (unifyEnds text) = lines text := by
  rw [← join_lines]
  exact lines_join (fun l hl => unbroken_of_mem_lines hl) (lines_ne_singleton_empty text)

theorem return_notMem_join {ls : List String} (h : ∀ l ∈ ls, Unbroken l.toList) : '\r' ∉ (join ls).toList := by
  rw [toList_join]
  induction ls with
  | nil => exact List.not_mem_nil
  | cons l ls ih =>
    have hl : '\r' ∉ l.toList := (h l List.mem_cons_self).2
    have hrest := ih fun m hm => h m (List.mem_cons_of_mem l hm)
    by_cases hls : ls = []
    · subst hls
      simpa using hl
    · rw [List.map_cons, List.intercalate_cons_of_ne_nil (by simpa using hls)]
      simp [hl, hrest]

end Machining.Text
