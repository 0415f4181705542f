import Mathlib.Data.List.SplitBy

/-!
Lists cut in front of each element of a kind. A run begins with such an element and holds no other. Every list is
in exactly one way some elements that are not of the kind and then runs, and the runs are what `List.splitBy` finds.
-/

namespace Machining

variable {α : Type} {p : α → Bool}

/-- The first element is of the kind, and no other is. -/
def IsRun (p : α → Bool) (g : List α) : Prop :=
  ∃ x rest, g = x :: rest ∧ p x = true ∧ ∀ y ∈ rest, p y = false

theorem IsRun.ne_nil {g : List α} (h : IsRun p g) : g ≠ [] := by
  obtain ⟨x, rest, rfl, -⟩ := h
  exact List.cons_ne_nil x rest

theorem isRun_cons {x : α} {rest : List α} (hx : p x = true) (hrest : ∀ y ∈ rest, p y = false) :
    IsRun p (x :: rest) := ⟨x, rest, rfl, hx, hrest⟩

theorem isRun_singleton {x : α} (hx : p x = true) : IsRun p [x] :=
  isRun_cons hx fun _ hy => absurd hy List.not_mem_nil

theorem IsRun.append {g more : List α} (h : IsRun p g) (hmore : ∀ y ∈ more, p y = false) : IsRun p (g ++ more) := by
  obtain ⟨x, rest, rfl, hx, hrest⟩ := h
  exact isRun_cons hx (List.forall_mem_append.2 ⟨hrest, hmore⟩)

theorem IsRun.map {β : Type} {q : β → Bool} {f : α → β} {g : List α} (h : IsRun p g) (hf : ∀ x, q (f x) = p x) :
    IsRun q (g.map f) := by
  obtain ⟨x, rest, rfl, hx, hrest⟩ := h
  exact isRun_cons (by rwa [hf]) (List.forall_mem_map.2 fun y hy => by rw [hf, hrest y hy])

theorem IsRun.cut {g t : List α} (h : IsRun p g) (ht : t <:+ g.drop 1) :
    IsRun p (g.take (g.length - t.length)) ∧ g.take (g.length - t.length) ++ t = g ∧ ∀ y ∈ t, p y = false := by
  obtain ⟨x, rest, rfl, hx, hrest⟩ := h
  obtain ⟨body, hbody⟩ := ht
  rw [List.drop_succ_cons, List.drop_zero] at hbody
  subst hbody
  have htake : (x :: (body ++ t)).take ((x :: (body ++ t)).length - t.length) = x :: body := by
    rw [← List.cons_append, List.length_append, Nat.add_sub_cancel]
    exact List.take_left
  rw [htake]
  refine ⟨isRun_cons hx fun y hy => ?_, rfl, fun y hy => ?_⟩
  · exact hrest y (List.mem_append_left t hy)
  · exact hrest y (List.mem_append_right body hy)

theorem takeWhile_append_stop {l r : List α} (hl : ∀ x ∈ l, p x = true) (hr : ∀ x ∈ r.head?, p x = false) :
    (l ++ r).takeWhile p = l := by
  rw [List.takeWhile_append_of_pos hl]
  cases r with
  | nil => simp
  | cons x r => simp [hr x rfl]

theorem dropWhile_append_stop {l r : List α} (hl : ∀ x ∈ l, p x = true) (hr : ∀ x ∈ r.head?, p x = false) :
    (l ++ r).dropWhile p = r := by
  rw [List.dropWhile_append_of_pos hl]
  cases r with
  | nil => rfl
  | cons x r => simp [hr x rfl]

theorem head_dropWhile_eq_false (l : List α) : ∀ x ∈ (l.dropWhile p).head?, p x = false := by
  intro x hx
  have hnot := List.head?_dropWhile_not p l
  rw [Option.mem_def.1 hx] at hnot
  exact hnot

theorem forall_head_append {P : α → Prop} {l r : List α} (hl : ∀ x ∈ l.head?, P x) (hr : ∀ x ∈ r.head?, P x) :
    ∀ x ∈ (l ++ r).head?, P x := by
  cases l with
  | nil => exact hr
  | cons y l => exact hl

theorem exists_cut (p : α → Bool) (l : List α) :
    ∃ front rear, front ++ rear = l ∧ (∀ x ∈ front, p x = true) ∧ ∀ x ∈ rear.head?, p x = false :=
  ⟨l.takeWhile p, l.dropWhile p, List.takeWhile_append_dropWhile, List.all_eq_true.1 List.all_takeWhile,
    head_dropWhile_eq_false l⟩

theorem append_stop_inj {l r l' r' : List α} (h : l ++ r = l' ++ r') (hl : ∀ x ∈ l, p x = true)
    (hr : ∀ x ∈ r.head?, p x = false) (hl' : ∀ x ∈ l', p x = true) (hr' : ∀ x ∈ r'.head?, p x = false) :
    l = l' ∧ r = r' := by
  constructor
  · rw [← takeWhile_append_stop hl hr, h, takeWhile_append_stop hl' hr']
  · rw [← dropWhile_append_stop hl hr, h, dropWhile_append_stop hl' hr']

theorem head_flatten_runs {gs : List (List α)} (h : ∀ g ∈ gs, IsRun p g) : ∀ x ∈ gs.flatten.head?, p x = true := by
  cases gs with
  | nil => simp
  | cons g gs =>
    obtain ⟨x, rest, rfl, hx, -⟩ := h g List.mem_cons_self
    simpa using hx

theorem splitBy_flatten_runs {gs : List (List α)} (h : ∀ g ∈ gs, IsRun p g) :
    gs.flatten.splitBy (fun _ next => !p next) = gs := by
  apply List.splitBy_flatten
  · exact fun hnil => (h [] hnil).ne_nil rfl
  · intro g hg
    obtain ⟨x, rest, rfl, -, hrest⟩ := h g hg
    clear hg
    induction rest generalizing x with
    | nil => exact List.isChain_singleton x
    | cons y rest ih =>
      refine List.isChain_cons_cons.2 ⟨by simp [hrest y List.mem_cons_self], ?_⟩
      exact ih y fun z hz => hrest z (List.mem_cons_of_mem y hz)
  · induction gs with
    | nil => exact List.isChain_nil
    | cons g gs ih =>
      refine List.isChain_cons.2 ⟨fun g' hg' => ?_, ih fun g' hg' => h g' (List.mem_cons_of_mem g hg')⟩
      have hmem : g' ∈ g :: gs := List.mem_cons_of_mem g (List.mem_of_mem_head? hg')
      obtain ⟨x, rest, rfl, hx, -⟩ := h g' hmem
      exact ⟨(h g List.mem_cons_self).ne_nil, List.cons_ne_nil x rest, by simp [hx]⟩

theorem exists_runs (p : α → Bool) (l : List α) :
    ∃ (lead : List α) (gs : List (List α)),
      (∀ x ∈ lead, p x = false) ∧ (∀ g ∈ gs, IsRun p g) ∧ lead ++ gs.flatten = l := by
  induction l with
  | nil => exact ⟨[], [], by simp, by simp, rfl⟩
  | cons x l ih =>
    obtain ⟨lead, gs, hlead, hgs, rfl⟩ := ih
    cases hx : p x with
    | true =>
      have hrun : IsRun p (x :: lead) := isRun_cons hx hlead
      exact ⟨[], (x :: lead) :: gs, by simp, List.forall_mem_cons.2 ⟨hrun, hgs⟩, rfl⟩
    | false =>
      exact ⟨x :: lead, gs, List.forall_mem_cons.2 ⟨hx, hlead⟩, hgs, rfl⟩

theorem exists_runs_of_head {l : List α} {x : α} (hhead : l.head? = some x) (hx : p x = true) :
    ∃ (gs : List (List α)) (g : List α), (∀ g' ∈ gs ++ [g], IsRun p g') ∧ (gs ++ [g]).flatten = l := by
  obtain ⟨lead, gs, hlead, hgs, rfl⟩ := exists_runs p l
  cases lead with
  | cons y lead =>
    obtain rfl : y = x := Option.some.inj hhead
    exact absurd hx (by simp [hlead y])
  | nil =>
    rcases List.eq_nil_or_concat' gs with rfl | ⟨gs, g, rfl⟩
    · exact absurd hhead (by simp)
    · exact ⟨gs, g, hgs, rfl⟩

theorem IsRun.countP_eq_one {g : List α} (h : IsRun p g) : g.countP p = 1 := by
  obtain ⟨x, rest, rfl, hx, hrest⟩ := h
  have hnone : rest.countP p = 0 := List.countP_eq_zero.2 fun y hy => by simp [hrest y hy]
  simp [hx, hnone]

theorem countP_flatten_runs {gs : List (List α)} (h : ∀ g ∈ gs, IsRun p g) : gs.flatten.countP p = gs.length := by
  induction gs with
  | nil => rfl
  | cons g gs ih =>
    obtain ⟨hg, hgs⟩ := List.forall_mem_cons.1 h
    have hone := hg.countP_eq_one
    have hrest := ih hgs
    simp only [List.flatten_cons, List.countP_append, List.length_cons]
    omega

theorem flatten_runs_inj {gs gs' : List (List α)} (h : gs.flatten = gs'.flatten) (hgs : ∀ g ∈ gs, IsRun p g)
    (hgs' : ∀ g ∈ gs', IsRun p g) : gs = gs' := by
  rw [← splitBy_flatten_runs hgs, h, splitBy_flatten_runs hgs']

theorem exists_cut_runs {lead front rear : List α} {gs : List (List α)} (h : lead ++ gs.flatten = front ++ rear)
    (hlead : ∀ x ∈ lead, p x = false) (hgs : ∀ g ∈ gs, IsRun p g) (hrear : ∀ x ∈ rear.head?, p x = true) :
    ∃ before after, gs = before ++ after ∧ front = lead ++ before.flatten ∧ rear = after.flatten := by
  obtain ⟨lead', before, hlead', hbefore, rfl⟩ := exists_runs p front
  obtain ⟨none, after, hnone, hafter, rfl⟩ := exists_runs p rear
  obtain rfl : none = [] := by
    cases none with
    | nil => rfl
    | cons x none => exact absurd (hrear x rfl) (by simp [hnone x])
  have hruns : ∀ g ∈ before ++ after, IsRun p g := List.forall_mem_append.2 ⟨hbefore, hafter⟩
  have hsame : lead ++ gs.flatten = lead' ++ (before ++ after).flatten := by simpa using h
  obtain ⟨rfl, hflatten⟩ := append_stop_inj (p := (!p ·)) hsame (by simpa using hlead)
    (by simpa using head_flatten_runs hgs) (by simpa using hlead') (by simpa using head_flatten_runs hruns)
  exact ⟨before, after, flatten_runs_inj hflatten hgs hruns, rfl, rfl⟩

theorem flatten_reverse_runs_iff {gs : List (List α)} (hgs : ∀ g ∈ gs, IsRun p g) :
    gs.reverse.flatten = gs.flatten ↔ gs.reverse = gs := by
  constructor
  · intro h
    exact flatten_runs_inj h (fun g hg => hgs g (List.mem_reverse.1 hg)) hgs
  · intro h
    rw [h]

end Machining
