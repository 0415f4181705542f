/-!
Cutting a list into pieces. Where a piece begins, `step` sees the element there and all that follow it, and
answers with the piece and the number of following elements that belong to it. Every piece takes at least the
element it begins with, so the pieces cover the list and the recursion is on the list itself.
-/

namespace Machining.Text

variable {α β : Type} (step : α → List α → β × Nat)

/-- Leaves out `k` elements, then goes on cutting behind the pieces already `done`. -/
def munchFrom (done : Array β) : Nat → List α → Array β
  | _, [] => done
  | k + 1, _ :: rest => munchFrom done k rest
  | 0, x :: rest => munchFrom (done.push (step x rest).1) (step x rest).2 rest

def munch (xs : List α) : List β := (munchFrom step #[] 0 xs).toList

theorem munchFrom_eq_drop (done : Array β) (k : Nat) (xs : List α) :
    munchFrom step done k xs = munchFrom step done 0 (xs.drop k) := by
  induction k generalizing xs with
  | zero => rfl
  | succ k ih =>
    cases xs with
    | nil => rfl
    | cons x rest => exact ih rest

theorem toList_munchFrom (done : Array β) (k : Nat) (xs : List α) :
    (munchFrom step done k xs).toList = done.toList ++ (munchFrom step #[] k xs).toList := by
  induction xs generalizing done k with
  | nil => simp [munchFrom]
  | cons x rest ih =>
    cases k with
    | zero =>
      simp only [munchFrom]
      rw [ih (done.push _), ih (#[].push _)]
      simp
    | succ k => exact ih done k

theorem munch_nil : munch step [] = [] := rfl

theorem munch_cons (x : α) (rest : List α) :
    munch step (x :: rest) = (step x rest).1 :: munch step (rest.drop (step x rest).2) := by
  simp only [munch, munchFrom]
  rw [toList_munchFrom, munchFrom_eq_drop]
  simp

theorem munch_induction {motive : List α → Prop} (nil : motive [])
    (cons : ∀ x rest, motive (rest.drop (step x rest).2) → motive (x :: rest)) (xs : List α) : motive xs := by
  induction hn : xs.length using Nat.strongRecOn generalizing xs with
  | ind n ih =>
    cases xs with
    | nil => exact nil
    | cons x rest =>
      have hlt : (rest.drop (step x rest).2).length < n := by
        rw [← hn, List.length_drop, List.length_cons]
        omega
      exact cons x rest (ih _ hlt _ rfl)

theorem exists_of_mem_munch {xs : List α} {b : β} (hb : b ∈ munch step xs) :
    ∃ x rest, x :: rest <:+ xs ∧ b = (step x rest).1 := by
  induction xs using munch_induction step with
  | nil => exact absurd hb List.not_mem_nil
  | cons x rest ih =>
    rw [munch_cons] at hb
    rcases List.mem_cons.1 hb with hb | hb
    · exact ⟨x, rest, List.suffix_refl _, hb⟩
    · obtain ⟨y, more, hmore, hb⟩ := ih hb
      have hdrop : rest.drop (step x rest).2 <:+ x :: rest :=
        (List.drop_suffix _ rest).trans (List.suffix_cons x rest)
      exact ⟨y, more, hmore.trans hdrop, hb⟩

theorem munch_map {α' β' : Type} {step' : α' → List α' → β' × Nat} {f : α → α'} {g : β → β'}
    (h : ∀ x rest, step' (f x) (rest.map f) = (g (step x rest).1, (step x rest).2)) (xs : List α) :
    munch step' (xs.map f) = (munch step xs).map g := by
  induction xs using munch_induction step with
  | nil => rfl
  | cons x rest ih => rw [List.map_cons, munch_cons, munch_cons, h, List.map_cons, ← ih, List.map_drop]

theorem flatMap_munch {source : β → List α}
    (h : ∀ x rest, source (step x rest).1 = x :: rest.take (step x rest).2) (xs : List α) :
    (munch step xs).flatMap source = xs := by
  induction xs using munch_induction step with
  | nil => rfl
  | cons x rest ih => rw [munch_cons, List.flatMap_cons, h, ih, List.cons_append, List.take_append_drop]

end Machining.Text
