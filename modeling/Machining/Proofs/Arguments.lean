import Machining.CommandLine

/-!
The words of a command line as arguments. A word that is an option takes the next word, whatever that is, and a word that
is none is the name of a file. Between two words that no option holds together a command line can be cut, and its
arguments are those of the two parts.
-/

namespace Machining.CommandLine

variable {words rest : List String} {args more : List Argument} {w : String}

def IsName (w : String) : Prop := w ≠ "--preview" ∧ w ≠ "--config" ∧ w ≠ "--boundary"

/-- The words from left to right, each as an argument or as the value of the option in front of it. -/
inductive Walks : List String → List Argument → Prop
  | nil : Walks [] []
  | preview {rest : List String} {args : List Argument} (h : Walks rest args) :
      Walks ("--preview" :: rest) (.switch :: args)
  | config {rest : List String} {args : List Argument} (path : String) (h : Walks rest args) :
      Walks ("--config" :: path :: rest) (.config (some path) :: args)
  | configEnd : Walks ["--config"] [.config none]
  | boundary {rest : List String} {args : List Argument} (name : String) (h : Walks rest args) :
      Walks ("--boundary" :: name :: rest) (.boundary (some name) :: args)
  | boundaryEnd : Walks ["--boundary"] [.boundary none]
  | name {w : String} {rest : List String} {args : List Argument} (hw : IsName w) (h : Walks rest args) :
      Walks (w :: rest) (.file w :: args)

/-- No option waits for its value. -/
def Complete (words : List String) : Prop :=
  ∀ a ∈ Argument.ofList .zigzag words, a ≠ .config none ∧ a ≠ .boundary none

namespace Argument

variable {tool : Tool}

theorem ofList_nil (tool : Tool) : ofList tool [] = [] := rfl

theorem ofList_singleton (tool : Tool) (a : String) :
    ofList tool [a] =
      if a = tool.switch then [.switch]
      else if a = "--config" then [.config none]
      else if a = "--boundary" ∧ tool = .zigzag then [.boundary none]
      else [.file a] := rfl

theorem ofList_cons_cons (tool : Tool) (a b : String) (rest : List String) :
    ofList tool (a :: b :: rest) =
      if a = tool.switch then .switch :: ofList tool (b :: rest)
      else if a = "--config" then .config (some b) :: ofList tool rest
      else if a = "--boundary" ∧ tool = .zigzag then .boundary (some b) :: ofList tool rest
      else .file a :: ofList tool (b :: rest) := rfl

theorem ofList_preview (rest : List String) : ofList .zigzag ("--preview" :: rest) = .switch :: ofList .zigzag rest := by
  cases rest <;> rfl

theorem ofList_name (hw : IsName w) (rest : List String) :
    ofList .zigzag (w :: rest) = .file w :: ofList .zigzag rest := by
  obtain ⟨hpreview, hconfig, hboundary⟩ := hw
  cases rest with
  | nil => simp [ofList_singleton, Tool.switch, hpreview, hconfig, hboundary, ofList_nil]
  | cons b rest => simp [ofList_cons_cons, Tool.switch, hpreview, hconfig, hboundary]

end Argument

theorem Walks.ofList_eq (h : Walks words args) : Argument.ofList .zigzag words = args := by
  induction h with
  | nil | configEnd | boundaryEnd => rfl
  | preview h ih => rw [Argument.ofList_preview, ih]
  | config path h ih | boundary path h ih =>
    rw [← ih]
    rfl
  | name hw h ih => rw [Argument.ofList_name hw, ih]

theorem exists_walks (words : List String) : ∃ args, Walks words args := by
  have hcases (w : String) : w = "--preview" ∨ w = "--config" ∨ w = "--boundary" ∨ IsName w := by
    grind [IsName]
  match words with
  | [] => exact ⟨_, .nil⟩
  | [w] =>
    rcases hcases w with rfl | rfl | rfl | hw
    · exact ⟨_, .preview .nil⟩
    · exact ⟨_, .configEnd⟩
    · exact ⟨_, .boundaryEnd⟩
    · exact ⟨_, .name hw .nil⟩
  | w :: value :: rest =>
    obtain ⟨args, hrest⟩ := exists_walks rest
    obtain ⟨args', hnext⟩ := exists_walks (value :: rest)
    rcases hcases w with rfl | rfl | rfl | hw
    · exact ⟨_, .preview hnext⟩
    · exact ⟨_, .config value hrest⟩
    · exact ⟨_, .boundary value hrest⟩
    · exact ⟨_, .name hw hnext⟩

theorem walks_ofList (words : List String) : Walks words (Argument.ofList .zigzag words) := by
  obtain ⟨args, h⟩ := exists_walks words
  rwa [h.ofList_eq]

theorem Walks.append (h : Walks words args) (hargs : ∀ a ∈ args, a ≠ .config none ∧ a ≠ .boundary none)
    (hmore : Walks rest more) : Walks (words ++ rest) (args ++ more) := by
  induction h with
  | nil => exact hmore
  | preview h ih => exact .preview (ih (List.forall_mem_cons.1 hargs).2)
  | config path h ih => exact .config path (ih (List.forall_mem_cons.1 hargs).2)
  | configEnd => exact absurd rfl (hargs _ List.mem_cons_self).1
  | boundary name h ih => exact .boundary name (ih (List.forall_mem_cons.1 hargs).2)
  | boundaryEnd => exact absurd rfl (hargs _ List.mem_cons_self).2
  | name hw h ih => exact .name hw (ih (List.forall_mem_cons.1 hargs).2)

theorem ofList_append (h : Complete words) (rest : List String) :
    Argument.ofList .zigzag (words ++ rest) = Argument.ofList .zigzag words ++ Argument.ofList .zigzag rest :=
  ((walks_ofList words).append h (walks_ofList rest)).ofList_eq

end Machining.CommandLine
