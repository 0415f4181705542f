import Machining.Proofs.Arguments
import Machining.Proofs.Headings

/-!
What a run of the reversing tool comes to. The arguments are followed up to the first that makes a problem, and the
problem is all that is printed, with the cause for which a file was not read or its options were refused. If none does,
the rules are those that the last argument to set them has set, and the text of the one file is printed reversed or as
a preview. The switch and the file name may stand anywhere in front of, between or behind the options.
-/

namespace Machining

theorem BoundaryRule.ofName?_eq_some_iff {name : String} {rule : BoundaryRule} :
    ofName? name = some rule ↔ rule.name = name := by
  constructor
  · intro h
    unfold ofName? at h
    simpa using List.find?_some h
  · rintro rfl
    exact ofName?_name rule

namespace CommandLine

variable {read : String → Except ReadError String} {explain : String → String} {path text : String}
  {args : List Argument} {a : Argument} {r : Request} {p : Problem}

/-- The problem that an argument makes where it stands behind these. -/
inductive Argument.Raises (read : String → Except ReadError String) (explain : String → String)
    (before : List Argument) : Argument → Problem → Prop
  | missingConfig : Raises read explain before (.config none) .missingConfig
  | unreadable {path : String} {cause : ReadError} (hread : read path = .error cause) :
      Raises read explain before (.config (some path)) (.unreadable path cause)
  | invalidOptions {path text : String} (hread : read path = .ok text) (htext : Options.parse? text = none) :
      Raises read explain before (.config (some path)) (.invalidOptions path (explain text))
  | missingBoundary : Raises read explain before (.boundary none) .unknownBoundary
  | unknownBoundary {name : String} (hname : ∀ rule : BoundaryRule, rule.name ≠ name) :
      Raises read explain before (.boundary (some name)) .unknownBoundary
  | secondFile {earlier path : String} (hearlier : .file earlier ∈ before) :
      Raises read explain before (.file path) (.unexpected path)

def Passes (read : String → Except ReadError String) (explain : String → String) (args : List Argument) : Prop :=
  ∀ before a after, args = before ++ a :: after → ∀ p, ¬a.Raises read explain before p

inductive Fails (read : String → Except ReadError String) (explain : String → String) (args : List Argument) :
    Problem → Prop
  | argument {before after : List Argument} {a : Argument} {p : Problem} (hargs : args = before ++ a :: after)
      (hbefore : Passes read explain before) (ha : a.Raises read explain before p) : Fails read explain args p
  | noFile (hargs : Passes read explain args) (hfile : ∀ path, .file path ∉ args) :
      Fails read explain args (.noFile .zigzag)
  | unreadable {path : String} {cause : ReadError} (hargs : Passes read explain args) (hfile : .file path ∈ args)
      (hread : read path = .error cause) : Fails read explain args (.unreadable path cause)

def Argument.SetsTrailing (read : String → Except ReadError String) (a : Argument) (rule : TrailingRule) : Prop :=
  ∃ path text o, a = .config (some path) ∧ read path = .ok text ∧ Options.parse? text = some o ∧ o.trailing = rule

def Argument.SetsBoundary (read : String → Except ReadError String) (a : Argument) (rule : BoundaryRule) : Prop :=
  (∃ path text o, a = .config (some path) ∧ read path = .ok text ∧ Options.parse? text = some o ∧ o.boundary = rule) ∨
    a = .boundary (some rule.name)

/-- Each rule is the one that was set last, or the default. -/
structure Chooses (read : String → Except ReadError String) (args : List Argument) (o : Options) : Prop where
  trailing : ∃ rule, IsLast (Argument.SetsTrailing read) args rule ∧ o.trailing = rule.getD .keep
  boundary : ∃ rule, IsLast (Argument.SetsBoundary read) args rule ∧ o.boundary = rule.getD .lineNumberOrToolChange

structure Request.Meets (read : String → Except ReadError String) (args : List Argument) (r : Request) : Prop where
  file : ∀ path, r.file = some path ↔ .file path ∈ args
  switched : r.switched = true ↔ .switch ∈ args
  options : Chooses read args r.options

/-! ### Following one argument -/

theorem readText_ok (h : read path = .ok text) : readText (m := Id) read path = pure text := by
  unfold readText
  rw [h]
  rfl

theorem readText_error {cause : ReadError} (h : read path = .error cause) :
    readText (m := Id) read path = throw (.unreadable path cause) := by
  unfold readText
  rw [h]
  rfl

theorem follow_config_ok {o : Options} (hread : read path = .ok text) (htext : Options.parse? text = some o)
    (r : Request) : r.follow (m := Id) read explain (.config (some path)) = pure { r with options := o } := by
  simp [Request.follow, loadOptions, readText_ok hread, htext]

theorem follow_raises (hmeets : r.Meets read args) (h : a.Raises read explain args p) :
    r.follow (m := Id) read explain a = throw p := by
  cases h with
  | missingConfig | missingBoundary => rfl
  | unreadable hread => simp [Request.follow, loadOptions, readText_error hread]
  | invalidOptions hread htext => simp [Request.follow, loadOptions, readText_ok hread, htext]
  | @unknownBoundary name hname =>
    have hnone : BoundaryRule.ofName? name = none := by
      refine Option.eq_none_iff_forall_ne_some.2 fun rule hrule => ?_
      exact hname rule (BoundaryRule.ofName?_eq_some_iff.1 hrule)
    simp [Request.follow, hnone]
  | secondFile hearlier => simp [Request.follow, (hmeets.file _).2 hearlier]

theorem Chooses.concat {o : Options} (h : Chooses read args o) (hconfig : ∀ path, a ≠ .config path)
    (hboundary : ∀ name, a ≠ .boundary name) : Chooses read (args ++ [a]) o := by
  obtain ⟨⟨trailing, htrailing, ho⟩, boundary, hlast, ho'⟩ := h
  refine ⟨⟨trailing, htrailing.concat ?_, ho⟩, boundary, hlast.concat ?_, ho'⟩
  · rintro rule ⟨path, -, -, rfl, -⟩
    exact hconfig _ rfl
  · rintro rule (⟨path, -, -, rfl, -⟩ | rfl)
    · exact hconfig _ rfl
    · exact hboundary _ rfl

theorem Chooses.config {o : Options} (hread : read path = .ok text) (htext : Options.parse? text = some o) :
    Chooses read (args ++ [.config (some path)]) o where
  trailing := ⟨some o.trailing, isLast_concat ⟨path, text, o, rfl, hread, htext, rfl⟩, rfl⟩
  boundary := ⟨some o.boundary, isLast_concat (.inl ⟨path, text, o, rfl, hread, htext, rfl⟩), rfl⟩

theorem Chooses.setBoundary {o : Options} (h : Chooses read args o) (rule : BoundaryRule) :
    Chooses read (args ++ [.boundary (some rule.name)]) { o with boundary := rule } where
  trailing := by
    obtain ⟨trailing, htrailing, ho⟩ := h.trailing
    refine ⟨trailing, htrailing.concat ?_, ho⟩
    rintro _ ⟨path, -, -, hconfig, -⟩
    cases hconfig
  boundary := ⟨some rule, isLast_concat (.inr rfl), rfl⟩

theorem follow_meets (hmeets : r.Meets read args) (h : ∀ p, ¬a.Raises read explain args p) :
    ∃ r', r.follow (m := Id) read explain a = pure r' ∧ Request.Meets read (args ++ [a]) r' := by
  obtain ⟨hfile, hswitched, hoptions⟩ := hmeets
  match a, h with
  | .switch, _ =>
    have hkept := hoptions.concat (a := .switch) (by simp) (by simp)
    exact ⟨_, rfl, by simp [hfile], by simp, hkept⟩
  | .config none, h => exact absurd .missingConfig (h _)
  | .config (some path), h =>
    cases hread : read path with
    | error cause => exact absurd (.unreadable hread) (h _)
    | ok text =>
      cases htext : Options.parse? text with
      | none => exact absurd (.invalidOptions hread htext) (h _)
      | some o => exact ⟨_, follow_config_ok hread htext r, by simp [hfile], by simp [hswitched], .config hread htext⟩
  | .boundary none, h => exact absurd .missingBoundary (h _)
  | .boundary (some name), h =>
    obtain ⟨rule, rfl⟩ : ∃ rule : BoundaryRule, rule.name = name := by
      by_contra hname
      exact h _ (.unknownBoundary fun rule hrule => hname ⟨rule, hrule⟩)
    have hfollow : r.follow (m := Id) read explain (.boundary (some rule.name)) =
        pure { r with options := { r.options with boundary := rule } } := by
      simp [Request.follow, BoundaryRule.ofName?_name]
    exact ⟨_, hfollow, by simp [hfile], by simp [hswitched], hoptions.setBoundary rule⟩
  | .file path, h =>
    have hnone : r.file = none := by
      refine Option.eq_none_iff_forall_ne_some.2 fun earlier hearlier => ?_
      exact h _ (.secondFile ((hfile earlier).1 hearlier))
    have hfollow : r.follow (m := Id) read explain (.file path) = pure { r with file := some path } := by
      simp [Request.follow, hnone]
    have hkept := hoptions.concat (a := .file path) (by simp) (by simp)
    rw [hnone] at hfile
    exact ⟨_, hfollow, by simp [← hfile, eq_comm], by simp [hswitched], hkept⟩

/-! ### Following them all -/

theorem passes_nil : Passes read explain [] := by
  intro before a after h
  simp at h

theorem meets_nil : Request.Meets read [] {} := by
  refine ⟨by simp, by simp, ⟨none, by simp [IsLast], rfl⟩, none, by simp [IsLast], rfl⟩

theorem Passes.append_left {more : List Argument} (h : Passes read explain (args ++ more)) :
    Passes read explain args := by
  rintro before a after rfl
  exact h before a (after ++ more) (by simp)

theorem Passes.concat (h : Passes read explain args) (ha : ∀ p, ¬a.Raises read explain args p) :
    Passes read explain (args ++ [a]) := by
  intro before b after hsplit
  rcases List.eq_nil_or_concat' after with rfl | ⟨after, c, rfl⟩
  · obtain ⟨rfl, hb⟩ := List.append_inj' hsplit rfl
    rwa [← List.singleton_inj.1 hb]
  · rw [← List.cons_append, ← List.append_assoc] at hsplit
    obtain ⟨rfl, -⟩ := List.append_inj' hsplit rfl
    exact h before b after rfl

theorem passes_or_raises (read : String → Except ReadError String) (explain : String → String) (args : List Argument) :
    Passes read explain args ∨
      ∃ before a after p, args = before ++ a :: after ∧ Passes read explain before ∧
        a.Raises read explain before p := by
  induction args using List.reverseRecOn with
  | nil => exact .inl passes_nil
  | append_singleton args a ih =>
    rcases ih with hpasses | ⟨before, b, after, p, rfl, hbefore, hb⟩
    · by_cases ha : ∃ p, a.Raises read explain args p
      · obtain ⟨p, ha⟩ := ha
        exact .inr ⟨args, a, [], p, rfl, hpasses, ha⟩
      · exact .inl (hpasses.concat (not_exists.1 ha))
    · exact .inr ⟨before, b, after ++ [a], p, by simp, hbefore, hb⟩

theorem foldlM_follow (h : Passes read explain args) :
    ∃ r, args.foldlM (Request.follow (m := Id) read explain) {} = pure r ∧ r.Meets read args := by
  induction args using List.reverseRecOn with
  | nil => exact ⟨_, rfl, meets_nil⟩
  | append_singleton args a ih =>
    obtain ⟨r, hfold, hmeets⟩ := ih h.append_left
    obtain ⟨r', hfollow, hmeets'⟩ := follow_meets hmeets (h args a [] rfl)
    exact ⟨r', by simp [hfold, hfollow], hmeets'⟩

/-! ### The run -/

variable {words : List String}

theorem answer_of_fails (h : Fails read explain (Argument.ofList .zigzag words) p) :
    Tool.zigzag.answer (m := Id) read explain words = throw p := by
  cases h with
  | argument hargs hbefore ha =>
    obtain ⟨r, hfold, hmeets⟩ := foldlM_follow hbefore
    simp [Tool.answer, hargs, hfold, follow_raises hmeets ha]
  | noFile hargs hfile =>
    obtain ⟨r, hfold, hmeets⟩ := foldlM_follow hargs
    have hnone : r.file = none :=
      Option.eq_none_iff_forall_ne_some.2 fun path hpath => hfile path ((hmeets.file path).1 hpath)
    simp [Tool.answer, hfold, hnone]
  | unreadable hargs hfile hread =>
    obtain ⟨r, hfold, hmeets⟩ := foldlM_follow hargs
    simp [Tool.answer, hfold, (hmeets.file _).2 hfile, readText_error hread]

theorem zigzag_result (r : Request) (text : String) :
    Tool.zigzag.result r text =
      if r.switched = true then (segment r.options text).previewTable ++ "\n" else optimize r.options text := by
  cases hswitched : r.switched <;> simp [Tool.result, hswitched]

theorem answer_of_not_fails (h : ∀ p, ¬Fails read explain (Argument.ofList .zigzag words) p) :
    ∃ path text o, .file path ∈ Argument.ofList .zigzag words ∧ read path = .ok text ∧
      Chooses read (Argument.ofList .zigzag words) o ∧
      Tool.zigzag.answer (m := Id) read explain words =
        pure (if .switch ∈ Argument.ofList .zigzag words then (segment o text).previewTable ++ "\n"
          else optimize o text) := by
  rcases passes_or_raises read explain (Argument.ofList .zigzag words) with hpasses | ⟨_, _, _, p, hargs, hbefore, ha⟩
  · obtain ⟨r, hfold, hmeets⟩ := foldlM_follow hpasses
    cases hfile : r.file with
    | none =>
      have hnone : ∀ path, .file path ∉ Argument.ofList .zigzag words := by
        intro path hpath
        rw [(hmeets.file path).2 hpath] at hfile
        cases hfile
      exact absurd (.noFile hpasses hnone) (h _)
    | some path =>
      have hpath := (hmeets.file path).1 hfile
      cases hread : read path with
      | error cause => exact absurd (.unreadable hpasses hpath hread) (h _)
      | ok text =>
        refine ⟨path, text, r.options, hpath, hread, hmeets.options, ?_⟩
        have hanswer : Tool.zigzag.answer (m := Id) read explain words = pure (Tool.zigzag.result r text) := by
          simp [Tool.answer, hfold, hfile, readText_ok hread]
        rw [hanswer, zigzag_result]
        simp only [hmeets.switched]
  · exact absurd (.argument hargs hbefore ha) (h p)

/-! ### Moving an argument -/

theorem exists_of_except {ε α : Type} (x : ExceptT ε Id α) : (∃ e, x = throw e) ∨ ∃ y, x = pure y :=
  match x with
  | .error e => .inl ⟨e, rfl⟩
  | .ok y => .inr ⟨y, rfl⟩

theorem eq_of_pure_eq {ε α : Type} {x y : α} (h : (pure x : ExceptT ε Id α) = pure y) : x = y := Except.ok.inj h

theorem bind_congr_of_pure {ε α β : Type} {x : ExceptT ε Id α} {g g' : α → ExceptT ε Id β}
    (h : ∀ y, x = pure y → g y = g' y) : x >>= g = x >>= g' := by
  rcases exists_of_except x with ⟨e, rfl⟩ | ⟨y, rfl⟩
  · rfl
  · rw [pure_bind, pure_bind, h y rfl]

section Move

variable {σ α ε : Type} {f : σ → α → ExceptT ε Id σ} {P : σ → Prop} {a : α} {l m : List α} {s : σ}

theorem foldlM_move_cons (hswap : ∀ b ∈ m, ∀ s, P s → (f s a >>= fun s' => f s' b) = f s b >>= fun s' => f s' a)
    (hkeep : ∀ b ∈ m, ∀ s s', P s → f s b = pure s' → P s') (hs : P s) :
    (a :: m).foldlM f s = m.foldlM f s >>= fun s' => f s' a := by
  induction m generalizing s with
  | nil => simp
  | cons b m ih =>
    obtain ⟨hb, hrest⟩ := List.forall_mem_cons.1 hswap
    obtain ⟨hkeepb, hkeep⟩ := List.forall_mem_cons.1 hkeep
    -- past the next argument first, then past the rest in the state that this one leaves
    have hswapped : (a :: b :: m).foldlM f s = f s b >>= fun s' => (a :: m).foldlM f s' := by
      simp only [List.foldlM_cons, ← bind_assoc, hb s hs]
    rw [hswapped, List.foldlM_cons, bind_assoc]
    exact bind_congr_of_pure fun s' hpure => ih hrest hkeep (hkeepb s s' hs hpure)

/-- An argument that can change places with all others can as well come last. -/
theorem foldlM_move
    (hswap : ∀ b ∈ l ++ m, ∀ s, P s → (f s a >>= fun s' => f s' b) = f s b >>= fun s' => f s' a)
    (hkeep : ∀ b ∈ l ++ m, ∀ s s', P s → f s b = pure s' → P s') (hs : P s) :
    (l ++ a :: m).foldlM f s = (l ++ m).foldlM f s >>= fun s' => f s' a := by
  induction l generalizing s with
  | nil => exact foldlM_move_cons hswap hkeep hs
  | cons b l ih =>
    obtain ⟨-, hswap⟩ := List.forall_mem_cons.1 hswap
    obtain ⟨hkeepb, hkeep⟩ := List.forall_mem_cons.1 hkeep
    rw [List.cons_append, List.cons_append, List.foldlM_cons, List.foldlM_cons, bind_assoc]
    exact bind_congr_of_pure fun s' hpure => ih hswap hkeep (hkeepb s s' hs hpure)

end Move

theorem follow_switch_swap (r : Request) (b : Argument) :
    (r.follow (m := Id) read explain .switch >>= fun r' => r'.follow read explain b) =
      r.follow (m := Id) read explain b >>= fun r' => r'.follow read explain .switch := by
  cases b with
  | switch => rfl
  | config path =>
    cases path with
    | none => rfl
    | some path => simp [Request.follow]
  | boundary name =>
    cases hname : name.bind BoundaryRule.ofName? <;> simp [Request.follow, hname]
  | file path => cases hfile : r.file <;> simp [Request.follow, hfile]

/-- A second file name would be the problem, and which one is second depends on the order. -/
theorem follow_file_swap (hfile : r.file = none) {b : Argument} (hb : ∀ path, b ≠ .file path) (path : String) :
    (r.follow (m := Id) read explain (.file path) >>= fun r' => r'.follow read explain b) =
      r.follow (m := Id) read explain b >>= fun r' => r'.follow read explain (.file path) := by
  cases b with
  | switch => simp [Request.follow, hfile]
  | config path =>
    cases path with
    | none => simp [Request.follow, hfile]
    | some path => simp [Request.follow, hfile]
  | boundary name =>
    cases hname : name.bind BoundaryRule.ofName? <;> simp [Request.follow, hname, hfile]
  | file path => exact absurd rfl (hb path)

theorem file_of_follow {r' : Request} {b : Argument} (hb : ∀ path, b ≠ .file path)
    (h : r.follow (m := Id) read explain b = pure r') : r'.file = r.file := by
  cases b with
  | switch =>
    obtain rfl := eq_of_pure_eq h
    rfl
  | config path =>
    cases path with
    | none => cases h
    | some path =>
      rcases exists_of_except (loadOptions (m := Id) read explain path) with ⟨e, hload⟩ | ⟨o, hload⟩
      · rw [Request.follow, hload] at h
        cases h
      · simp only [Request.follow, hload, pure_bind] at h
        obtain rfl := eq_of_pure_eq h
        rfl
  | boundary name =>
    cases hname : name.bind BoundaryRule.ofName? with
    | none =>
      simp only [Request.follow, hname] at h
      cases h
    | some rule =>
      simp only [Request.follow, hname] at h
      obtain rfl := eq_of_pure_eq h
      rfl
  | file path => exact absurd rfl (hb path)

/-- The word is the switch, or the only file name of the command line. -/
def Movable (w : String) (others : List String) : Prop :=
  w = "--preview" ∨ IsName w ∧ ∀ path, .file path ∉ Argument.ofList .zigzag others

theorem foldlM_follow_move (read : String → Except ReadError String) (explain : String → String) {w : String}
    {others : List String} (h : Movable w others) :
    ∃ a : Argument, (∀ rest, Argument.ofList .zigzag (w :: rest) = a :: Argument.ofList .zigzag rest) ∧
      ∀ l m, l ++ m = Argument.ofList .zigzag others →
        (l ++ a :: m).foldlM (Request.follow (m := Id) read explain) {} =
          (Argument.ofList .zigzag others).foldlM (Request.follow (m := Id) read explain) {} >>=
            fun r => r.follow read explain a := by
  rcases h with rfl | ⟨hw, hnone⟩
  · refine ⟨.switch, Argument.ofList_preview, fun l m hsplit => ?_⟩
    rw [← hsplit]
    exact foldlM_move (P := fun _ => True) (fun b _ r _ => follow_switch_swap r b) (fun _ _ _ _ _ _ => trivial) trivial
  · refine ⟨.file w, Argument.ofList_name hw, fun l m hsplit => ?_⟩
    rw [← hsplit] at hnone ⊢
    have hothers : ∀ b ∈ l ++ m, ∀ path, b ≠ .file path := by
      rintro b hb path rfl
      exact hnone path hb
    refine foldlM_move (P := fun r => r.file = none) (fun b hb r hr => follow_file_swap hr (hothers b hb) w) ?_ rfl
    intro b hb r r' hr hfollow
    rw [file_of_follow (hothers b hb) hfollow, hr]

theorem answer_move {w : String} {before after before' after' : List String} (hw : Movable w (before ++ after))
    (h : before' ++ after' = before ++ after) (hbefore : Complete before) (hbefore' : Complete before') :
    Tool.zigzag.answer (m := Id) read explain (before' ++ w :: after') =
      Tool.zigzag.answer (m := Id) read explain (before ++ w :: after) := by
  obtain ⟨a, hcons, hmove⟩ := foldlM_follow_move read explain hw
  have hargs : Argument.ofList .zigzag before' ++ Argument.ofList .zigzag after' =
      Argument.ofList .zigzag (before ++ after) := by rw [← ofList_append hbefore', h]
  simp only [Tool.answer]
  rw [ofList_append hbefore', ofList_append hbefore, hcons, hcons, hmove _ _ hargs,
    hmove _ _ (ofList_append hbefore after).symm]

theorem run_of_answer (words : List String) :
    Tool.zigzag.run (m := Id) read explain words = .of (Tool.zigzag.answer (m := Id) read explain words).run := rfl

/-- A run prints its first problem and nothing else, or else the result for the file and the rules that the arguments
choose, in whatever place the switch and the file name are given. -/
theorem run_zigzag (read : String → Except ReadError String) (explain : String → String) (words : List String) :
    ∃ args, Walks words args ∧
      ((Tool.zigzag.run (m := Id) read explain words).stdout = "" ∧
          (Tool.zigzag.run (m := Id) read explain words).code = 1 ↔
        ∃ p, Fails read explain args p) ∧
      (∀ p, Fails read explain args p →
        Tool.zigzag.run (m := Id) read explain words = ⟨"", "Error: " ++ p.message ++ "\n", 1⟩) ∧
      ((∀ p, ¬Fails read explain args p) →
        ∃ path text o, .file path ∈ args ∧ read path = .ok text ∧ Chooses read args o ∧
          Tool.zigzag.run (m := Id) read explain words =
            ⟨if .switch ∈ args then (segment o text).previewTable ++ "\n" else optimize o text, "", 0⟩) ∧
      ∀ before w after before' after', words = before ++ w :: after → before' ++ after' = before ++ after →
        Complete before → Complete before' → Movable w (before ++ after) →
        Tool.zigzag.run (m := Id) read explain (before' ++ w :: after') =
          Tool.zigzag.run (m := Id) read explain words := by
  have hproblem : ∀ p, Fails read explain (Argument.ofList .zigzag words) p →
      Tool.zigzag.run (m := Id) read explain words = ⟨"", "Error: " ++ p.message ++ "\n", 1⟩ := by
    intro p hp
    rw [run_of_answer, answer_of_fails hp]
    rfl
  have hprinted : (∀ p, ¬Fails read explain (Argument.ofList .zigzag words) p) → ∃ path text o,
      .file path ∈ Argument.ofList .zigzag words ∧ read path = .ok text ∧
      Chooses read (Argument.ofList .zigzag words) o ∧ Tool.zigzag.run (m := Id) read explain words =
        ⟨if .switch ∈ Argument.ofList .zigzag words then (segment o text).previewTable ++ "\n" else optimize o text,
          "", 0⟩ := by
    intro h
    obtain ⟨path, text, o, hpath, hread, ho, hanswer⟩ := answer_of_not_fails h
    refine ⟨path, text, o, hpath, hread, ho, ?_⟩
    rw [run_of_answer, hanswer]
    rfl
  refine ⟨_, walks_ofList words, ⟨fun ⟨_, hcode⟩ => ?_, fun ⟨p, hp⟩ => ?_⟩, hproblem, hprinted, ?_⟩
  · by_contra hnone
    obtain ⟨path, text, o, -, -, -, hrun⟩ := hprinted (not_exists.1 hnone)
    rw [hrun] at hcode
    cases hcode
  · rw [hproblem p hp]
    exact ⟨rfl, rfl⟩
  · rintro before w after before' after' rfl h hbefore hbefore' hw
    rw [run_of_answer, run_of_answer, answer_move hw h hbefore hbefore']

/-- Of an option file that is missing and one that is empty only the second is for the reader of options to refuse. -/
theorem run_zigzag_rules :
    ∃ (read : String → Except ReadError String) (explain : String → String),
      Tool.zigzag.run (m := Id) read explain ["--config", "missing", "part", "part"] =
        ⟨"", "Error: cannot read missing: No such file or directory (os error 2)\n", 1⟩ ∧
      Tool.zigzag.run (m := Id) read explain ["part", "--config", "empty", "--config", "missing"] =
        ⟨"", "Error: invalid options in empty: EOF while parsing a value at line 1 column 0\n", 1⟩ ∧
      (∃ o, Chooses read [.config (some "rules"), .file "part"] o ∧
        Tool.zigzag.run (m := Id) read explain ["--config", "rules", "part"] =
          ⟨optimize o "N1 (A)\rG54\rG55", "", 0⟩) ∧
      Tool.zigzag.run (m := Id) read explain ["part", "--config", "rules"] =
        Tool.zigzag.run (m := Id) read explain ["--config", "rules", "part"] := by
  let read (path : String) : Except ReadError String :=
    if path = "part" then .ok "N1 (A)\rG54\rG55"
    else if path = "rules" then .ok "[\"annotated\", \"sentinel\"]"
    else if path = "empty" then .ok ""
    else .error .notFound
  let explain (text : String) : String :=
    if text = "" then "EOF while parsing a value at line 1 column 0" else "expected value at line 1 column 1"
  refine ⟨read, explain, ?_, ?_, ?_, ?_⟩
  · obtain ⟨args, hwalks, -, hproblem, -⟩ := run_zigzag read explain ["--config", "missing", "part", "part"]
    obtain rfl := hwalks.ofList_eq
    have hfirst : Argument.ofList .zigzag ["--config", "missing", "part", "part"] =
        [] ++ .config (some "missing") :: [.file "part", .file "part"] := rfl
    exact hproblem _ (.argument hfirst passes_nil (.unreadable rfl))
  · obtain ⟨args, hwalks, -, hproblem, -⟩ :=
      run_zigzag read explain ["part", "--config", "empty", "--config", "missing"]
    obtain rfl := hwalks.ofList_eq
    have hfirst : Argument.ofList .zigzag ["part", "--config", "empty", "--config", "missing"] =
        [.file "part"] ++ .config (some "empty") :: [.config (some "missing")] := rfl
    have hfile : ∀ p, ¬Argument.Raises read explain [] (.file "part") p := by
      intro p hp
      cases hp with
      | secondFile hearlier => exact absurd hearlier List.not_mem_nil
    have hpart : Passes read explain [.file "part"] := passes_nil.concat hfile
    have hempty : Options.parse? "" = none := by decide
    exact hproblem _ (.argument hfirst hpart (.invalidOptions rfl hempty))
  · obtain ⟨args, hwalks, hiff, -, hprinted, -⟩ := run_zigzag read explain ["--config", "rules", "part"]
    obtain rfl := hwalks.ofList_eq
    have hcode : (Tool.zigzag.run (m := Id) read explain ["--config", "rules", "part"]).code = 0 := rfl
    have hpasses : ∀ p, ¬Fails read explain (Argument.ofList .zigzag ["--config", "rules", "part"]) p := fun p hp =>
      absurd ((hiff.2 ⟨p, hp⟩).2.symm.trans hcode) (by decide)
    obtain ⟨path, text, o, hpath, hread, ho, hrun⟩ := hprinted hpasses
    have hargs : Argument.ofList .zigzag ["--config", "rules", "part"] = [.config (some "rules"), .file "part"] := rfl
    rw [hargs] at hpath ho hrun
    obtain rfl : path = "part" := by simpa using hpath
    obtain rfl := Except.ok.inj hread
    exact ⟨o, ho, hrun⟩
  · obtain ⟨args, hwalks, -, -, -, hmove⟩ := run_zigzag read explain ["--config", "rules", "part"]
    have hothers : Argument.ofList .zigzag ["--config", "rules"] = [.config (some "rules")] := rfl
    refine hmove ["--config", "rules"] "part" [] [] ["--config", "rules"] rfl rfl ?_ ?_ ?_
    · simp [Complete, hothers]
    · exact List.forall_mem_nil _
    · exact .inr ⟨⟨by decide, by decide, by decide⟩, by simp [hothers]⟩

end CommandLine

end Machining
