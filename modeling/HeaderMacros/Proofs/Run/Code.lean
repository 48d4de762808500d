import HeaderMacros.Run.Process
import Mathlib.Data.List.Forall2

/-!
# Code does not matter

The lines of a document that are no directives are kept as code. Nothing that a run does later looks
at them: two runs over documents that differ in such lines only come to the same end but for the
code (`run_withoutCode`), with the same macros, the same files and the same fault.

A state is compared with another one by leaving out the code of both. Reading a line commutes with
that, and from one line it is carried over the lines of a text and over the files that they include.
In any monad, computations that are compared by what a function shows of their results are put
together by `map_bind_congr`.
-/

namespace HeaderMacros

/-- A line that is no directive. -/
def IsCode (line : Text) : Prop := Directive.ofTokens? (Token.tokenize line) = none

instance (line : Text) : Decidable (IsCode line) :=
  inferInstanceAs (Decidable (Directive.ofTokens? (Token.tokenize line) = none))

/-- Two lines that are the same, or are no directives both. -/
def SameButCode (line line' : Text) : Prop := line = line' ∨ (IsCode line ∧ IsCode line')

/-- Two documents with the same comment that is never closed, or with the same lines but for those
that are no directives. -/
inductive AlikeButCode (text text' : Text) : Prop
  /-- A comment opens on the same line and is never closed. -/
  | unclosed (line : Nat) (h : Source.normalize text = .error line)
      (h' : Source.normalize text' = .error line)
  /-- The normalized lines are the same but for those that are no directives. -/
  | normalized {out out' : Text} (h : Source.normalize text = .ok out)
      (h' : Source.normalize text' = .ok out')
      (hlines : List.Forall₂ SameButCode (Text.lines out) (Text.lines out'))

theorem AlikeButCode.refl (text : Text) : AlikeButCode text text := by
  cases h : Source.normalize text with
  | error line => exact .unclosed line h h
  | ok out => exact .normalized h h (List.forall₂_same.2 fun line _ => .inl rfl)

/-! ## One line -/

namespace RunState

/-- A state without the code collected so far. -/
def withoutCode (s : RunState) : RunState := { s with code := [] }

/-- What a line comes to, without the code collected so far. -/
def Action.withoutCode : Action → Action
  | .proceed s => .proceed s.withoutCode
  | .enter request => .enter request

@[simp]
theorem groups_withoutCode (s : RunState) : s.withoutCode.groups = s.groups := rfl

@[simp]
theorem evaluate_withoutCode (s : RunState) (condition : List Token) :
    s.withoutCode.evaluate condition = s.evaluate condition := rfl

theorem openGroup_withoutCode (s : RunState) (condition : List Token) :
    s.withoutCode.openGroup condition = (s.openGroup condition).map withoutCode := by
  rw [openGroup, openGroup, groups_withoutCode, evaluate_withoutCode]
  split_ifs
  · cases s.evaluate condition <;> rfl
  · rfl

theorem nextBranch_withoutCode (s : RunState) (condition : List Token) :
    s.withoutCode.nextBranch condition = (s.nextBranch condition).map withoutCode := by
  rw [nextBranch, nextBranch, groups_withoutCode, evaluate_withoutCode]
  cases s.groups.elif with
  | error cause => rfl
  | ok branch =>
    cases branch with
    | settled g => rfl
    | depends next => cases s.evaluate condition <;> rfl

theorem followGroup_withoutCode (s : RunState) (d : GroupDirective) (params : List Token) :
    s.withoutCode.followGroup d params = (s.followGroup d params).map withoutCode := by
  cases d with
  | ifdef =>
    cases params with
    | nil => rfl
    | cons name rest => exact openGroup_withoutCode s _
  | ifndef =>
    cases params with
    | nil => rfl
    | cons name rest => exact openGroup_withoutCode s _
  | opening => exact openGroup_withoutCode s params
  | elif => exact nextBranch_withoutCode s params
  | otherwise =>
    show s.groups.orElse.map _ = (s.groups.orElse.map _).map _
    cases s.groups.orElse <;> rfl
  | endif =>
    show s.groups.pop.map _ = (s.groups.pop.map _).map _
    cases s.groups.pop <;> rfl

theorem followActive_withoutCode (s : RunState) (d : Directive) :
    s.withoutCode.followActive d = (s.followActive d).map Action.withoutCode := by
  unfold followActive
  split_ifs
  · cases Macro.ofTokens d.params <;> rfl
  · cases undefinedName d.params <;> rfl
  · cases Include.ofTokens d.params <;> rfl
  · rfl

/-- A directive does not look at the code. -/
theorem follow_withoutCode (s : RunState) (d : Directive) :
    s.withoutCode.follow d = (s.follow d).map Action.withoutCode := by
  rw [follow, follow, groups_withoutCode, followActive_withoutCode]
  by_cases hname : d.name = []
  · rw [if_pos hname, if_pos hname]
    rfl
  · rw [if_neg hname, if_neg hname]
    cases GroupDirective.ofName? d.name with
    | some g =>
      dsimp only
      rw [followGroup_withoutCode]
      cases s.followGroup g d.params <;> rfl
    | none =>
      dsimp only
      split_ifs <;> rfl

theorem keepCode_withoutCode (s : RunState) (ts : List Token) :
    (s.keepCode ts).withoutCode = s.withoutCode := by
  unfold keepCode
  split_ifs <;> rfl

/-- A line that is no directive changes nothing but the code. -/
theorem readLine_of_isCode {line : Text} (h : IsCode line) (s : RunState) :
    (s.readLine line).map Action.withoutCode = .ok (.proceed s.withoutCode) := by
  unfold readLine
  split_ifs
  · rfl
  · rw [IsCode] at h
    rw [h]
    show Except.ok (Action.proceed (s.keepCode _).withoutCode) = _
    rw [keepCode_withoutCode]

/-- A line does not look at the code. -/
theorem readLine_withoutCode (s : RunState) (line : Text) :
    (s.withoutCode.readLine line).map Action.withoutCode =
      (s.readLine line).map Action.withoutCode := by
  by_cases h : IsCode line
  · rw [readLine_of_isCode h, readLine_of_isCode h]
    rfl
  · unfold readLine
    split_ifs
    · rfl
    · split
      · rw [follow_withoutCode]
        cases s.follow _ with
        | error cause => rfl
        | ok action => cases action <;> rfl
      · rename_i hcode
        exact absurd hcode h

/-- What one step of a run preserves: from states that are the same but for the code, two lines that
are the same or no directives both fail with one cause, go on in such states or ask for one file. -/
theorem readLine_cases {s t : RunState} {line line' : Text}
    (hs : s.withoutCode = t.withoutCode) (hline : SameButCode line line') :
    (∃ cause, s.readLine line = .error cause ∧ t.readLine line' = .error cause) ∨
    (∃ next next', s.readLine line = .ok (.proceed next) ∧ t.readLine line' = .ok (.proceed next') ∧
      next.withoutCode = next'.withoutCode) ∨
    ∃ request, s.readLine line = .ok (.enter request) ∧
      t.readLine line' = .ok (.enter request) := by
  have hread : (s.readLine line).map Action.withoutCode =
      (t.readLine line').map Action.withoutCode := by
    rcases hline with rfl | ⟨hcode, hcode'⟩
    · rw [← readLine_withoutCode s, hs, readLine_withoutCode t]
    · rw [readLine_of_isCode hcode, readLine_of_isCode hcode', hs]
  generalize s.readLine line = read at hread ⊢
  generalize t.readLine line' = read' at hread ⊢
  rcases read with cause | ⟨next⟩ | ⟨request⟩ <;> rcases read' with cause' | ⟨next'⟩ | ⟨request'⟩
  all_goals simp only [Except.map, Action.withoutCode, Except.error.injEq, Except.ok.injEq,
    Action.proceed.injEq, Action.enter.injEq, reduceCtorEq] at hread
  · exact .inl ⟨cause, rfl, by rw [hread]⟩
  · exact .inr (.inl ⟨next, next', rfl, rfl, hread⟩)
  · exact .inr (.inr ⟨request, rfl, by rw [hread]⟩)

end RunState

/-! ## Computations that look alike -/

/-- Two computations look alike, if their first parts do and what follows looks alike after results
that do. -/
theorem map_bind_congr {m : Type → Type} [Monad m] [LawfulMonad m] {α β γ δ : Type} {view : α → β}
    {shown : γ → δ} {x y : m α} {f g : α → m γ} (hxy : view <$> x = view <$> y)
    (hfg : ∀ a b, view a = view b → shown <$> f a = shown <$> g b) :
    shown <$> (x >>= f) = shown <$> (y >>= g) := by
  -- What is shown after a result depends on what is seen of it only.
  have hfactors : Function.FactorsThrough (fun a => shown <$> f a) view := fun a b hab =>
    (hfg a b hab).trans (hfg b b rfl).symm
  have : Nonempty (m δ) := ⟨shown <$> (x >>= f)⟩
  obtain ⟨next, hnext⟩ := (Function.factorsThrough_iff _).1 hfactors
  have hf (a : α) : shown <$> f a = next (view a) := congrFun hnext a
  have hg (a : α) : shown <$> g a = next (view a) := (hfg a a rfl).symm.trans (hf a)
  calc shown <$> (x >>= f) = view <$> x >>= next := by simp only [map_bind, bind_map_left, hf]
    _ = view <$> y >>= next := by rw [hxy]
    _ = shown <$> (y >>= g) := by simp only [map_bind, bind_map_left, hg]

/-! ## Whole runs -/

/-- The end of a run, without the code collected. -/
def Outcome.withoutCode (out : Outcome) : Outcome := { out with state := out.state.withoutCode }

variable {m : Type → Type} [Monad m]

namespace RunState

/-- A way to go on from a state that does not look at the code. -/
def IgnoresCode (next : RunState → m Outcome) : Prop :=
  ∀ s : RunState, Outcome.withoutCode <$> next s.withoutCode = Outcome.withoutCode <$> next s

theorem IgnoresCode.eq_of_withoutCode {next : RunState → m Outcome} (h : IgnoresCode next)
    {s t : RunState} (hs : s.withoutCode = t.withoutCode) :
    Outcome.withoutCode <$> next s = Outcome.withoutCode <$> next t := by
  rw [← h s, hs, h t]

variable [LawfulMonad m]

/-- What the lines of a text preserve. -/
theorem readLines_withoutCode {enter : RunState → Include → m Outcome}
    (henter : ∀ request, IgnoresCode (enter · request)) {lines lines' : List Text}
    (hlines : List.Forall₂ SameButCode lines lines') {s t : RunState}
    (hs : s.withoutCode = t.withoutCode) (number : Nat) :
    Outcome.withoutCode <$> readLines enter s number lines =
      Outcome.withoutCode <$> readLines enter t number lines' := by
  induction hlines generalizing s t number with
  | nil =>
    rw [readLines, readLines, map_pure, map_pure, Outcome.withoutCode, hs]
    rfl
  | @cons line line' rest rest' hline hrest ih =>
    have hhere : ({ s with line := number } : RunState).withoutCode =
        ({ t with line := number } : RunState).withoutCode :=
      congrArg (fun s : RunState => { s with line := number }) hs
    rw [readLines, readLines]
    generalize ({ s with line := number } : RunState) = here at hhere
    generalize ({ t with line := number } : RunState) = here' at hhere
    rcases readLine_cases hhere hline with ⟨cause, hread, hread'⟩ |
      ⟨next, next', hread, hread', hnext⟩ | ⟨request, hread, hread'⟩
    · have hplace : here.position = here'.position := (congrArg position hhere :)
      simp only [hread, hread', map_pure, Outcome.withoutCode, hhere, hplace]
    · simp only [hread, hread']
      exact ih hnext (number + 1)
    · simp only [hread, hread']
      refine map_bind_congr ((henter request).eq_of_withoutCode hhere) fun out out' hout => ?_
      -- What came back has the same fault in both runs, and without one both go on.
      have hfault : out.fault = out'.fault := (congrArg Outcome.fault hout :)
      have hstate : out.state.withoutCode = out'.state.withoutCode := congrArg Outcome.state hout
      rw [hfault]
      cases out'.fault with
      | some fault => simp only [map_pure, hout]
      | none => exact ih hstate (number + 1)

/-- Following an include does not look at the code, if reading the text behind it does not. -/
theorem ignoresCode_enter (resolver : Option (Resolver m)) {process : RunState → Text → m Outcome}
    (hprocess : ∀ text, IgnoresCode (process · text)) (request : Include) :
    IgnoresCode (enter resolver process · request) := by
  intro s
  show Outcome.withoutCode <$> (if Text.toLower request.name ∈ s.processed then _ else _) =
    Outcome.withoutCode <$> (if Text.toLower request.name ∈ s.processed then _ else _)
  split_ifs
  · rw [map_pure, map_pure]
    rfl
  · cases resolver with
    | none =>
      rw [map_pure, map_pure]
      rfl
    | some resolve =>
      dsimp only
      rw [map_bind, map_bind]
      refine bind_congr fun answer => ?_
      cases answer with
      | error failure =>
        simp only [map_pure]
        rfl
      | ok text =>
        refine map_bind_congr ((hprocess text).eq_of_withoutCode rfl) fun out out' hout => ?_
        -- The state goes back to its place, which is the same in both runs.
        rw [map_pure, map_pure]
        exact congrArg (fun out : Outcome => (pure
          { out with state := { out.state with file := s.file, line := s.line } } : m Outcome)) hout

/-- Documents that are the same but for lines that are no directives are read to the same end. -/
theorem process_withoutCode (resolver : Option (Resolver m)) (depth : Nat) {text text' : Text}
    (htext : AlikeButCode text text') {s t : RunState} (hs : s.withoutCode = t.withoutCode) :
    Outcome.withoutCode <$> process resolver depth s text =
      Outcome.withoutCode <$> process resolver depth t text' := by
  induction depth generalizing s t text text' with
  | zero =>
    have hplace : s.position = t.position := (congrArg position hs :)
    simp only [process, map_pure, Outcome.withoutCode, hs, hplace]
  | succ depth ih =>
    rw [process, process]
    cases htext with
    | unclosed line h h' =>
      have hfile : s.file = t.file := (congrArg RunState.file hs :)
      simp only [h, h', map_pure, Outcome.withoutCode, hs, hfile]
    | normalized h h' hlines =>
      simp only [h, h']
      -- The files that are included are the same in both runs.
      have hprocess (text : Text) : IgnoresCode (process resolver depth · text) := by
        intro s
        exact ih (AlikeButCode.refl text) rfl
      exact readLines_withoutCode (ignoresCode_enter resolver hprocess) hlines hs 1

end RunState

theorem Outcome.close_withoutCode (out : Outcome) :
    out.withoutCode.close = out.close.withoutCode := by
  obtain ⟨state, fault⟩ := out
  cases fault <;> rfl

/-- Runs over documents that are the same but for lines that are no directives come to the same end
but for the code. -/
theorem run_withoutCode [LawfulMonad m] (resolver : Option (Resolver m)) (depth : Nat)
    (predefined : List Macro) {text text' : Text} (htext : AlikeButCode text text') :
    Outcome.withoutCode <$> run resolver depth predefined text =
      Outcome.withoutCode <$> run resolver depth predefined text' := by
  refine map_bind_congr (RunState.process_withoutCode resolver depth htext rfl) ?_
  intro out out' hout
  rw [map_pure, map_pure, ← Outcome.close_withoutCode, ← Outcome.close_withoutCode, hout]

end HeaderMacros
