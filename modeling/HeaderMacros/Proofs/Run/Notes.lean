import HeaderMacros.Proofs.Nesting.Skipping
import HeaderMacros.Proofs.Run.Code

/-!
# Notes and the current line do not matter

A run notes each include and each ignored directive, and tells a fault by its place. Nothing that it
does later looks at the notes, and the number of the current line is set anew for each line that is
read. States that differ in these two only are therefore read on to the same end, but for the notes
and for the place of a fault: `process_unplaced` for a text, `enter_unplaced` for an include.
-/

namespace HeaderMacros

/-! ## One line -/

namespace RunState

/-- A state without its notes. -/
def quiet (s : RunState) : RunState := { s with log := [] }

/-- A state without its notes and without the number of the current line. -/
def unplaced (s : RunState) : RunState := (s.atLine 0).quiet

/-- What a line comes to, without the notes. -/
def Action.quiet : Action → Action
  | .proceed s => .proceed s.quiet
  | .enter request => .enter request

@[simp]
theorem groups_quiet (s : RunState) : s.quiet.groups = s.groups := rfl

@[simp]
theorem evaluate_quiet (s : RunState) (condition : List Token) :
    s.quiet.evaluate condition = s.evaluate condition := rfl

theorem unplaced_of_quiet {s t : RunState} (h : s.quiet = t.quiet) : s.unplaced = t.unplaced :=
  congrArg (atLine · 0) h

/-- On the same line, states without the current line are the same without their notes. -/
theorem quiet_atLine {s t : RunState} (h : s.unplaced = t.unplaced) (number : Nat) :
    (s.atLine number).quiet = (t.atLine number).quiet :=
  congrArg (atLine · number) h

/-- States that are the same but for these two differ in them only. -/
theorem exists_of_unplaced {s t : RunState} (h : s.unplaced = t.unplaced) :
    ∃ line log, t = { s with line := line, log := log } := by
  refine ⟨t.line, t.log, ?_⟩
  cases s
  cases t
  simp only [unplaced, quiet, atLine, RunState.mk.injEq] at h ⊢
  simp [h]

end RunState

namespace Nesting

open RunState (Action)

theorem followActive_quiet (s : RunState) (d : Directive) :
    (s.quiet.followActive d).map Action.quiet = (s.followActive d).map Action.quiet := by
  unfold RunState.followActive
  split_ifs
  · cases Macro.ofTokens d.params <;> rfl
  · cases RunState.undefinedName d.params <;> rfl
  · rfl
  · -- An unknown directive is noted on both sides, and both notes are left out.
    rfl

theorem obey_quiet (s : RunState) (text : Text) :
    (obey s.quiet text).map Action.quiet = (obey s text).map Action.quiet := by
  unfold obey
  split_ifs
  · rfl
  split
  · rfl
  split_ifs
  · rfl
  · exact followActive_quiet s _

theorem openGroup_quiet (s : RunState) (condition : List Token) :
    s.quiet.openGroup condition = (s.openGroup condition).map RunState.quiet := by
  rw [RunState.openGroup, RunState.openGroup, RunState.groups_quiet, RunState.evaluate_quiet]
  split_ifs
  · cases s.evaluate condition <;> rfl
  · rfl

theorem switchBranch_quiet (s : RunState) (guard : Option (List Token)) :
    switchBranch s.quiet guard = (switchBranch s guard).map RunState.quiet := by
  cases guard with
  | none =>
    rw [switchBranch, switchBranch, RunState.groups_quiet]
    cases s.groups.orElse <;> rfl
  | some condition =>
    rw [switchBranch, switchBranch, RunState.nextBranch, RunState.nextBranch,
      RunState.groups_quiet, RunState.evaluate_quiet]
    rcases s.groups.elif with cause | ⟨g⟩ | ⟨next⟩
    · rfl
    · rfl
    · cases s.evaluate condition <;> rfl

/-- A line does not look at the notes. -/
theorem readLine_quiet (s : RunState) (text : Text) :
    (s.quiet.readLine text).map Action.quiet = (s.readLine text).map Action.quiet := by
  rw [readLine_eq_followRole, readLine_eq_followRole]
  cases role text with
  | ordinary =>
    rw [followRole, followRole, RunState.groups_quiet]
    split_ifs
    · exact obey_quiet s text
    · rfl
  | opens condition =>
    rw [followRole, followRole, openGroup_quiet]
    cases s.openGroup condition <;> rfl
  | switches guard =>
    rw [followRole, followRole, switchBranch_quiet]
    cases switchBranch s guard <;> rfl
  | closes =>
    rw [followRole, followRole, closeGroup, closeGroup, RunState.groups_quiet]
    cases s.groups.pop <;> rfl
  | nameless directive => rfl

/-- What one step of a run preserves: from states that are the same but for their notes, a line
fails with one cause, goes on in such states or asks for one file. -/
theorem readLine_quiet_cases {s t : RunState} (h : s.quiet = t.quiet) (text : Text) :
    (∃ cause, s.readLine text = .error cause ∧ t.readLine text = .error cause) ∨
    (∃ next next', s.readLine text = .ok (.proceed next) ∧
      t.readLine text = .ok (.proceed next') ∧ next.quiet = next'.quiet) ∨
    ∃ request, s.readLine text = .ok (.enter request) ∧
      t.readLine text = .ok (.enter request) := by
  have hread : (s.readLine text).map Action.quiet = (t.readLine text).map Action.quiet := by
    rw [← readLine_quiet s, h, readLine_quiet t]
  -- The two readings have the same form, or leaving out the notes would show the difference.
  generalize s.readLine text = read at hread ⊢
  generalize t.readLine text = read' at hread ⊢
  rcases read with cause | ⟨next⟩ | ⟨request⟩ <;> rcases read' with cause' | ⟨next'⟩ | ⟨request'⟩
  all_goals simp only [Except.map, Action.quiet, Except.error.injEq, Except.ok.injEq,
    Action.proceed.injEq, Action.enter.injEq, reduceCtorEq] at hread
  · exact .inl ⟨cause, rfl, by rw [hread]⟩
  · exact .inr (.inl ⟨next, next', rfl, rfl, hread⟩)
  · exact .inr (.inr ⟨request, rfl, by rw [hread]⟩)

end Nesting

/-! ## Texts and includes -/

/-- What a run comes to, without the notes, the current line and the place of the fault: the state,
and what went wrong. -/
def Outcome.unplaced (out : Outcome) : RunState × Option Cause :=
  (out.state.unplaced, out.fault.map Fault.cause)

/-- Outcomes that are the same but for places have a fault both or neither. -/
theorem Outcome.fault_cases {out out' : Outcome} (h : out.unplaced = out'.unplaced) :
    (out.fault = none ∧ out'.fault = none) ∨
      ∃ fault fault', out.fault = some fault ∧ out'.fault = some fault' := by
  have hcause : out.fault.map Fault.cause = out'.fault.map Fault.cause := congrArg Prod.snd h
  cases hfault : out.fault with
  | none =>
    rw [hfault, Option.map_none, eq_comm, Option.map_eq_none_iff] at hcause
    exact .inl ⟨rfl, hcause⟩
  | some fault =>
    rw [hfault, Option.map_some, eq_comm, Option.map_eq_some_iff] at hcause
    obtain ⟨fault', hfault', -⟩ := hcause
    exact .inr ⟨fault, fault', rfl, hfault'⟩

variable {m : Type → Type} [Monad m] [LawfulMonad m]

namespace RunState

/-- A way to go on from a state that does not look at the notes and the current line. -/
def IgnoresPlace (next : RunState → m Outcome) : Prop :=
  ∀ s t : RunState, s.unplaced = t.unplaced →
    Outcome.unplaced <$> next s = Outcome.unplaced <$> next t

/-- What goes on after an outcome, unless it has a fault. -/
theorem unplaced_bind_andThen {x y : m Outcome} {f g : RunState → m Outcome}
    (hxy : Outcome.unplaced <$> x = Outcome.unplaced <$> y)
    (hfg : ∀ s t, s.unplaced = t.unplaced → Outcome.unplaced <$> f s = Outcome.unplaced <$> g t) :
    Outcome.unplaced <$> (x >>= Nesting.andThen f) =
      Outcome.unplaced <$> (y >>= Nesting.andThen g) := by
  refine map_bind_congr hxy ?_
  intro out out' hout
  unfold Nesting.andThen
  rcases Outcome.fault_cases hout with ⟨hnone, hnone'⟩ | ⟨fault, fault', hsome, hsome'⟩
  · simp only [hnone, hnone']
    exact hfg _ _ (congrArg Prod.fst hout)
  · simp only [hsome, hsome', map_pure, hout]

/-- The lines of a text do not look at the notes and the current line, if following an include does
not. -/
theorem readLines_unplaced {enter : RunState → Include → m Outcome}
    (henter : ∀ request, IgnoresPlace (enter · request)) (number : Nat) (lines : List Text) :
    IgnoresPlace (readLines enter · number lines) := by
  intro s t hs
  induction lines generalizing s t number with
  | nil => simp only [readLines, map_pure, Outcome.unplaced, hs]
  | cons line rest ih =>
    -- Both states get the number of the line, so only their notes can differ when it is read.
    have hhere : (s.atLine number).quiet = (t.atLine number).quiet := quiet_atLine hs number
    rcases Nesting.readLine_quiet_cases hhere line with ⟨cause, hread, hread'⟩ |
      ⟨next, next', hread, hread', hnext⟩ | ⟨request, hread, hread'⟩
    all_goals rw [Nesting.readLine_eq_followRole] at hread hread'
    · simp only [Nesting.readLines_cons_of_error enter hread,
        Nesting.readLines_cons_of_error enter hread', map_pure, Nesting.failHere, Outcome.unplaced,
        Option.map_some, unplaced_of_quiet hhere]
    · simp only [Nesting.readLines_cons_of_proceed enter hread,
        Nesting.readLines_cons_of_proceed enter hread']
      exact ih (number + 1) next next' (unplaced_of_quiet hnext)
    · simp only [Nesting.readLines_cons_of_enter enter hread,
        Nesting.readLines_cons_of_enter enter hread']
      exact unplaced_bind_andThen (henter request _ _ (unplaced_of_quiet hhere))
        (ih (number + 1))

/-- Following an include does not look at the notes and the current line, if reading the text behind
it does not. -/
theorem enter_unplaced (resolver : Option (Resolver m)) {process : RunState → Text → m Outcome}
    (hprocess : ∀ text, IgnoresPlace (process · text)) (request : Include) :
    IgnoresPlace (enter resolver process · request) := by
  intro s t hs
  obtain ⟨line, log, rfl⟩ := exists_of_unplaced hs
  -- Whether the file was seen before and what the resolver is asked do not depend on the two.
  show Outcome.unplaced <$> (if Text.toLower request.name ∈ s.processed then _ else _) =
    Outcome.unplaced <$> (if Text.toLower request.name ∈ s.processed then _ else _)
  split_ifs
  · rw [map_pure, map_pure]
    rfl
  · cases resolver with
    | none =>
      rw [map_pure, map_pure]
      rfl
    | some resolve =>
      dsimp only
      rw [map_bind, map_bind]
      refine bind_congr ?_
      intro answer
      cases answer with
      | error failure =>
        simp only [map_pure]
        rfl
      | ok text =>
        refine map_bind_congr (hprocess text _ _ rfl) ?_
        intro out out' hout
        -- The state goes back to the file of the include, which is the same for both.
        rw [map_pure, map_pure]
        exact congrArg (fun seen : RunState × Option Cause =>
          (pure ({ seen.1 with file := s.file }, seen.2) : m (RunState × Option Cause))) hout

/-- Reading a text does not look at the notes and the current line. -/
theorem process_unplaced (resolver : Option (Resolver m)) (depth : Nat) (text : Text) :
    IgnoresPlace (process resolver depth · text) := by
  -- The files that a text includes are read with one level less.
  induction depth generalizing text with
  | zero =>
    intro s t hs
    simp only [process, map_pure, Outcome.unplaced, Option.map_some, hs]
  | succ depth ih =>
    intro s t hs
    show Outcome.unplaced <$> process resolver (depth + 1) s text =
      Outcome.unplaced <$> process resolver (depth + 1) t text
    rw [process, process]
    cases Source.normalize text with
    | error line => simp only [map_pure, Outcome.unplaced, Option.map_some, hs]
    | ok normalized => exact readLines_unplaced (enter_unplaced resolver ih) 1 _ s t hs

end RunState

/-- Whether a group is still open does not depend on the notes and the current line. -/
theorem Outcome.close_unplaced {out out' : Outcome} (h : out.unplaced = out'.unplaced) :
    out.close.unplaced = out'.close.unplaced := by
  have hstate : out.state.unplaced = out'.state.unplaced := congrArg Prod.fst h
  have hgroups : out.state.groups = out'.state.groups := (congrArg RunState.groups hstate :)
  unfold Outcome.close
  rcases fault_cases h with ⟨hnone, hnone'⟩ | ⟨fault, fault', hsome, hsome'⟩
  · simp only [hnone, hnone', Outcome.unplaced, hstate, hgroups]
  · simp only [hsome, hsome', h]

end HeaderMacros
