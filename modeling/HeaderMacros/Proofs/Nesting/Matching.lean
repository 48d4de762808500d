import HeaderMacros.Proofs.Run.Trace

/-!
# Matching the lines of groups

Over the whole course of a run, a line that closes a group belongs to the last line before it that
opens one and is still without such a line, in whichever files the two stand. `unmatched` finds the
opening lines that are left, by looking at the events from the last one back.

The open groups of a run are these lines at every point (`follows_of_runs`). So a run fails at the lines
that it has to fail at, and only there, and a group that is left open is reported at the line that
opened it: `run_matches_groups`.
-/

namespace HeaderMacros.Nesting

variable {resolving : Bool} {chain : List Text} {task : Task} {s : RunState} {events : List Event}
  {out : Outcome}

/-! ## Opening lines without an end -/

/-- The number of closing lines that belong to no opening line among the events. -/
def surplus : List Event → Nat
  | [] => 0
  | .line v :: rest =>
    match role v.text with
    | .opens _ => surplus rest - 1
    | .closes => surplus rest + 1
    | _ => surplus rest
  | _ :: rest => surplus rest

/-- The places of the opening lines that no closing line belongs to, the last one first. -/
def unmatched : List Event → List Position
  | [] => []
  | .line v :: rest =>
    match role v.text with
    -- An opening line has no end exactly if the lines after it close no group but their own.
    | .opens _ => if surplus rest = 0 then unmatched rest ++ [v.place] else unmatched rest
    | _ => unmatched rest
  | _ :: rest => unmatched rest

/-- The places of the open groups after some events, one after the other. -/
def openersAfter (opened : List Position) : List Event → List Position
  | [] => opened
  | .line v :: rest => openersAfter ((role v.text).openers v.place opened) rest
  | _ :: rest => openersAfter opened rest

/-- Opening and closing groups one after the other leaves the opening lines without an end, and of
the groups that were open before those that are not closed. -/
theorem openersAfter_eq (opened : List Position) (events : List Event) :
    openersAfter opened events = unmatched events ++ opened.drop (surplus events) := by
  induction events generalizing opened with
  | nil => simp [openersAfter, unmatched, surplus]
  | cons e rest ih =>
    cases e with
    | asked | left => simpa [openersAfter, unmatched, surplus] using ih opened
    | line v =>
      simp only [openersAfter, unmatched, surplus, ih]
      cases role v.text with
      | ordinary | switches | nameless => rfl
      | closes => simp [Role.openers, List.drop_tail]
      | opens condition =>
        -- The group is left open, or the first closing line to spare closes it.
        cases hsurplus : surplus rest with
        | zero => simp [Role.openers]
        | succ n => simp [Role.openers]

theorem openersAfter_append (opened : List Position) (first second : List Event) :
    openersAfter opened (first ++ second) = openersAfter (openersAfter opened first) second := by
  induction first generalizing opened with
  | nil => rfl
  | cons e rest ih => cases e <;> exact ih _

/-! ## The open groups along a run -/

/-- At every line of some events the open groups are those opened before and not closed. -/
def Follows (opened : List Position) : List Event → Prop
  | [] => True
  | .line v :: rest => v.state.groups.map Scope.opened = opened ∧
    Follows ((role v.text).openers v.place opened) rest
  | _ :: rest => Follows opened rest

theorem follows_append {opened : List Position} {first second : List Event} :
    Follows opened (first ++ second) ↔
      Follows opened first ∧ Follows (openersAfter opened first) second := by
  induction first generalizing opened with
  | nil => simp [Follows, openersAfter]
  | cons e rest ih =>
    cases e with
    | line v => simp [Follows, openersAfter, ih, and_assoc]
    | asked | left => simpa [Follows, openersAfter] using ih

/-- The open groups follow the events of a run, from whatever groups were open before. -/
theorem follows_of_runs (h : Runs resolving chain task s events out)
    (hs : s.file = chain.headD RunState.rootFile) :
    Follows (s.groups.map Scope.opened) events ∧ (out.fault = none →
      out.state.groups.map Scope.opened = openersAfter (s.groups.map Scope.opened) events) := by
  induction h with
  | done => exact ⟨trivial, fun _ => rfl⟩
  | failed => exact ⟨⟨rfl, trivial⟩, fun hfault => by cases hfault⟩
  | @proceeded chain number text _ s _ _ _ hline _ ih =>
    have hspec := readLine_spec (s.atLine number) text
    rw [hline] at hspec
    obtain ⟨hsame, hgroups⟩ := hspec
    rw [position_atLine hs number text] at hgroups
    obtain ⟨hfollows, hopened⟩ := ih (hsame.file.trans hs)
    rw [hgroups] at hfollows hopened
    exact ⟨⟨rfl, hfollows⟩, hopened⟩
  | stopped hline _ hout ih =>
    -- A line with an include is ordinary, so what is open stays so.
    refine ⟨⟨rfl, ?_⟩, fun hfault => by rw [hout] at hfault; cases hfault⟩
    rw [role_of_enter hline]
    exact follows_append.2 ⟨(ih hs).1, trivial⟩
  | included hline henter hout _ ihenter ihrest =>
    obtain ⟨hfollows, hopened⟩ := ihenter hs
    -- The lines after the include start with the groups that the included file leaves open.
    obtain ⟨hfollows', hopened'⟩ := ihrest (henter.file_eq.trans hs)
    rw [hopened hout] at hfollows' hopened'
    refine ⟨⟨rfl, ?_⟩, fun hfault => (hopened' hfault).trans ?_⟩
    · rw [role_of_enter hline]
      exact follows_append.2 ⟨hfollows, hfollows'⟩
    · rw [openersAfter, role_of_enter hline, openersAfter_append]
      rfl
  | skipped => exact ⟨trivial, fun _ => rfl⟩
  | sourceless | refused | tooDeep | unterminated => exact ⟨trivial, fun hfault => by cases hfault⟩
  | answered _ _ _ ih => exact ih rfl
  | read _ _ ih => exact ih hs

/-! ## Lines that fail -/

/-- A line that fails ends the run, with its cause and at its place. -/
theorem fault_of_line (h : Runs resolving chain task s events out) {v : Visit}
    (hv : .line v ∈ events) {cause : Cause} (hread : v.state.readLine v.text = .error cause) :
    out.fault = some ⟨v.state.position, cause⟩ := by
  induction h with
  | done | skipped | sourceless | tooDeep | unterminated => cases hv
  | failed hline =>
    obtain ⟨rfl⟩ := by simpa using hv
    rw [hline] at hread
    cases hread
    rfl
  | proceeded hline _ ih =>
    rcases List.mem_cons.1 hv with heq | hv
    · cases heq
      rw [hline] at hread
      cases hread
    · exact ih hv
  | stopped hline _ _ ih =>
    rcases line_mem_include.1 hv with rfl | hv | hv
    · rw [hline] at hread
      cases hread
    · exact ih hv
    · cases hv
  | included hline _ hout _ ihenter ihrest =>
    rcases line_mem_include.1 hv with rfl | hv | hv
    · rw [hline] at hread
      cases hread
    · -- An include that comes back without a fault has no line that fails.
      rw [ihenter hv] at hout
      cases hout
    · exact ihrest hv
  | refused => simp at hv
  | answered _ _ _ ih => exact ih (by simpa using hv)
  | read _ _ ih => exact ih hv

theorem readLine_closes_error_iff {text : Text} (hrole : role text = .closes) (cause : Cause) :
    s.readLine text = .error cause ↔ s.groups = [] ∧ cause = .malformed .endifOutside [] := by
  rw [readLine_eq_followRole, hrole, followRole, closeGroup]
  cases s.groups with
  | nil => simp [Groups.pop, Except.map, eq_comm]
  | cons top outer => simp [Groups.pop, Except.map]

theorem readLine_otherwise_error_iff {text : Text} (hrole : role text = .switches none)
    (cause : Cause) :
    s.readLine text = .error cause ↔ s.groups = [] ∧ cause = .malformed .elseOutside [] := by
  rw [readLine_eq_followRole, hrole, followRole, switchBranch]
  cases s.groups with
  | nil => simp [Groups.orElse, Except.map, eq_comm]
  | cons top outer =>
    rw [Groups.orElse]
    split_ifs <;> simp [Except.map]

/-- The condition of a further branch is evaluated if no branch of the group has been active yet and
the group itself is not skipped. -/
def Evaluates (groups : Groups) : Prop :=
  ∃ top outer, groups = top :: outer ∧ top.active = false ∧ top.taken = false ∧
    Groups.active outer = true

theorem readLine_elif_error_iff {text : Text} {condition : List Token}
    (hrole : role text = .switches (some condition)) (cause : Cause) :
    s.readLine text = .error cause ↔ s.groups = [] ∧ cause = .malformed .elifOutside [] ∨
      Evaluates s.groups ∧ s.evaluate condition = .error cause := by
  rw [readLine_eq_followRole, hrole, followRole, switchBranch, RunState.nextBranch]
  cases s.groups with
  | nil =>
    constructor
    · intro h
      cases h
      exact .inl ⟨rfl, rfl⟩
    · rintro (⟨-, rfl⟩ | ⟨⟨_, _, hnil, -⟩, -⟩)
      · rfl
      · cases hnil
  | cons top outer =>
    rw [Groups.elif]
    split_ifs with htop houter
    · -- A branch has been active, so the condition is not looked at.
      refine iff_of_false (by simp [Except.map]) ?_
      rintro (⟨hnil, -⟩ | ⟨⟨_, _, hcons, hactive, htaken, -⟩, -⟩)
      · cases hnil
      · cases hcons
        simp [hactive, htaken] at htop
    · have hevaluates : Evaluates (top :: outer) := by
        simp only [Bool.or_eq_true, not_or, Bool.not_eq_true] at htop
        exact ⟨top, outer, rfl, htop.1, htop.2, houter⟩
      cases s.evaluate condition <;> simp [Except.map, hevaluates]
    · -- The group is skipped as a whole.
      refine iff_of_false (by simp [Except.map]) ?_
      rintro (⟨hnil, -⟩ | ⟨⟨_, _, hcons, -, -, hactive⟩, -⟩)
      · cases hnil
      · cases hcons
        exact houter hactive

/-! ## Whole runs -/

/-- How the nesting of groups is checked at a line, after the events `past` of a run whose lines come
to the outcome `last`. -/
structure Checked (past : List Event) (v : Visit) (last : Outcome) : Prop where
  /-- The open groups are the opening lines that have no end yet. -/
  opened : v.state.groups.map Scope.opened = unmatched past
  /-- A line that fails ends the run, at its place. -/
  fails : ∀ cause, v.state.readLine v.text = .error cause → last.fault = some ⟨v.place, cause⟩
  /-- The end of a group fails exactly if no opening line is without an end. -/
  endif : role v.text = .closes → ∀ cause, v.state.readLine v.text = .error cause ↔
    unmatched past = [] ∧ cause = .malformed .endifOutside []
  /-- So does an alternative. -/
  otherwise : role v.text = .switches none → ∀ cause, v.state.readLine v.text = .error cause ↔
    unmatched past = [] ∧ cause = .malformed .elseOutside []
  /-- A further condition may also be evaluated and fail. -/
  elif : ∀ condition, role v.text = .switches (some condition) → ∀ cause,
    v.state.readLine v.text = .error cause ↔
      unmatched past = [] ∧ cause = .malformed .elifOutside [] ∨
      Evaluates v.state.groups ∧ v.state.evaluate condition = .error cause

theorem checked_of_runs {predefined : List Macro} {past future : List Event} {v : Visit}
    (h : Runs resolving [] task (RunState.initial predefined) (past ++ .line v :: future) out) :
    Checked past v out := by
  have hopened : v.state.groups.map Scope.opened = unmatched past := by
    have hhere := (follows_append.1 (follows_of_runs h rfl).1).2.1
    simpa [openersAfter_eq, RunState.initial] using hhere
  have hnil : unmatched past = [] ↔ v.state.groups = [] := by
    rw [← hopened, List.map_eq_nil_iff]
  have hmem : Event.line v ∈ past ++ .line v :: future := by simp
  have hplace : v.state.position = v.place := h.wellPlaced rfl _ hmem
  constructor
  · exact hopened
  · intro cause hread
    rw [fault_of_line h hmem hread, hplace]
  · rw [hnil]
    exact readLine_closes_error_iff
  · rw [hnil]
    exact readLine_otherwise_error_iff
  · rw [hnil]
    exact fun condition => readLine_elif_error_iff

/-- In every run the open groups are the opening lines without an end, over all files of the run, and
lines fail accordingly. A run whose lines do not fail fails itself exactly if an opening line is left
without an end, at the place of the last such line. -/
theorem run_matches_groups {m : Type → Type} [Monad m] [LawfulMonad m]
    (resolver : Option (Resolver m)) (depth : Nat) (predefined : List Macro) (text : Text) :
    Prod.fst <$> (run (resolver.map recording) depth predefined text).run [] =
        run resolver depth predefined text ∧
      SatisfiesM
        (fun (result : Outcome × List Call) => ∃ events last,
          Runs resolver.isSome [] (.text text) (RunState.initial predefined) events last ∧
          result = (last.close, callsOf events) ∧
          (∀ past v future, events = past ++ .line v :: future → Checked past v last) ∧
          (last.fault = none →
            last.state.groups.map Scope.opened = unmatched events ∧
            result.1.fault =
              (unmatched events).head?.map fun p => ⟨p, .malformed .unterminatedGroup []⟩))
        ((run (resolver.map recording) depth predefined text).run []) ∧
      Defect.unterminatedGroup.message = ascii "unterminated conditional directive" := by
  refine ⟨run_recording resolver depth predefined text [],
    (traced_run resolver depth predefined text).imp ?_, rfl⟩
  rintro _ ⟨events, last, hruns, rfl⟩
  refine ⟨events, last, hruns, rfl, ?_, fun hfault => ?_⟩
  · rintro past v future rfl
    exact checked_of_runs hruns
  · have hopened := (follows_of_runs hruns rfl).2 hfault
    simp only [RunState.initial, List.map_nil, openersAfter_eq, List.drop_nil, List.append_nil]
      at hopened
    refine ⟨hopened, ?_⟩
    rw [Outcome.close, hfault, ← hopened]
    simp [Groups.unclosed?, Option.map_map]

/-- A group that an included file opens and the document closes. -/
def sharedGroup : Id (Outcome × List Call) :=
  (run (some (recording (FileSet.resolver [(ascii "a.h", ascii "#if 0\n#ifdef A")]))) 2 []
    (ascii "#include <a.h>\n#endif\n#else\n#define B\n#endif")).run []

theorem run_matches_groups_sharedGroup :
    sharedGroup.1.fault = none ∧ ∃ events last,
      Runs true [] (.text (ascii "#include <a.h>\n#endif\n#else\n#define B\n#endif"))
        (RunState.initial []) events last ∧
      sharedGroup = (last.close, callsOf events) ∧ unmatched events = [] := by
  obtain ⟨events, last, hruns, hout, -, hend⟩ := SatisfiesM_Id_eq.1 (run_matches_groups (m := Id)
    (some (FileSet.resolver [(ascii "a.h", ascii "#if 0\n#ifdef A")])) 2 []
    (ascii "#include <a.h>\n#endif\n#else\n#define B\n#endif")).2.1
  have hfault : sharedGroup.1.fault = none := by decide +kernel
  have hlast : last.fault = none := by
    -- The end of a run keeps a fault of its lines.
    by_contra hsome
    obtain ⟨f, hf⟩ := Option.ne_none_iff_exists'.1 hsome
    have hclose : last.close.fault = some f := by rw [Outcome.close, hf]; exact hf
    cases hfault.symm.trans ((congrArg (fun result => result.1.fault) hout).trans hclose)
  refine ⟨hfault, events, last, hruns, hout, ?_⟩
  have hnone := (hend hlast).2.symm.trans hfault
  simpa using hnone

end HeaderMacros.Nesting
