import HeaderMacros.Proofs.Condition.Expansion
import HeaderMacros.Proofs.Nesting.Skipping

/-!
# What a line can do

Everything that a line can do to the files and to the open groups of a run, said once
(`readLine_spec`). A line by itself leaves the files alone. It opens a group at its place or closes
the innermost one, if that is its part; going on to another branch leaves every group where it was
opened. What it fails with is a cause in the source.
-/

namespace HeaderMacros

/-- A cause in the source: it is malformed, or an expression has no value. -/
def Cause.OfSource : Cause → Prop
  | .malformed _ _ | .valueless _ _ => True
  | .unresolved _ _ | .nestedTooDeeply => False

/-! ## Causes -/

theorem Cause.ofSource_of_map {α β : Type} {x : Except Cause α} {f : α → β} {cause : Cause}
    (hx : ∀ cause, x = .error cause → cause.OfSource) (h : x.map f = .error cause) :
    cause.OfSource := by
  cases x with
  | error c =>
    cases h
    exact hx _ rfl
  | ok a => cases h

namespace Condition

theorem ofSource_of_reduce {expanded : Except Cause (List Token)} {cause : Cause}
    (hexpanded : ∀ cause, expanded = .error cause → cause.OfSource)
    (h : expanded.bind reduce = .error cause) : cause.OfSource := by
  cases expanded with
  | error c =>
    cases h
    exact hexpanded _ rfl
  | ok ts =>
    obtain ⟨defect, expression, rfl⟩ := reduceSolid_eq_error h
    trivial

theorem Expands.ofSource {lookup : Lookup} {steps : Nat} {ts : List Token}
    {calls : List (List Token)} {out : Counted (List Token)}
    (h : Expands lookup steps ts calls out) (cause : Cause) (hout : out.outcome = .error cause) :
    cause.OfSource := by
  induction h generalizing cause with
  | exhausted =>
    cases hout
    trivial
  | failed _ hstep =>
    obtain ⟨defect, near, rfl, -⟩ := malformed_of_expandOnce hstep
    cases hout
    trivial
  | finished => cases hout
  | expanded _ _ _ ih => exact ih cause hout
  | nestedFailed _ _ _ hsub ih =>
    cases hout
    exact ofSource_of_reduce ih hsub
  | nested _ _ _ _ _ _ ihnext => exact ihnext cause hout

theorem ofSource_of_evaluate {lookup : Lookup} {ts : List Token} (cause : Cause)
    (h : evaluate lookup ts = .error cause) : cause.OfSource := by
  obtain ⟨calls, hrun⟩ := expands_expand lookup ts
  exact Cause.ofSource_of_map (fun _ => ofSource_of_reduce hrun.ofSource) h

end Condition

theorem Macro.ofSource_of_ofTokens {params : List Token} (cause : Cause)
    (h : Macro.ofTokens params = .error cause) : cause.OfSource := by
  unfold ofTokens at h
  split at h
  · cases h
    trivial
  split_ifs at h
  · split at h
    · cases h
    split_ifs at h
    split at h
    · cases h
      trivial
    · refine Cause.ofSource_of_map (fun cause h => ?_) h
      unfold parameters at h
      split_ifs at h
      split at h
      · cases h
      · cases h
        trivial
  · cases h
    trivial

theorem Include.ofSource_of_ofTokens {params : List Token} (cause : Cause)
    (h : Include.ofTokens params = .error cause) : cause.OfSource := by
  unfold ofTokens ofText at h
  split at h
  · cases h
    trivial
  · dsimp only at h
    split_ifs at h
    · split at h
      · cases h
        trivial
      · cases h
    all_goals
      cases h
      trivial

/-! ## Lines -/

namespace RunState

/-- Two states that agree on the files of the run and on the place of the line being read. -/
structure SameFiles (s t : RunState) : Prop where
  /-- The same names count as seen. -/
  processed : t.processed = s.processed
  /-- The same files have been read. -/
  files : t.files = s.files
  /-- The same file is being read. -/
  file : t.file = s.file
  /-- The same line is being read. -/
  line : t.line = s.line

end RunState

namespace Nesting

open RunState (SameFiles)

/-- The places of the open groups, the innermost first, after a line at a given place. -/
def Role.openers (place : Position) (opened : List Position) : Role → List Position
  | .opens _ => place :: opened
  | .closes => opened.tail
  | .ordinary | .switches _ | .nameless _ => opened

/-- What a line that plays a part may come to. -/
def Role.Allows (r : Role) (s : RunState) : Except Cause RunState.Action → Prop
  | .error cause => cause.OfSource
  | .ok (.enter _) => r = .ordinary
  | .ok (.proceed next) => SameFiles s next ∧
    next.groups.map Scope.opened = r.openers s.position (s.groups.map Scope.opened)

theorem allows_followActive (s : RunState) (d : Directive) :
    Role.ordinary.Allows s (s.followActive d) := by
  unfold RunState.followActive
  split_ifs
  · cases hm : Macro.ofTokens d.params with
    | error cause => exact Macro.ofSource_of_ofTokens cause hm
    | ok m => exact ⟨⟨rfl, rfl, rfl, rfl⟩, rfl⟩
  · cases hname : RunState.undefinedName d.params with
    | error cause =>
      unfold RunState.undefinedName at hname
      split at hname
      · split_ifs at hname
        cases hname
        trivial
      · cases hname
        trivial
    | ok name => exact ⟨⟨rfl, rfl, rfl, rfl⟩, rfl⟩
  · cases hrequest : Include.ofTokens d.params with
    | error cause => exact Include.ofSource_of_ofTokens cause hrequest
    | ok request => exact rfl
  · exact ⟨⟨rfl, rfl, rfl, rfl⟩, rfl⟩

theorem allows_obey (s : RunState) (text : Text) : Role.ordinary.Allows s (obey s text) := by
  unfold obey
  split_ifs
  · exact ⟨⟨rfl, rfl, rfl, rfl⟩, rfl⟩
  split
  · exact ⟨⟨rfl, rfl, rfl, rfl⟩, rfl⟩
  split_ifs
  · exact ⟨⟨rfl, rfl, rfl, rfl⟩, rfl⟩
  · exact allows_followActive s _

theorem allows_openGroup (s : RunState) (condition : List Token) :
    (Role.opens condition).Allows s ((s.openGroup condition).map .proceed) := by
  unfold RunState.openGroup
  split_ifs
  · cases hv : s.evaluate condition with
    | error cause => exact Condition.ofSource_of_evaluate cause hv
    | ok v => exact ⟨⟨rfl, rfl, rfl, rfl⟩, rfl⟩
  · exact ⟨⟨rfl, rfl, rfl, rfl⟩, rfl⟩

/-- Going on to another branch leaves every group where it was opened. -/
theorem allows_switchBranch (s : RunState) (guard : Option (List Token)) :
    (Role.switches guard).Allows s ((switchBranch s guard).map .proceed) := by
  cases hs : s.groups with
  | nil =>
    cases guard with
    | none =>
      rw [switchBranch, hs]
      trivial
    | some condition =>
      rw [switchBranch, RunState.nextBranch, hs]
      trivial
  | cons top outer =>
    -- The new scope takes the place of the old one with the place where it was opened.
    have hkeeps (active taken : Bool) : (Role.switches guard).Allows s
        (.ok (.proceed (s.regroup (⟨active, taken, top.opened⟩ :: outer)))) :=
      ⟨⟨rfl, rfl, rfl, rfl⟩, by simp [hs, Role.openers]⟩
    cases guard with
    | none =>
      rw [switchBranch, hs, Groups.orElse]
      split_ifs <;> exact hkeeps _ _
    | some condition =>
      rw [switchBranch, RunState.nextBranch, hs, Groups.elif]
      split_ifs
      · exact hkeeps _ _
      · cases hv : s.evaluate condition with
        | error cause => exact Condition.ofSource_of_evaluate cause hv
        | ok v => exact hkeeps v v
      · exact hkeeps _ _

theorem allows_closeGroup (s : RunState) : Role.closes.Allows s ((closeGroup s).map .proceed) := by
  cases hs : s.groups with
  | nil =>
    rw [closeGroup, hs]
    trivial
  | cons top outer =>
    rw [closeGroup_cons hs]
    exact ⟨⟨rfl, rfl, rfl, rfl⟩, by simp [hs, Role.openers]⟩

/-- What reading a line may come to. -/
theorem readLine_spec (s : RunState) (text : Text) :
    (role text).Allows s (s.readLine text) := by
  rw [readLine_eq_followRole]
  cases role text with
  | ordinary =>
    rw [followRole]
    split_ifs
    · exact allows_obey s text
    · exact ⟨⟨rfl, rfl, rfl, rfl⟩, rfl⟩
  | opens condition => exact allows_openGroup s condition
  | switches guard => exact allows_switchBranch s guard
  | closes => exact allows_closeGroup s
  | nameless directive => trivial

/-- A line changes neither the files nor its place. -/
theorem sameFiles_of_readLine {s next : RunState} {text : Text}
    (h : s.readLine text = .ok (.proceed next)) : s.SameFiles next := by
  have hline := readLine_spec s text
  rw [h] at hline
  exact hline.1

/-- A line with an include is ordinary. -/
theorem role_of_enter {s : RunState} {text : Text} {request : Include}
    (h : s.readLine text = .ok (.enter request)) : role text = .ordinary := by
  have hline := readLine_spec s text
  rw [h] at hline
  exact hline

end Nesting

end HeaderMacros
