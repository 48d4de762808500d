import HeaderMacros.Proofs.Nesting.Meaning

/-!
# What a line does by its part, and what is skipped

Reading a line, told by the part it plays in groups. From that, what reading a block does where it
is skipped: nothing.

* `readLines_skipped_block`: a skipped block leaves the state as it is.
* `readLines_finished_branches`: of a group no branch of which can become active any more, only the
  closing line has an effect.
-/

namespace HeaderMacros.Nesting

open RunState (GroupDirective readLines)

/-! ## One line -/

/-- Goes on to the next branch of the innermost group. -/
def switchBranch (s : RunState) : Option (List Token) → Except Cause RunState
  | none => s.groups.orElse.map s.regroup
  | some condition => s.nextBranch condition

/-- Closes the innermost group. -/
def closeGroup (s : RunState) : Except Cause RunState :=
  s.groups.pop.map s.regroup

/-- What a line comes to, given the part it plays. -/
def followRole (s : RunState) (text : Text) : Role → Except Cause RunState.Action
  | .ordinary => if s.groups.active then obey s text else .ok (.proceed s)
  | .opens condition => (s.openGroup condition).map .proceed
  | .switches guard => (switchBranch s guard).map .proceed
  | .closes => (closeGroup s).map .proceed
  | .nameless directive => .error (.malformed (.missingName directive) [])

theorem map_followGroup (s : RunState) (text : Text) (d : GroupDirective) (params : List Token) :
    (s.followGroup d params).map .proceed = followRole s text (.ofGroup d params) := by
  cases d <;> cases params <;> rfl

theorem ofName?_nil : GroupDirective.ofName? [] = none := by
  decide

/-- A line is followed by the part it plays. -/
theorem readLine_eq_followRole (s : RunState) (text : Text) :
    s.readLine text = followRole s text (role text) := by
  unfold RunState.readLine role
  by_cases hblank : Text.isBlank text
  · simp only [hblank, if_true, followRole, obey, ite_self]
  · rw [if_neg hblank, if_neg hblank]
    cases hd : Directive.ofTokens? (Token.tokenize text) with
    | none =>
      simp only [followRole, obey, if_neg hblank, hd, RunState.keepCode]
      split <;> rfl
    | some d =>
      simp only [RunState.follow]
      cases hg : GroupDirective.ofName? d.name with
      | some g =>
        -- No directive for groups has an empty name, so the test for one does not apply.
        have hname : d.name ≠ [] := by
          intro hnil
          rw [hnil, ofName?_nil] at hg
          exact absurd hg (by simp)
        rw [if_neg hname]
        exact map_followGroup s text g d.params
      | none =>
        simp only [followRole, obey, if_neg hblank, hd]
        split <;> simp

/-! ## Skipped lines -/

variable {m : Type → Type} [Monad m] (enter : RunState → Include → m Outcome)

theorem readLines_atLine (s : RunState) (line number : Nat) (text : Text) (rest : List Text) :
    readLines enter (s.atLine line) number (text :: rest) =
      readLines enter s number (text :: rest) := rfl

/-- Reading goes on with the next line after one that changes the state only. -/
theorem readLines_cons_of_proceed {s next : RunState} {number : Nat} {text : Text}
    (h : followRole (s.atLine number) text (role text) = .ok (.proceed next))
    (rest : List Text) :
    readLines enter s number (text :: rest) = readLines enter next (number + 1) rest := by
  rw [RunState.atLine] at h
  rw [readLines]
  simp only [readLine_eq_followRole, h]

theorem readLines_cons_of_error {s : RunState} {number : Nat} {text : Text} {cause : Cause}
    (h : followRole (s.atLine number) text (role text) = .error cause) (rest : List Text) :
    readLines enter s number (text :: rest) = pure (failHere (s.atLine number) cause) := by
  rw [RunState.atLine] at h
  rw [readLines]
  simp only [readLine_eq_followRole, h]
  rfl

theorem readLines_cons_of_enter {s : RunState} {number : Nat} {text : Text} {request : Include}
    (h : followRole (s.atLine number) text (role text) = .ok (.enter request))
    (rest : List Text) :
    readLines enter s number (text :: rest) =
      enter (s.atLine number) request >>= andThen fun next =>
        readLines enter next (number + 1) rest := by
  rw [RunState.atLine] at h
  rw [readLines]
  simp only [readLine_eq_followRole, h]
  rfl

/-- No branch of a group is active, and none can become active any more: one of them has been, or
the group stands in skipped text. -/
structure Finished (top : Scope) (outer : Groups) : Prop where
  /-- The current branch is skipped. -/
  skipped : Groups.active (top :: outer) = false
  /-- No later branch can become active. -/
  settled : top.taken = true ∨ Groups.active outer = false

theorem Finished.of_outer {outer : Groups} (h : Groups.active outer = false) (top : Scope) :
    Finished top outer where
  skipped := by
    rw [Groups.active, List.all_cons, Bool.and_eq_false_iff]
    exact Or.inr h
  settled := Or.inr h

theorem Finished.of_taken (opened : Position) (outer : Groups) :
    Finished ⟨false, true, opened⟩ outer where
  skipped := rfl
  settled := Or.inl rfl

/-- Going on to another branch of a finished group does not look at its condition, and leaves the
group finished. -/
theorem switchBranch_finished {s : RunState} {top : Scope} {outer : Groups}
    (hs : s.groups = top :: outer) (h : Finished top outer) (guard : Option (List Token)) :
    ∃ top', Finished top' outer ∧ switchBranch s guard = .ok (s.regroup (top' :: outer)) := by
  by_cases htop : (top.active || top.taken) = true
  · -- Some branch has been active, so the next one is skipped.
    refine ⟨⟨false, true, top.opened⟩, Finished.of_taken top.opened outer, ?_⟩
    cases guard with
    | none => rw [switchBranch, hs, Groups.orElse, if_pos htop]; rfl
    | some condition => rw [switchBranch, RunState.nextBranch, hs, Groups.elif, if_pos htop]; rfl
  · -- The next branch may be marked active, but it stands in skipped text.
    have htaken : top.taken ≠ true := by
      intro htaken
      exact htop (by rw [htaken, Bool.or_true])
    have houter : Groups.active outer = false := h.settled.resolve_left htaken
    cases guard with
    | none =>
      refine ⟨⟨true, true, top.opened⟩, Finished.of_outer houter _, ?_⟩
      rw [switchBranch, hs, Groups.orElse, if_neg htop]; rfl
    | some condition =>
      refine ⟨⟨false, false, top.opened⟩, Finished.of_outer houter _, ?_⟩
      rw [switchBranch, RunState.nextBranch, hs, Groups.elif, if_neg htop, houter,
        if_neg Bool.false_ne_true]
      rfl

theorem closeGroup_cons {s : RunState} {top : Scope} {outer : Groups}
    (hs : s.groups = top :: outer) : closeGroup s = .ok (s.regroup outer) := by
  rw [closeGroup, hs]
  rfl

/-- Opening a group in skipped text does not look at its condition. -/
theorem openGroup_skipped {s : RunState} (hs : s.groups.active = false)
    (condition : List Token) :
    s.openGroup condition = .ok (s.regroup (⟨false, false, s.position⟩ :: s.groups)) := by
  rw [RunState.openGroup, hs, if_neg Bool.false_ne_true, Groups.push, Bool.and_false]
  rfl

mutual

/-- A skipped block leaves the state as it is. What follows it starts with a line, so the line
number of the state does not matter. -/
theorem readLines_skipped_block (b : Block) {s : RunState} (hs : s.groups.active = false)
    (number : Nat) (text : Text) (rest : List Text) :
    readLines enter s number (b.lines ++ text :: rest) =
      readLines enter s (number + b.lines.length) (text :: rest) := by
  cases b with
  | empty => rfl
  | line ordinary h block =>
    have hskip : followRole (s.atLine number) ordinary (role ordinary) =
        .ok (.proceed (s.atLine number)) := by
      rw [h, followRole, RunState.groups_atLine, hs, if_neg Bool.false_ne_true]
    rw [Block.lines, List.cons_append, readLines_cons_of_proceed enter hskip,
      readLines_skipped_block block (s := s.atLine number) hs, readLines_atLine, List.length_cons]
    congr 1
    omega
  | group opener condition h branches block =>
    -- The group is opened as a skipped one, whatever its condition is.
    have hopen : followRole (s.atLine number) opener (role opener) =
        .ok (.proceed ((s.atLine number).regroup
          (⟨false, false, (s.atLine number).position⟩ :: s.groups))) := by
      rw [h, followRole, openGroup_skipped (s := s.atLine number) hs]
      rfl
    have hclose : number + 1 + branches.lines.length = number + branches.lines.length + 1 := by
      omega
    rw [Block.lines, List.cons_append, readLines_cons_of_proceed enter hopen, List.append_assoc,
      readLines_finished_branches branches rfl (Finished.of_outer hs _) _ hclose,
      RunState.regroup_regroup, RunState.regroup_atLine, RunState.regroup_groups,
      RunState.atLine_atLine,
      readLines_skipped_block block (s := s.atLine (number + branches.lines.length)) hs,
      readLines_atLine, List.length_cons, List.length_append]
    congr 1
    omega

/-- Of a finished group only the closing line has an effect. -/
theorem readLines_finished_branches (branches : Branches) {s : RunState} {top : Scope}
    {outer : Groups} (hs : s.groups = top :: outer) (h : Finished top outer) (number : Nat)
    {line : Nat} (hline : number + branches.lines.length = line + 1) (rest : List Text) :
    readLines enter s number (branches.lines ++ rest) =
      readLines enter ((s.regroup outer).atLine line) (line + 1) rest := by
  have hskipped : s.groups.active = false := by
    rw [hs]
    exact h.skipped
  cases branches with
  | last body close hclose =>
    rw [Branches.lines, List.length_append, List.length_singleton] at hline
    obtain rfl : number + body.lines.length = line := by omega
    have hpop : followRole (s.atLine (number + body.lines.length)) close (role close) =
        .ok (.proceed ((s.regroup outer).atLine (number + body.lines.length))) := by
      rw [hclose, followRole, closeGroup_cons (s := s.atLine (number + body.lines.length)) hs]
      rfl
    rw [Branches.lines, List.append_assoc, List.singleton_append,
      readLines_skipped_block body hskipped, readLines_cons_of_proceed enter hpop]
  | next body switch guard hswitch others =>
    rw [Branches.lines, List.length_append, List.length_cons] at hline
    -- The next branch is as finished as the one before.
    obtain ⟨top', h', hnext⟩ :=
      switchBranch_finished (s := s.atLine (number + body.lines.length)) hs h guard
    have hstep : followRole (s.atLine (number + body.lines.length)) switch (role switch) =
        .ok (.proceed ((s.atLine (number + body.lines.length)).regroup (top' :: outer))) := by
      rw [hswitch, followRole, hnext]
      rfl
    have hclose : number + body.lines.length + 1 + others.lines.length = line + 1 := by
      omega
    rw [Branches.lines, List.append_assoc, List.cons_append,
      readLines_skipped_block body hskipped, readLines_cons_of_proceed enter hstep,
      readLines_finished_branches others rfl h' _ hclose]
    rfl

end

end HeaderMacros.Nesting
