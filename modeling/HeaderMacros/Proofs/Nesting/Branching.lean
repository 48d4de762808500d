import HeaderMacros.Group
import Mathlib.Data.List.Forall2

/-!
# At most one branch

The open groups after any operations on them, also after operations that fail. Beside the groups a
history keeps what has become of their branches: for every group, whether each of its branches was
active. A group keeps two marks only, and they are all that is needed of this record
(`Tracks`): whether the branch it is in is active, and whether any branch has been.

An operation that goes on to another branch does one thing in all its cases (`apply_switch`): the
new branch is active only if no branch has been, and the group is taken if it was or if the new
branch is active. Everything else follows from this.

* `Groups.lawful_after`: what holds after any operations.
-/

namespace HeaderMacros.Groups

/-! ## Operations -/

/-- What can be done to the open groups. -/
inductive Operation where
  /-- A group is opened. -/
  | push (condition : Bool) (opened : Position)
  /-- A branch with a condition begins; `answer` is what the condition comes to if it is asked
  for. -/
  | elif (answer : Except Cause Bool)
  /-- A branch without a condition begins. -/
  | orElse
  /-- The innermost group is closed. -/
  | pop

/-- What an operation comes to. -/
structure Response where
  /-- The groups that are open afterwards. -/
  groups : Groups
  /-- Why the operation failed, if it did. -/
  failure : Option Cause
  /-- Whether the condition was asked for. -/
  asked : Bool

/-- The response to an operation that asks for no condition. A failure leaves the groups alone. -/
def respond (g : Groups) : Except Cause Groups → Response
  | .error cause => ⟨g, some cause, false⟩
  | .ok next => ⟨next, none, false⟩

/-- Performs an operation. The condition is asked for where the groups depend on it. -/
def apply (g : Groups) : Operation → Response
  | .push condition opened => ⟨g.push condition opened, none, false⟩
  | .elif answer =>
    match g.elif with
    | .error cause => ⟨g, some cause, false⟩
    | .ok (.settled next) => ⟨next, none, false⟩
    | .ok (.depends next) =>
      match answer with
      | .error cause => ⟨g, some cause, true⟩
      | .ok v => ⟨next v, none, true⟩
  | .orElse => g.respond g.orElse
  | .pop => g.respond g.pop

/-- Whether an operation is one on the innermost open group. -/
def Operation.onGroup : Operation → Bool
  | .push _ _ => false
  | .elif _ | .orElse | .pop => true

/-- The text outside all groups, as a scope. -/
def outside : Scope := ⟨true, true, ⟨[], 0⟩⟩

/-- The scopes around a line, the innermost first. The last one is the text outside all groups, which
is no part of a stack: no operation can reach it. -/
def scopes (g : Groups) : List Scope := g ++ [outside]

theorem active_eq_all_scopes (g : Groups) : g.active = g.scopes.all Scope.active := by
  simp [active, scopes, outside]

/-! ## Histories -/

/-- What has become of groups. -/
structure History where
  /-- The open groups. -/
  groups : Groups
  /-- For every open group, whether its branches were active, the latest first. -/
  opened : List (List Bool)
  /-- The same for every group that has been closed. -/
  closed : List (List Bool)

/-- The mark of the innermost scope. -/
def topActive (g : Groups) : Bool := (g.head?.getD outside).active

/-- Performs an operation and records the mark of the branch that it begins. A branch begins with
every operation on its group, also with one that fails. -/
def History.step (h : History) (operation : Operation) : History :=
  let next := (h.groups.apply operation).groups
  match operation, h.opened with
  | .push _ _, opened => ⟨next, [next.topActive] :: opened, h.closed⟩
  | .elif _, flags :: outer | .orElse, flags :: outer =>
    ⟨next, (next.topActive :: flags) :: outer, h.closed⟩
  | .pop, flags :: outer => ⟨next, outer, flags :: h.closed⟩
  | _, [] => ⟨next, [], h.closed⟩

/-- What becomes of groups by some operations, with no group open before. -/
def History.after (operations : List Operation) : History :=
  operations.foldl History.step ⟨[], [], []⟩

/-- The marks of a group are what can be told from its branches: whether the latest one is active,
and whether any one was. -/
structure Tracks (scope : Scope) (flags : List Bool) : Prop where
  /-- The group is marked active as its latest branch is. -/
  active : flags.head? = some scope.active
  /-- The group is marked as taken if a branch was active. -/
  taken : scope.taken = flags.any id

/-! ## One operation -/

theorem Tracks.or_eq {scope : Scope} {flags : List Bool} (h : Tracks scope flags) :
    (scope.active || scope.taken) = flags.any id := by
  obtain ⟨hactive, htaken⟩ := h
  cases flags with
  | nil => cases hactive
  | cons latest earlier =>
    obtain rfl := Option.some.inj hactive
    rw [htaken]
    simp

theorem Tracks.taken_of_active {scope : Scope} {flags : List Bool} (h : Tracks scope flags)
    (hactive : scope.active = true) : scope.taken = true := by
  have hor := h.or_eq
  rw [← h.taken, hactive, Bool.true_or] at hor
  exact hor.symm

/-- Every way to go on to another branch, in one: the new branch is active only if none was, and the
group is taken if it was or if the new branch is active. -/
theorem apply_switch (top : Scope) (outer : Groups) {operation : Operation}
    (h : (∃ answer, operation = .elif answer) ∨ operation = .orElse) :
    ∃ v, (v = true → (top.active || top.taken) = false) ∧
      (apply (top :: outer) operation).groups =
        ⟨v, (top.active || top.taken) || v, top.opened⟩ :: outer := by
  by_cases htaken : (top.active || top.taken) = true
  · -- The group is finished, whatever the condition of the branch.
    refine ⟨false, by simp, ?_⟩
    rcases h with ⟨answer, rfl⟩ | rfl <;> simp [apply, respond, elif, orElse, htaken]
  · have hfresh : (top.active || top.taken) = false := by simpa using htaken
    obtain ⟨hactive, hnottaken⟩ := Bool.or_eq_false_iff.1 hfresh
    rcases h with ⟨answer, rfl⟩ | rfl
    · by_cases houter : active outer = true
      · -- The condition is asked for. If it fails the group stays in a branch that is not active.
        cases answer with
        | error cause =>
          refine ⟨false, by simp, ?_⟩
          obtain ⟨a, t, opened⟩ := top
          subst hactive hnottaken
          simp [apply, elif, houter]
        | ok v => exact ⟨v, fun _ => hfresh, by simp [apply, elif, hfresh, houter]⟩
      · exact ⟨false, by simp, by simp [apply, elif, hfresh, houter]⟩
    · exact ⟨true, fun _ => hfresh, by simp [apply, respond, orElse, hfresh]⟩

/-- A condition is asked for in a group none of whose branches was active, if nothing around it is
skipped. -/
theorem asked_elif_iff {g : Groups} (answer : Except Cause Bool) :
    (g.apply (.elif answer)).asked = true ↔
      ∃ top outer, g = top :: outer ∧ (top.active || top.taken) = false ∧ active outer = true := by
  cases g with
  | nil => simp [apply, elif]
  | cons top outer =>
    have hcons : (∃ top' outer', top :: outer = top' :: outer' ∧
        (top'.active || top'.taken) = false ∧ active outer' = true) ↔
        (top.active || top.taken) = false ∧ active outer = true := by
      constructor
      · rintro ⟨_, _, ⟨rfl, rfl⟩, h⟩
        exact h
      · exact fun h => ⟨top, outer, rfl, h⟩
    rw [apply, elif, hcons]
    cases htaken : (top.active || top.taken) <;> cases houter : active outer <;>
      cases answer <;> simp

/-- An operation fails if it is on a group and none is open, or if it asks for a condition that
fails; then the groups stay as they are. -/
theorem failure_apply_iff (g : Groups) (operation : Operation) :
    ((g.apply operation).failure.isSome ↔ (g = [] ∧ operation.onGroup = true) ∨
      ∃ cause, operation = .elif (.error cause) ∧ (g.apply operation).asked = true) ∧
      ((g.apply operation).failure.isSome → (g.apply operation).groups = g) := by
  cases operation with
  | push condition opened => simp [apply, Operation.onGroup]
  | orElse =>
    cases g with
    | nil => simp [apply, respond, orElse, Operation.onGroup]
    | cons top outer =>
      rw [apply, orElse]
      split <;> simp [respond]
  | pop => cases g <;> simp [apply, respond, pop, Operation.onGroup]
  | elif answer =>
    cases g with
    | nil => simp [apply, elif, Operation.onGroup]
    | cons top outer =>
      rw [apply, elif]
      split_ifs
      · simp
      · cases answer <;> simp
      · simp

/-! ## Any number of operations -/

/-- What a history keeps: the marks of every open group are those of its branches, and no group has
had two active branches. -/
structure History.Invariant (h : History) : Prop where
  /-- The marks of every open group are those of its branches. -/
  tracks : List.Forall₂ Tracks h.groups h.opened
  /-- At most one branch of each group is active. -/
  exclusive : ∀ flags ∈ h.opened ++ h.closed, flags.count true ≤ 1

/-- Going on to another branch keeps the record of the group. -/
theorem Tracks.switch {top : Scope} {flags : List Bool} (h : Tracks top flags) (v : Bool)
    (opened : Position) :
    Tracks ⟨v, (top.active || top.taken) || v, opened⟩ (v :: flags) := by
  refine ⟨rfl, ?_⟩
  rw [h.or_eq, List.any_cons, Bool.or_comm]
  rfl

/-- A new branch is active only if no earlier one was. -/
theorem Tracks.count_switch {top : Scope} {flags : List Bool} (h : Tracks top flags) {v : Bool}
    (hv : v = true → (top.active || top.taken) = false) (hcount : flags.count true ≤ 1) :
    (v :: flags).count true ≤ 1 := by
  cases v with
  | false => rwa [List.count_cons_of_ne (by decide)]
  | true =>
    have hnone : flags.any id = false := h.or_eq ▸ hv rfl
    have hzero : flags.count true = 0 := by
      rw [List.count_eq_zero]
      intro hmem
      rw [List.any_eq_true.2 ⟨true, hmem, rfl⟩] at hnone
      cases hnone
    rw [List.count_cons_self]
    omega

/-- The step of a history that goes on to another branch. -/
theorem History.Invariant.switch {h : History} (hinv : h.Invariant) {operation : Operation}
    (hop : (∃ answer, operation = .elif answer) ∨ operation = .orElse) :
    (h.step operation).Invariant := by
  obtain ⟨groups, opened, closed⟩ := h
  obtain ⟨htracks, hexclusive⟩ := hinv
  cases htracks with
  | nil =>
    have hstep : History.step ⟨[], [], closed⟩ operation = ⟨[], [], closed⟩ := by
      rcases hop with ⟨answer, rfl⟩ | rfl <;> rfl
    rw [hstep]
    exact ⟨.nil, hexclusive⟩
  | @cons top flags outer others hfirst hothers =>
    obtain ⟨v, hv, happly⟩ := apply_switch top outer hop
    have hstep : History.step ⟨top :: outer, flags :: others, closed⟩ operation =
        ⟨⟨v, (top.active || top.taken) || v, top.opened⟩ :: outer, (v :: flags) :: others,
          closed⟩ := by
      rcases hop with ⟨answer, rfl⟩ | rfl <;> simp only [History.step, happly] <;> rfl
    rw [hstep]
    rw [List.cons_append, List.forall_mem_cons] at hexclusive
    refine ⟨.cons (hfirst.switch v _) hothers, ?_⟩
    rw [List.cons_append, List.forall_mem_cons]
    exact ⟨hfirst.count_switch hv hexclusive.1, hexclusive.2⟩

/-- Every operation keeps the invariant. -/
theorem History.Invariant.step {h : History} (hinv : h.Invariant) (operation : Operation) :
    (h.step operation).Invariant := by
  cases operation with
  | elif answer => exact hinv.switch (.inl ⟨answer, rfl⟩)
  | orElse => exact hinv.switch (.inr rfl)
  | push condition place =>
    refine ⟨.cons ⟨rfl, ?_⟩ hinv.tracks, ?_⟩
    · cases hv : (h.groups.active && condition) <;> simp [apply, push, topActive, hv]
    · rw [History.step, List.cons_append, List.forall_mem_cons]
      exact ⟨List.count_le_length, hinv.exclusive⟩
  | pop =>
    obtain ⟨groups, opened, closed⟩ := h
    obtain ⟨htracks, hexclusive⟩ := hinv
    cases htracks with
    | nil => exact ⟨.nil, hexclusive⟩
    | @cons top flags outer others hfirst hothers =>
      refine ⟨hothers, ?_⟩
      intro other hother
      apply hexclusive
      simp only [History.step, List.mem_append, List.mem_cons] at hother ⊢
      tauto

theorem History.invariant_after (operations : List Operation) :
    (History.after operations).Invariant := by
  have hfold {h : History} (hinv : h.Invariant) :
      (operations.foldl History.step h).Invariant := by
    induction operations generalizing h with
    | nil => exact hinv
    | cons operation operations ih => exact ih (hinv.step operation)
  exact hfold ⟨.nil, fun flags hflags => absurd hflags List.not_mem_nil⟩

/-- What holds of the open groups and of their past. -/
structure History.Lawful (h : History) : Prop where
  /-- The last scope is the text outside all groups, which is active and counts as taken. This is so
  by the definition of `scopes`, which puts it there, and not because operations leave it alone. -/
  outermost : h.groups.scopes.getLast? = some ⟨true, true, ⟨[], 0⟩⟩
  /-- An operation fails if it is one on a group and there is none but the text outside, or if it
  asks for a condition that fails. -/
  fails_iff : ∀ operation, (h.groups.apply operation).failure.isSome ↔
    (h.groups.depth = 1 ∧ operation.onGroup = true) ∨
      ∃ cause, operation = .elif (.error cause) ∧ (h.groups.apply operation).asked = true
  /-- An operation that fails leaves the groups as they are. -/
  unchanged : ∀ operation, (h.groups.apply operation).failure.isSome →
    (h.groups.apply operation).groups = h.groups
  /-- A scope that is active is marked as taken. -/
  taken : ∀ scope ∈ h.groups.scopes, scope.active = true → scope.taken = true
  /-- All along, an open group is marked active as its latest branch is and taken if a branch
  was active. -/
  tracks : List.Forall₂ Tracks h.groups h.opened
  /-- At most one branch of a group is active, whether the group has been closed or not. -/
  exclusive : ∀ flags ∈ h.opened ++ h.closed, flags.count true ≤ 1
  /-- A further condition is asked for if a group is open, all scopes around it are active and no
  branch of it has been. -/
  asks_iff : ∀ answer, (h.groups.apply (.elif answer)).asked = true ↔
    ∃ flags others, h.opened = flags :: others ∧
      (∀ scope ∈ h.groups.scopes.tail, scope.active = true) ∧ true ∉ flags

theorem History.Invariant.asks_iff {h : History} (hinv : h.Invariant)
    (answer : Except Cause Bool) :
    (h.groups.apply (.elif answer)).asked = true ↔
      ∃ flags others, h.opened = flags :: others ∧
        (∀ scope ∈ h.groups.scopes.tail, scope.active = true) ∧ true ∉ flags := by
  obtain ⟨groups, opened, closed⟩ := h
  obtain ⟨htracks, -⟩ := hinv
  rw [asked_elif_iff]
  cases htracks with
  | nil => simp
  | @cons top flags outer others hfirst hothers =>
    have hnone : (top.active || top.taken) = false ↔ true ∉ flags := by
      rw [hfirst.or_eq, List.any_eq_false]
      exact ⟨fun hall hmem => hall true hmem rfl, fun hmem v hv hid => hmem (hid ▸ hv)⟩
    have houter : active outer = true ↔ ∀ scope ∈ scopes outer, scope.active = true := by
      rw [active_eq_all_scopes, List.all_eq_true]
    constructor
    · rintro ⟨_, _, ⟨rfl, rfl⟩, htaken, hactive⟩
      exact ⟨flags, others, rfl, houter.1 hactive, hnone.1 htaken⟩
    · rintro ⟨_, _, ⟨rfl, rfl⟩, hactive, htaken⟩
      exact ⟨top, outer, rfl, hnone.2 htaken, houter.2 hactive⟩

/-- After any operations, also if some of them failed, at most one branch of every group has been
active, and a condition is asked for only where its branch can become active. -/
theorem lawful_after (operations : List Operation) : (History.after operations).Lawful := by
  have hinv := History.invariant_after operations
  have hdepth (g : Groups) : g.depth = 1 ↔ g = [] := by simp [depth]
  refine ⟨?_, ?_, ?_, ?_, hinv.tracks, hinv.exclusive, hinv.asks_iff⟩
  · exact List.getLast?_concat
  · intro operation
    rw [hdepth]
    exact (failure_apply_iff _ operation).1
  · intro operation
    exact (failure_apply_iff _ operation).2
  · intro scope hscope hactive
    rcases List.mem_append.1 hscope with hscope | hscope
    · have hall := hinv.tracks.imp fun _ _ h => And.intro h.taken_of_active h
      exact ((List.forall₂_and_left _ _).1 hall).1 scope hscope hactive
    · rw [List.mem_singleton.1 hscope]
      rfl

/-- A group inside a branch that is not active, with every sort of branch twice and a condition that
would fail. -/
example : (History.after [.push false ⟨[], 1⟩, .push true ⟨[], 2⟩, .orElse, .pop,
      .elif (.error (.malformed .elifOutside [])), .elif (.ok true), .elif (.ok true), .orElse, .pop,
      .pop]).closed = [[false, false, true, false, false], [true, false]] := by
  decide

end HeaderMacros.Groups
