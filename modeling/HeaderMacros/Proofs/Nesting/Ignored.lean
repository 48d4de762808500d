import HeaderMacros.Proofs.Nesting.Skipping

/-!
# What is ignored in skipped text

Lines in skipped text whose groups are their own cannot do anything, whatever else is on them: no
file is included, no condition is evaluated, and the state stays as it is. The one thing that is
still checked there is that a test for a macro names one.

That a condition is not evaluated cannot be seen from its value. So reading is first told with a
way to evaluate conditions as a part of it, in any monad (`readLinesAsking`).

* `readLinesAsking_pure`: with the value of a condition at hand, this is how lines are read.
* `readLinesAsking_ignores`: what nested lines come to in skipped text.
-/

namespace HeaderMacros

/-- A state once some lines have been passed over, the first of which has the given number. -/
def RunState.passed (s : RunState) (number : Nat) : List Text → RunState
  | [] => s
  | _ :: rest => s.atLine (number + rest.length)

namespace Nesting

open RunState (readLines)

/-! ## Conditions that are asked for -/

/-- What a line comes to before any condition is evaluated. -/
inductive Pending where
  /-- No condition matters. -/
  | settled (result : Except Cause RunState.Action)
  /-- The value of a condition decides how the run goes on. -/
  | asks (condition : List Token) (next : Bool → RunState)

/-- What a line that plays a given part comes to before any condition is evaluated. -/
def pendingAs (s : RunState) (text : Text) : Role → Pending
  | .ordinary => .settled (if s.groups.active then obey s text else .ok (.proceed s))
  | .opens condition =>
    if s.groups.active then .asks condition fun v => s.regroup (s.groups.push v s.position)
    else .settled (.ok (.proceed (s.regroup (s.groups.push false s.position))))
  | .switches none => .settled (s.groups.orElse.map fun g => .proceed (s.regroup g))
  | .switches (some condition) =>
    match s.groups.elif with
    | .error cause => .settled (.error cause)
    | .ok (.settled g) => .settled (.ok (.proceed (s.regroup g)))
    | .ok (.depends next) => .asks condition fun v => s.regroup (next v)
  | .closes => .settled (s.groups.pop.map fun g => .proceed (s.regroup g))
  | .nameless directive => .settled (.error (.malformed (.missingName directive) []))

/-- What a line comes to before any condition is evaluated. -/
def pending (s : RunState) (text : Text) : Pending := pendingAs s text (role text)

variable {m : Type → Type} [Monad m]

/-- What a line comes to, with a way to evaluate the condition that it asks for. -/
def Pending.answer (evaluate : List Token → m (Except Cause Bool)) :
    Pending → m (Except Cause RunState.Action)
  | .settled result => pure result
  | .asks condition next => do
    let value ← evaluate condition
    return value.map fun v => .proceed (next v)

/-- Reads lines one after the other, the first of which has the given number, with `evaluate` to
evaluate a condition and `enter` to follow an include. -/
def readLinesAsking (evaluate : RunState → List Token → m (Except Cause Bool))
    (enter : RunState → Include → m Outcome) : RunState → Nat → List Text → m Outcome
  | s, _, [] => pure ⟨s, none⟩
  | s, number, text :: rest => do
    match ← (pending (s.atLine number) text).answer (evaluate (s.atLine number)) with
    | .error cause => pure (failHere (s.atLine number) cause)
    | .ok (.proceed next) => readLinesAsking evaluate enter next (number + 1) rest
    | .ok (.enter request) =>
      enter (s.atLine number) request >>= andThen fun next =>
        readLinesAsking evaluate enter next (number + 1) rest

variable [LawfulMonad m]

/-- Once the condition is evaluated that a line asks for, it comes to what reading it does. -/
theorem answer_pending (s : RunState) (text : Text) :
    (pending s text).answer (fun condition => pure (s.evaluate condition)) =
      (pure (s.readLine text) : m (Except Cause RunState.Action)) := by
  rw [readLine_eq_followRole, pending]
  cases role text with
  | ordinary | nameless => rfl
  | opens condition =>
    rw [pendingAs, followRole, RunState.openGroup]
    split
    · rw [Pending.answer, pure_bind]
      cases s.evaluate condition <;> rfl
    · rfl
  | closes =>
    rw [pendingAs, followRole, closeGroup]
    cases s.groups.pop <;> rfl
  | switches guard =>
    cases guard with
    | none =>
      rw [pendingAs, followRole, switchBranch]
      cases s.groups.orElse <;> rfl
    | some condition =>
      rw [pendingAs, followRole, switchBranch, RunState.nextBranch]
      rcases s.groups.elif with cause | g | next
      · rfl
      · rfl
      · -- Only here does the branch depend on the value of its condition.
        change (pure (s.evaluate condition) >>= fun value => _) = _
        rw [pure_bind]
        cases s.evaluate condition <;> rfl

/-- With the value of every condition at hand, lines are read as they are. -/
theorem readLinesAsking_pure (enter : RunState → Include → m Outcome) (s : RunState)
    (number : Nat) (lines : List Text) :
    readLinesAsking (fun s condition => pure (s.evaluate condition)) enter s number lines =
      readLines enter s number lines := by
  induction lines generalizing s number with
  | nil => rfl
  | cons text rest ih =>
    rw [readLinesAsking, answer_pending, pure_bind, readLines, ← RunState.atLine]
    rcases (s.atLine number).readLine text with cause | next | request
    · rfl
    · exact ih next (number + 1)
    · -- The include comes back first, and only then do the lines after it matter.
      refine bind_congr fun out => ?_
      rw [andThen]
      cases out.fault with
      | some fault => rfl
      | none => exact ih out.state (number + 1)

/-! ## Groups of their own -/

/-- How many groups are open after a line that plays a given part, if its group is one of those that
were open before. A test that names no macro still stands where a group is opened. -/
def Role.nesting (depth : Nat) : Role → Option Nat
  | .ordinary => some depth
  | .opens _ | .nameless _ => some (depth + 1)
  | .switches _ => if depth = 0 then none else some depth
  | .closes => if depth = 0 then none else some (depth - 1)

/-- How many groups are open after some lines, if all their groups are their own or among the given
number of open ones. -/
def nestingAfter (depth : Nat) (lines : List Text) : Option Nat :=
  lines.foldlM (fun depth text => (role text).nesting depth) depth

/-- Every line that switches or closes a group has one among the lines, and each is closed. -/
def Nested (lines : List Text) : Prop := nestingAfter 0 lines = some 0

instance (lines : List Text) : Decidable (Nested lines) :=
  inferInstanceAs (Decidable (nestingAfter 0 lines = some 0))

/-- Whether a line tests for a macro without naming one. -/
def isNameless (text : Text) : Bool :=
  match role text with
  | .nameless _ => true
  | _ => false

variable {s : RunState} {inner base : Groups} {text : Text}

/-- In skipped text a line changes no group but those of the lines around it, and asks for
nothing. -/
theorem pending_skipped (hbase : base.active = false) (hs : s.groups = inner ++ base)
    {depth : Nat} (hdepth : (role text).nesting inner.length = some depth)
    (hnamed : isNameless text = false) :
    ∃ inner', inner'.length = depth ∧
      pending s text = .settled (.ok (.proceed (s.regroup (inner' ++ base)))) := by
  have hskipped (g : Groups) : (g ++ base).active = false := by
    rw [Groups.active, List.all_append, Bool.and_eq_false_iff]
    exact Or.inr hbase
  rw [pending]
  rw [isNameless] at hnamed
  cases hrole : role text with
  | nameless directive => simp [hrole] at hnamed
  | ordinary =>
    rw [hrole] at hdepth
    obtain rfl := Option.some.inj hdepth
    refine ⟨inner, rfl, ?_⟩
    rw [pendingAs, hs, hskipped, if_neg Bool.false_ne_true, ← hs, RunState.regroup_groups]
  | opens condition =>
    rw [hrole] at hdepth
    obtain rfl := Option.some.inj hdepth
    refine ⟨⟨false, false, s.position⟩ :: inner, rfl, ?_⟩
    rw [pendingAs, hs, hskipped, if_neg Bool.false_ne_true, Groups.push, Bool.and_false]
    rfl
  | closes =>
    rw [hrole] at hdepth
    cases inner with
    | nil => cases hdepth
    | cons top outer =>
      obtain rfl := Option.some.inj hdepth
      refine ⟨outer, rfl, ?_⟩
      rw [pendingAs, hs]
      rfl
  | switches guard =>
    rw [hrole] at hdepth
    cases inner with
    | nil => cases hdepth
    | cons top outer =>
      obtain rfl := Option.some.inj hdepth
      -- The next branch may be marked active, but the text around the group is skipped.
      cases guard with
      | none =>
        rw [pendingAs, hs, List.cons_append, Groups.orElse]
        split
        · exact ⟨⟨false, true, top.opened⟩ :: outer, rfl, rfl⟩
        · exact ⟨⟨true, true, top.opened⟩ :: outer, rfl, rfl⟩
      | some condition =>
        rw [pendingAs, hs, List.cons_append, Groups.elif, hskipped, if_neg Bool.false_ne_true]
        by_cases htaken : (top.active || top.taken) = true
        · rw [if_pos htaken]
          exact ⟨⟨false, true, top.opened⟩ :: outer, rfl, rfl⟩
        · rw [if_neg htaken]
          exact ⟨⟨false, false, top.opened⟩ :: outer, rfl, rfl⟩

/-- Reading goes on with the next line after one that asks for nothing. -/
theorem readLinesAsking_cons_of_settled
    {evaluate : RunState → List Token → m (Except Cause Bool)}
    {enter : RunState → Include → m Outcome} {number : Nat} {next : RunState}
    (h : pending (s.atLine number) text = .settled (.ok (.proceed next))) (rest : List Text) :
    readLinesAsking evaluate enter s number (text :: rest) =
      readLinesAsking evaluate enter next (number + 1) rest := by
  rw [readLinesAsking, h, Pending.answer, pure_bind]

theorem regroup_passed_cons (s : RunState) (number : Nat) (g g' : Groups) (text : Text)
    (rest : List Text) :
    (((s.atLine number).regroup g).passed (number + 1) rest).regroup g' =
      (s.passed number (text :: rest)).regroup g' := by
  cases rest with
  | nil => rfl
  | cons next more =>
    have hnumber : number + 1 + more.length = number + (more.length + 1) := by omega
    simp only [RunState.passed, List.length_cons, hnumber]
    rfl

/-- Lines in skipped text are passed over, as long as each test for a macro names one. -/
theorem readLinesAsking_skipped (evaluate : RunState → List Token → m (Except Cause Bool))
    (enter : RunState → Include → m Outcome) (hbase : base.active = false)
    (hs : s.groups = inner ++ base) {lines : List Text} {depth : Nat}
    (hdepth : nestingAfter inner.length lines = some depth)
    (hnamed : ∀ text ∈ lines, isNameless text = false) (number : Nat) (rest : List Text) :
    ∃ inner', inner'.length = depth ∧
      readLinesAsking evaluate enter s number (lines ++ rest) =
        readLinesAsking evaluate enter ((s.passed number lines).regroup (inner' ++ base))
          (number + lines.length) rest := by
  -- The invariant: below the groups of the lines read so far lie those that were open before.
  induction lines generalizing s inner number with
  | nil =>
    obtain rfl := Option.some.inj hdepth
    refine ⟨inner, rfl, ?_⟩
    rw [← hs]
    rfl
  | cons text lines ih =>
    rw [nestingAfter, List.foldlM_cons] at hdepth
    obtain ⟨between, htext, hlines⟩ := Option.bind_eq_some_iff.1 hdepth
    obtain ⟨hfirst, hothers⟩ := List.forall_mem_cons.1 hnamed
    obtain ⟨inner₁, rfl, hstep⟩ :=
      pending_skipped (s := s.atLine number) hbase hs htext hfirst
    obtain ⟨inner₂, rfl, hread⟩ :=
      ih (s := (s.atLine number).regroup (inner₁ ++ base)) rfl hlines hothers (number + 1)
    refine ⟨inner₂, rfl, ?_⟩
    rw [List.cons_append, readLinesAsking_cons_of_settled hstep, hread, regroup_passed_cons,
      List.length_cons, Nat.add_right_comm, Nat.add_assoc]

/-- In skipped text, lines whose groups are their own ask for no condition and follow no include. If
each test for a macro names one, they change nothing in the state but the number of the line;
otherwise the first one that does not is a fault, whatever the lines after it. -/
theorem readLinesAsking_ignores (evaluate : RunState → List Token → m (Except Cause Bool))
    (enter : RunState → Include → m Outcome) (hs : s.groups.active = false) {lines : List Text}
    (hnested : Nested lines) (number : Nat) :
    readLinesAsking (fun s condition => pure (s.evaluate condition)) enter s number lines =
      readLines enter s number lines ∧
    ((∀ text ∈ lines, isNameless text = false) →
      readLinesAsking evaluate enter s number lines = pure ⟨s.passed number lines, none⟩) ∧
    (∀ before text after directive, lines = before ++ text :: after →
      (∀ other ∈ before, isNameless other = false) → role text = .nameless directive →
      ∃ inner, readLinesAsking evaluate enter s number lines =
        pure (failHere ((s.regroup (inner ++ s.groups)).atLine (number + before.length))
          (.malformed (.missingName directive) []))) := by
  refine ⟨readLinesAsking_pure enter s number lines, fun hnamed => ?_,
    fun before text after directive hlines hnamed hrole => ?_⟩
  · obtain ⟨inner, hlength, hread⟩ := readLinesAsking_skipped evaluate enter hs
      (List.nil_append s.groups).symm hnested hnamed number []
    rw [List.append_nil] at hread
    rw [hread, List.eq_nil_of_length_eq_zero hlength, List.nil_append, readLinesAsking]
    cases lines <;> rfl
  · -- The lines before it are passed over, and then it is the first to be looked at.
    rw [Nested, hlines, nestingAfter, List.foldlM_append] at hnested
    obtain ⟨depth, hbefore, -⟩ := Option.bind_eq_some_iff.1 hnested
    obtain ⟨inner, -, hread⟩ := readLinesAsking_skipped evaluate enter hs
      (List.nil_append s.groups).symm hbefore hnamed number (text :: after)
    refine ⟨inner, ?_⟩
    rw [hlines, hread, readLinesAsking, pending, hrole, pendingAs, Pending.answer, pure_bind]
    cases before <;> rfl

/-- The state after a line that opens a skipped group. -/
def skippedState : RunState :=
  Outcome.state (readLines (m := Id) (fun s _ => ⟨s, none⟩) (RunState.initial []) 1 [ascii "#if 0"])

/-- Lines whose groups are their own, with conditions that have no value and directives that would
fail. -/
def ignoredLines : List Text :=
  [ascii "#if (", ascii "#include <a.h", ascii "#elif 1 )", ascii "#ifndef 7", ascii "#define",
    ascii "#endif", ascii "#else", ascii "#else", ascii "#include <a.h>", ascii "#endif"]

/-- Counts the conditions that are evaluated and the includes that are followed. -/
def countedLines : StateM Nat Outcome :=
  readLinesAsking (fun s condition => do modify (· + 1); return s.evaluate condition)
    (fun s _ => do modify (· + 1); return ⟨s, none⟩) skippedState 2 ignoredLines

theorem readLinesAsking_ignores_ignoredLines :
    skippedState.groups.active = false ∧ Nested ignoredLines ∧
      countedLines.run 0 = (⟨skippedState.atLine 11, none⟩, 0) := by
  have hskipped : skippedState.groups.active = false := by decide +kernel
  have hnested : Nested ignoredLines := by decide +kernel
  have hread := (readLinesAsking_ignores (m := StateM Nat)
    (fun s condition => do modify (· + 1); return s.evaluate condition)
    (fun s _ => do modify (· + 1); return ⟨s, none⟩) hskipped hnested 2).2.1 (by decide +kernel)
  refine ⟨hskipped, hnested, ?_⟩
  rw [countedLines, hread]
  rfl

/-- A test that names no macro is a fault in skipped text as well. -/
theorem not_ignored_nameless :
    skippedState.groups.active = false ∧ Nested [ascii "#ifdef", ascii "#endif"] ∧
      (readLines (m := Id) (fun s _ => ⟨s, none⟩) skippedState 2
          [ascii "#ifdef", ascii "#endif"]).fault =
        some ⟨⟨RunState.rootFile, 2⟩, .malformed (.missingName (ascii "ifdef")) []⟩ ∧
      (run (m := Id) none 1 [] (ascii "#if 0\n#ifdef\n#endif\n#endif")).fault =
        some ⟨⟨RunState.rootFile, 2⟩, .malformed (.missingName (ascii "ifdef")) []⟩ := by
  refine ⟨?_, ?_, ?_, ?_⟩ <;> decide +kernel

end Nesting

end HeaderMacros
