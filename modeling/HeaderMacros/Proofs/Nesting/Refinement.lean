import HeaderMacros.Proofs.Nesting.Skipping
import Mathlib

/-!
# Reading line by line refines the structure

Reading well-nested lines one by one, with a stack of open groups, does what the structure of the
lines means. The two are compared by all that can be observed of an outcome: the whole state and
the fault, except that the groups left open by a fault are not looked at.

Reading does not depend on which groups are open, as long as all are active. A branch that is
carried out is therefore read under one more group than the meaning of the block knows of, and
`Alike` relates the two.

* `alike_readLines_block`: reading the lines of a block.
* `readLines_refines_structure`: reading well-nested lines, with includes.
-/

namespace HeaderMacros

/-- An outcome with other open groups. -/
def Outcome.regroup (g : Groups) (out : Outcome) : Outcome :=
  { out with state := out.state.regroup g }

/-- What can be observed of an outcome: the groups that a fault leaves open do not count. -/
def Outcome.observed (out : Outcome) : Outcome :=
  match out.fault with
  | some _ => out.regroup []
  | none => out

namespace Nesting

open RunState (readLines)

variable {m : Type → Type} [Monad m] [LawfulMonad m]

/-! ## Outcomes that look alike -/

/-- Two runs that cannot be told apart by what can be observed of their outcomes. -/
def Alike (x y : m Outcome) : Prop := Outcome.observed <$> x = Outcome.observed <$> y

omit [LawfulMonad m] in
theorem Alike.trans {x y z : m Outcome} (hxy : Alike x y) (hyz : Alike y z) : Alike x z :=
  Eq.trans hxy hyz

/-- What can be observed of a run in two parts depends on what can be observed of the first. -/
theorem map_observed_bind_andThen (x : m Outcome) (k : RunState → m Outcome) :
    Outcome.observed <$> (x >>= andThen k) =
      (Outcome.observed <$> x) >>= andThen fun s => Outcome.observed <$> k s := by
  rw [map_bind, bind_map_left]
  congr 1
  funext ⟨s, fault⟩
  cases fault with
  | none => rfl
  | some f => exact map_pure _ _

/-- Runs in two parts are alike if their parts are. -/
theorem Alike.bind_andThen {x y : m Outcome} {k l : RunState → m Outcome} (hxy : Alike x y)
    (hkl : ∀ s, Alike (k s) (l s)) : Alike (x >>= andThen k) (y >>= andThen l) := by
  have hnext : (fun s => Outcome.observed <$> k s) = fun s => Outcome.observed <$> l s :=
    funext hkl
  rw [Alike, map_observed_bind_andThen, map_observed_bind_andThen, hxy, hnext]

/-- The groups of an outcome may as well be exchanged in the state that the run goes on from. -/
theorem alike_regroup_bind_andThen (g : Groups) (x : m Outcome) (k : RunState → m Outcome) :
    Alike ((Outcome.regroup g <$> x) >>= andThen k) (x >>= andThen fun s => k (s.regroup g)) := by
  rw [Alike, bind_map_left, map_bind, map_bind]
  congr 1
  funext ⟨s, fault⟩
  cases fault with
  | none => rfl
  | some f =>
    change Outcome.observed <$> pure _ = Outcome.observed <$> pure _
    rw [map_pure, map_pure]
    rfl

theorem bind_andThen_assoc (x : m Outcome) (k l : RunState → m Outcome) :
    (x >>= andThen k) >>= andThen l = x >>= andThen fun s => k s >>= andThen l := by
  rw [bind_assoc]
  congr 1
  funext ⟨s, fault⟩
  cases fault with
  | none => rfl
  | some f => exact pure_bind _ _

theorem pure_failHere_bind_andThen (s : RunState) (cause : Cause) (k : RunState → m Outcome) :
    pure (failHere s cause) >>= andThen k = pure (failHere s cause) := by
  rw [pure_bind]
  rfl

/-- The groups that a fault leaves open cannot be observed. -/
theorem alike_failHere_regroup (s : RunState) (g : Groups) (number : Nat) (cause : Cause) :
    Alike (m := m) (pure (failHere ((s.regroup g).atLine number) cause))
      (pure (failHere (s.atLine number) cause)) := by
  rw [Alike, map_pure, map_pure]
  rfl

/-! ## Lines in active text -/

/-- What an action comes to with other groups open. -/
def regroupAction (g : Groups) : RunState.Action → RunState.Action
  | .proceed s => .proceed (s.regroup g)
  | .enter request => .enter request

theorem followActive_regroup (s : RunState) (g : Groups) (d : Directive) :
    (s.regroup g).followActive d = (s.followActive d).map (regroupAction g) := by
  unfold RunState.followActive
  split_ifs
  · cases Macro.ofTokens d.params <;> rfl
  · cases RunState.undefinedName d.params <;> rfl
  · cases Include.ofTokens d.params <;> rfl
  · rfl

theorem obey_regroup (s : RunState) (g : Groups) (text : Text) :
    obey (s.regroup g) text = (obey s text).map (regroupAction g) := by
  unfold obey
  by_cases hblank : Text.isBlank text
  · rw [if_pos hblank, if_pos hblank]
    rfl
  · rw [if_neg hblank, if_neg hblank]
    cases Directive.ofTokens? (Token.tokenize text) with
    | none => rfl
    | some d =>
      by_cases hname : d.name = []
      · simp only [if_pos hname]
        rfl
      · simp only [if_neg hname]
        exact followActive_regroup s g d

/-- In active text an ordinary line is obeyed. -/
theorem followRole_ordinary {s : RunState} {g : Groups} (hg : g.active = true) {text : Text}
    (h : role text = .ordinary) (number : Nat) :
    followRole ((s.regroup g).atLine number) text (role text) =
      (obey (s.atLine number) text).map (regroupAction g) := by
  rw [h, followRole, RunState.groups_atLine, RunState.groups_regroup, hg, if_pos rfl,
    ← obey_regroup]
  rfl

/-- In active text the condition of a group decides whether its first branch is active. -/
theorem followRole_opens {s : RunState} {g : Groups} (hg : g.active = true) {text : Text}
    {condition : List Token} (h : role text = .opens condition) (number : Nat) :
    followRole ((s.regroup g).atLine number) text (role text) =
      (test (s.atLine number) (some condition)).map fun v =>
        .proceed ((s.atLine number).regroup (⟨v, v, (s.atLine number).position⟩ :: g)) := by
  have heval : ((s.regroup g).atLine number).evaluate condition =
    test (s.atLine number) (some condition) := rfl
  rw [h, followRole, RunState.openGroup, RunState.groups_atLine, RunState.groups_regroup, hg,
    if_pos rfl, heval]
  cases test (s.atLine number) (some condition) with
  | error cause => rfl
  | ok v =>
    simp only [Except.map, Groups.push, hg, Bool.true_and]
    rfl

/-- Where no branch of a group has been active yet, the next condition decides. -/
theorem followRole_switches {s : RunState} {g : Groups} (hg : g.active = true) {text : Text}
    {guard : Option (List Token)} (h : role text = .switches guard) (opened : Position)
    (number : Nat) :
    followRole ((s.regroup (⟨false, false, opened⟩ :: g)).atLine number) text (role text) =
      (test (s.atLine number) guard).map fun v =>
        .proceed ((s.atLine number).regroup (⟨v, v, opened⟩ :: g)) := by
  rw [h, followRole]
  cases guard with
  | none => rfl
  | some condition =>
    have heval : ((s.regroup (⟨false, false, opened⟩ :: g)).atLine number).evaluate condition =
      test (s.atLine number) (some condition) := rfl
    have helif : Groups.elif (⟨false, false, opened⟩ :: g) =
        .ok (.depends fun v => ⟨v, v, opened⟩ :: g) := by
      simp only [Groups.elif, Bool.or_self, Bool.false_eq_true, if_false, hg, if_true]
    rw [switchBranch, RunState.nextBranch, RunState.groups_atLine, RunState.groups_regroup, helif]
    simp only [heval]
    cases test (s.atLine number) (some condition) <;> rfl

/-- A closing line leaves the innermost group. -/
theorem followRole_closes {s : RunState} {top : Scope} {g : Groups} {text : Text}
    (h : role text = .closes) (number : Nat) :
    followRole ((s.regroup (top :: g)).atLine number) text (role text) =
      .ok (.proceed ((s.atLine number).regroup g)) := by
  rw [h, followRole]
  rfl

/-- After its active branch a group is finished. -/
theorem followRole_switches_taken {s : RunState} {g : Groups} {text : Text}
    {guard : Option (List Token)} (h : role text = .switches guard) (opened : Position)
    (number : Nat) :
    followRole ((s.regroup (⟨true, true, opened⟩ :: g)).atLine number) text (role text) =
      .ok (.proceed ((s.atLine number).regroup (⟨false, true, opened⟩ :: g))) := by
  rw [h, followRole]
  cases guard <;> rfl

/-! ## Blocks in active text -/

/-- Following an include by `inner` looks like following it by `outer`, whatever groups are open
besides, as long as they are active. -/
def EntersAlike (outer inner : RunState → Include → m Outcome) : Prop :=
  ∀ (s : RunState) (g : Groups) (request : Include), g.active = true →
    Alike (outer (s.regroup g) request) (Outcome.regroup g <$> inner s request)

-- By recursion on the structure, with `rest` left open: after a block the run goes on with whatever
-- lines stand behind it, so the branches of a group can be taken one after the other.
mutual

/-- Reading the lines of a block in active text looks like carrying out the block. -/
theorem alike_readLines_block {outer inner : RunState → Include → m Outcome}
    (henter : EntersAlike outer inner) (b : Block) (s : RunState) {g : Groups}
    (hg : g.active = true) (number : Nat) (rest : List Text) :
    Alike (readLines outer (s.regroup g) number (b.lines ++ rest))
      (b.exec inner s number >>= andThen fun next =>
        readLines outer (next.regroup g) (number + b.lines.length) rest) := by
  cases b with
  | empty =>
    rw [Block.exec, pure_bind]
    exact rfl
  | line text h block =>
    have hrole := followRole_ordinary (s := s) hg h number
    rw [Block.lines, List.cons_append, Block.exec]
    cases hobey : obey (s.atLine number) text with
    | error cause =>
      rw [hobey] at hrole
      rw [readLines_cons_of_error outer hrole, pure_failHere_bind_andThen]
      exact alike_failHere_regroup s g number cause
    | ok action =>
      cases action with
      | proceed next =>
        rw [hobey] at hrole
        rw [readLines_cons_of_proceed outer hrole]
        have hblock := alike_readLines_block henter block next hg (number + 1) rest
        rw [Nat.add_right_comm, Nat.add_assoc] at hblock
        exact hblock
      | enter request =>
        -- The file is read under the groups of `g` as well, and they are put back after it.
        rw [hobey] at hrole
        rw [readLines_cons_of_enter outer hrole, bind_andThen_assoc]
        refine ((henter (s.atLine number) g request hg).bind_andThen fun _ => rfl).trans ?_
        refine (alike_regroup_bind_andThen g _ _).trans ?_
        refine Alike.bind_andThen rfl fun next => ?_
        have hblock := alike_readLines_block henter block next hg (number + 1) rest
        rw [Nat.add_right_comm, Nat.add_assoc] at hblock
        exact hblock
  | group opener condition h branches block =>
    have hrole := followRole_opens (s := s) hg h number
    rw [Block.lines, List.cons_append, List.append_assoc, Block.exec]
    cases htest : test (s.atLine number) (some condition) with
    | error cause =>
      rw [htest] at hrole
      rw [readLines_cons_of_error outer hrole, pure_failHere_bind_andThen]
      exact alike_failHere_regroup s g number cause
    | ok v =>
      rw [htest] at hrole
      rw [readLines_cons_of_proceed outer hrole, bind_andThen_assoc]
      refine (alike_readLines_branches henter branches v (s.atLine number) hg _
        (number + 1) _).trans ?_
      refine Alike.bind_andThen rfl fun next => ?_
      have hblock :=
        alike_readLines_block henter block next hg (number + 1 + branches.lines.length) rest
      have hlength : number + 1 + branches.lines.length + block.lines.length =
          number + (opener :: (branches.lines ++ block.lines)).length := by
        rw [List.length_cons, List.length_append]
        omega
      rw [hlength] at hblock
      exact hblock

/-- Reading the lines of branches in active text looks like carrying out the first one that is to
be carried out. -/
theorem alike_readLines_branches {outer inner : RunState → Include → m Outcome}
    (henter : EntersAlike outer inner) (branches : Branches) (v : Bool) (s : RunState)
    {g : Groups} (hg : g.active = true) (opened : Position) (number : Nat) (rest : List Text) :
    Alike (readLines outer (s.regroup (⟨v, v, opened⟩ :: g)) number (branches.lines ++ rest))
      (branches.exec inner v s number >>= andThen fun next =>
        readLines outer (next.regroup g) (number + branches.lines.length) rest) := by
  have hactive : Groups.active (⟨true, true, opened⟩ :: g) = true := hg
  cases branches with
  | last body close h =>
    rw [Branches.lines, List.append_assoc, List.singleton_append, List.length_append,
      List.length_singleton, ← Nat.add_assoc]
    cases v with
    | true =>
      rw [Branches.exec, bind_andThen_assoc]
      refine (alike_readLines_block henter body s hactive number (close :: rest)).trans ?_
      refine Alike.bind_andThen rfl fun next => ?_
      rw [readLines_cons_of_proceed outer (followRole_closes h _), pure_bind]
      exact rfl
    | false =>
      rw [Branches.exec, pure_bind, readLines_skipped_block outer body rfl,
        readLines_cons_of_proceed outer (followRole_closes h _)]
      exact rfl
  | next body switch guard h others =>
    rw [Branches.lines, List.append_assoc, List.cons_append, List.length_append,
      List.length_cons]
    cases v with
    | true =>
      -- The first branch is carried out, and the group is finished at the next switching line.
      rw [Branches.exec, bind_andThen_assoc]
      refine (alike_readLines_block henter body s hactive number _).trans ?_
      refine Alike.bind_andThen rfl fun next => ?_
      have hclose : number + body.lines.length + 1 + others.lines.length =
          number + body.lines.length + others.lines.length + 1 := by
        omega
      have hlength : number + (body.lines.length + (others.lines.length + 1)) =
          number + body.lines.length + others.lines.length + 1 := by
        omega
      rw [readLines_cons_of_proceed outer (followRole_switches_taken h opened _),
        readLines_finished_branches outer others rfl (Finished.of_taken opened g) _ hclose,
        pure_bind, hlength]
      exact rfl
    | false =>
      -- The first branch is skipped, and the guard decides about the next one in the same state.
      have hrole := followRole_switches (s := s) hg h opened (number + body.lines.length)
      rw [Branches.exec, readLines_skipped_block outer body rfl]
      cases htest : test (s.atLine (number + body.lines.length)) guard with
      | error cause =>
        rw [htest] at hrole
        dsimp only
        rw [readLines_cons_of_error outer hrole, pure_failHere_bind_andThen]
        exact alike_failHere_regroup s _ _ cause
      | ok v =>
        rw [htest] at hrole
        dsimp only
        rw [readLines_cons_of_proceed outer hrole]
        have hothers := alike_readLines_branches henter others v
          (s.atLine (number + body.lines.length)) hg opened (number + body.lines.length + 1) rest
        have hlength : number + body.lines.length + 1 + others.lines.length =
            number + (body.lines.length + (others.lines.length + 1)) := by
          omega
        rw [hlength] at hothers
        exact hothers

end

/-! ## Includes -/

/-- A text whose lines are well nested once it is normalized. -/
def WellNestedText (text : Text) : Prop :=
  ∀ normalized, Source.normalize text = .ok normalized → WellNested (Text.lines normalized)

/-- A resolver every file of which is well nested. -/
def WellNestedFiles (resolver : Option (Resolver m)) : Prop :=
  ∀ resolve, resolver = some resolve → ∀ request,
    SatisfiesM (fun answer => ∀ text, answer = .ok text → WellNestedText text) (resolve request)

/-- Two runs go on alike after an answer if they do after every answer that can be given. -/
theorem bind_congr_of_satisfies {α β : Type} {p : α → Prop} {x : m α} (hx : SatisfiesM p x)
    {f g : α → m β} (h : ∀ a, p a → f a = g a) : x >>= f = x >>= g := by
  obtain ⟨x', rfl⟩ := hx
  rw [bind_map_left, bind_map_left]
  congr 1
  funext a
  exact h a.1 a.2

/-- Reading the text of an include by `inner` looks like reading it by `outer`, whatever groups are
open besides, as long as they are active. -/
def ReadsAlike (outer inner : RunState → Text → m Outcome) : Prop :=
  ∀ (s : RunState) (g : Groups) (text : Text), g.active = true → WellNestedText text →
    Alike (outer (s.regroup g) text) (Outcome.regroup g <$> inner s text)

/-- The state in which the text of an include is read. -/
def entered (s : RunState) (request : Include) : RunState :=
  let marked := { s with
    processed := Text.toLower request.name :: s.processed
    requests := s.requests ++ [request] }
  { marked.note (ascii "include " ++ request.spelling) with
    files := s.files ++ [request.name]
    file := request.name }

/-- An outcome back at the file and line of an including state. -/
def backAt (s : RunState) (out : Outcome) : Outcome :=
  { out with state := { out.state with file := s.file, line := s.line } }

theorem Alike.map_backAt {x y : m Outcome} (h : Alike x y) (s : RunState) :
    Alike (backAt s <$> x) (backAt s <$> y) := by
  -- Going back changes the file and the line only, and what is observed does not depend on them.
  have hcomm : Outcome.observed ∘ backAt s = backAt s ∘ Outcome.observed := by
    funext ⟨state, fault⟩
    cases fault <;> rfl
  rw [Alike, ← comp_map, ← comp_map, hcomm, comp_map, comp_map, h]

/-- Includes are followed alike if their texts are read alike. -/
theorem ReadsAlike.entersAlike {resolver : Option (Resolver m)} (hfiles : WellNestedFiles resolver)
    {outer inner : RunState → Text → m Outcome} (h : ReadsAlike outer inner) :
    EntersAlike (RunState.enter resolver outer) (RunState.enter resolver inner) := by
  intro s g request hg
  by_cases hkey : Text.toLower request.name ∈ s.processed
  · -- The file has been read before: nothing is done on either side.
    have hkey' : Text.toLower request.name ∈ (s.regroup g).processed := hkey
    rw [RunState.enter, RunState.enter, if_pos hkey, if_pos hkey', map_pure]
    exact rfl
  · have hkey' : Text.toLower request.name ∉ (s.regroup g).processed := hkey
    rw [RunState.enter, RunState.enter, if_neg hkey, if_neg hkey']
    cases resolver with
    | none =>
      rw [Alike, map_pure, map_pure, map_pure]
      rfl
    | some resolve =>
      dsimp only
      rw [Alike, map_bind, map_bind, map_bind]
      refine bind_congr_of_satisfies (hfiles resolve rfl request) fun answer hanswer => ?_
      cases answer with
      | error failure =>
        dsimp only
        rw [map_pure, map_pure, map_pure]
        rfl
      | ok text =>
        -- Inside the file both are read alike, and both come back to the same line.
        have hread := (h (entered s request) g text hg (hanswer text rfl)).map_backAt s
        have hcomm : backAt s <$> Outcome.regroup g <$> inner (entered s request) text =
            Outcome.regroup g <$> backAt s <$> inner (entered s request) text := by
          rw [← comp_map, ← comp_map]
          rfl
        rw [hcomm, ← bind_pure_comp (backAt s), ← bind_pure_comp (backAt s)] at hread
        exact hread

/-! ## Runs -/

theorem bind_andThen_pure (x : m Outcome) : (x >>= andThen fun s => pure ⟨s, none⟩) = x := by
  have hpure : (andThen fun s => pure ⟨s, none⟩) = (pure : Outcome → m Outcome) := by
    funext ⟨s, fault⟩
    cases fault <;> rfl
  rw [hpure, bind_pure]

/-- Reading well-nested lines in active text looks like carrying them out by their structure. -/
theorem alike_readLines_interpretLines {outer inner : RunState → Include → m Outcome}
    (henter : EntersAlike outer inner) (s : RunState) {g : Groups} (hg : g.active = true)
    (number : Nat) {lines : List Text} (hlines : WellNested lines) :
    Alike (readLines outer (s.regroup g) number lines)
      (Outcome.regroup g <$> interpretLines inner s number lines) := by
  obtain ⟨b, rfl⟩ := hlines
  have hblock := alike_readLines_block henter b s hg number []
  have hregroup := alike_regroup_bind_andThen g (b.exec inner s number) fun s => pure ⟨s, none⟩
  rw [bind_andThen_pure] at hregroup
  rw [List.append_nil] at hblock
  rw [interpretLines, Block.ofLines?_lines]
  exact hblock.trans hregroup.symm

/-- Reading a well-nested text line by line looks like reading it by its structure. -/
theorem readsAlike_process {resolver : Option (Resolver m)} (hfiles : WellNestedFiles resolver)
    (depth : Nat) : ReadsAlike (RunState.process resolver depth) (interpret resolver depth) := by
  -- A file that is included is read with one level less.
  induction depth with
  | zero =>
    intro s g text _ _
    rw [RunState.process, interpret, Alike, map_pure, map_pure, map_pure]
    rfl
  | succ depth ih =>
    intro s g text hg htext
    rw [RunState.process, interpret]
    cases hnorm : Source.normalize text with
    | error line =>
      rw [Alike, map_pure, map_pure, map_pure]
      rfl
    | ok normalized =>
      exact alike_readLines_interpretLines (ih.entersAlike hfiles) s hg 1 (htext normalized hnorm)

/-- Reading well-nested lines one by one, from a state in which nothing is skipped and with
includes that are well nested, comes to what the structure of the lines means: the same macros,
code, files, requests and notes, the same fault if there is one, and the groups that were open
before if there is none. -/
theorem readLines_refines_structure {resolver : Option (Resolver m)}
    (hfiles : WellNestedFiles resolver) (depth : Nat) {s : RunState}
    (hs : s.groups.active = true) (number : Nat) {lines : List Text}
    (hlines : WellNested lines) :
    Outcome.observed <$>
        readLines (RunState.enter resolver (RunState.process resolver depth)) s number lines =
      Outcome.observed <$> Outcome.regroup s.groups <$>
        interpretLines (RunState.enter resolver (interpret resolver depth)) s number lines :=
  alike_readLines_interpretLines ((readsAlike_process hfiles depth).entersAlike hfiles) s hs
    number hlines

/-- A group around an include. -/
def guardedInclude : List Text := [ascii "#ifndef A", ascii "#include <a.h>", ascii "#endif"]

/-- The file that `guardedInclude` includes, with a group of its own. -/
def guardedFile : Text := ascii "#if 1\n#define A 2\n#endif"

theorem wellNested_guardedInclude : WellNested guardedInclude :=
  ⟨.group _ _ (by decide +kernel : role _ = .opens (Token.operator "!" :: Token.blank ::
      RunState.definedCondition (Token.word "A")))
    (.last (.line _ (by decide +kernel) .empty) _ (by decide +kernel)) .empty, rfl⟩

theorem wellNestedText_guardedFile : WellNestedText guardedFile := by
  intro normalized hnorm
  have hsame : (Source.normalize guardedFile).toOption = some guardedFile := by decide +kernel
  rw [hnorm] at hsame
  obtain rfl : normalized = guardedFile := Option.some.inj hsame
  have hlines : Text.lines guardedFile = [ascii "#if 1", ascii "#define A 2", ascii "#endif"] := by
    decide +kernel
  rw [hlines]
  exact ⟨.group _ _ (by decide +kernel : role _ = .opens [Token.word "1"])
    (.last (.line _ (by decide +kernel) .empty) _ (by decide +kernel)) .empty, rfl⟩

theorem wellNestedFiles_guardedFile :
    WellNestedFiles (some (FileSet.resolver [(ascii "a.h", guardedFile)])) := by
  intro resolve hresolve request
  obtain rfl := Option.some.inj hresolve
  rw [SatisfiesM_Id_eq]
  intro text htext
  rw [FileSet.resolver, FileSet.find?, List.reverse_singleton, List.lookup_cons] at htext
  cases hname : request.name == ascii "a.h" with
  | true =>
    rw [hname] at htext
    obtain rfl : guardedFile = text := Except.ok.inj htext
    exact wellNestedText_guardedFile
  | false =>
    rw [hname] at htext
    exact nomatch htext

/-- A file included from a guarded line, read at the start of a run. -/
theorem readLines_refines_structure_guardedInclude :
    Outcome.observed <$>
        readLines (RunState.enter (some (FileSet.resolver [(ascii "a.h", guardedFile)]))
          (RunState.process (some (FileSet.resolver [(ascii "a.h", guardedFile)])) 2))
          (RunState.initial []) 1 guardedInclude =
      Outcome.observed <$> Outcome.regroup [] <$>
        interpretLines (RunState.enter (some (FileSet.resolver [(ascii "a.h", guardedFile)]))
          (interpret (some (FileSet.resolver [(ascii "a.h", guardedFile)])) 2))
          (RunState.initial []) 1 guardedInclude :=
  readLines_refines_structure wellNestedFiles_guardedFile 2 rfl 1 wellNested_guardedInclude

end Nesting

end HeaderMacros
