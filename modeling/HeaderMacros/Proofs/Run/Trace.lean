import HeaderMacros.Proofs.Run.Line
import Mathlib

/-!
# The course of a run

A run reads the lines of a document, and in their midst those of the files that they include. Its
*events* tell what happens in which order: a line is read, the resolver is asked for a file, an
include comes back. `Runs` says which events lead from a state to an outcome.

The resolver may work in any monad. To tell what it is asked, it is made to keep a record of its
calls and answers (`recording`). That does not change a run (`run_recording`), and every run with a
record has a course, in which the resolver is asked and answers as the record says (`traced_run`).
-/

namespace HeaderMacros

/-! ## Events -/

/-- A line that a run comes to. -/
structure Visit where
  /-- The names of the included files being read, the innermost first. -/
  chain : List Text
  /-- The number of the line in its file. -/
  number : Nat
  /-- The line. -/
  text : Text
  /-- The state in which it is read. -/
  state : RunState

/-- The place of a line: in the innermost included file, or else in the document of the run. -/
def Visit.place (v : Visit) : Position := ⟨v.chain.headD RunState.rootFile, v.number⟩

/-- A call of the resolver. -/
structure Call where
  /-- The file that it is asked for. -/
  request : Include
  /-- The text that it gives, or why there is none. -/
  answer : Except SearchFailure Text

/-- What happens in a run. -/
inductive Event where
  /-- A line is read. -/
  | line (v : Visit)
  /-- The resolver is asked for a file and answers. -/
  | asked (call : Call)
  /-- The include on a line comes back with an outcome. -/
  | left (v : Visit) (request : Include) (out : Outcome)

/-- The call of the resolver that an event is. -/
def Event.call? : Event → Option Call
  | .asked call => some call
  | .line _ | .left _ _ _ => none

/-- The calls of the resolver among some events. -/
def callsOf (events : List Event) : List Call := events.filterMap Event.call?

@[simp]
theorem callsOf_nil : callsOf [] = [] := rfl

@[simp]
theorem callsOf_line (v : Visit) (events : List Event) :
    callsOf (.line v :: events) = callsOf events := rfl

@[simp]
theorem callsOf_asked (call : Call) (events : List Event) :
    callsOf (.asked call :: events) = call :: callsOf events := rfl

@[simp]
theorem callsOf_left (v : Visit) (request : Include) (out : Outcome) (events : List Event) :
    callsOf (.left v request out :: events) = callsOf events := rfl

@[simp]
theorem callsOf_append (first second : List Event) :
    callsOf (first ++ second) = callsOf first ++ callsOf second :=
  List.filterMap_append

/-- The lines among the events of a line with an include. -/
theorem line_mem_include {v here : Visit} {request : Include} {back : Outcome}
    {events more : List Event} :
    .line v ∈ .line here :: (events ++ .left here request back :: more) ↔
      v = here ∨ .line v ∈ events ∨ .line v ∈ more := by
  simp

/-! ## States of an include -/

namespace RunState

/-- The name of a file counts as seen. -/
def mark (s : RunState) (request : Include) : RunState :=
  { s with processed := Text.toLower request.name :: s.processed }

/-- The resolver is asked for a file. -/
def ask (s : RunState) (request : Include) : RunState :=
  { s.mark request with requests := s.requests ++ [request] }

/-- The text of a file is there to be read. -/
def inside (s : RunState) (request : Include) : RunState :=
  { (s.ask request).note (ascii "include " ++ request.spelling) with
    files := s.files ++ [request.name]
    file := request.name }

/-- An include of a file that has been seen is noted. -/
def skip (s : RunState) (request : Include) : RunState :=
  s.note (ascii "skipping " ++ request.spelling ++ ascii ", already processed")

/-- A state back at the line of another one. -/
def backTo (s here : RunState) : RunState := { s with file := here.file, line := here.line }

@[simp]
theorem processed_atLine (s : RunState) (number : Nat) :
    (s.atLine number).processed = s.processed := rfl

@[simp]
theorem files_atLine (s : RunState) (number : Nat) : (s.atLine number).files = s.files := rfl

end RunState

/-! ## The course of a run -/

/-- What a run is at. -/
inductive Task where
  /-- Reading lines, the first of which has the given number. -/
  | lines (number : Nat) (texts : List Text)
  /-- Following an include. -/
  | enter (request : Include)
  /-- Reading a text. -/
  | text (text : Text)

open Nesting (failHere)

/-- The events of a task, from a state to an outcome, with a resolver or without one. The included
files being read are given by their names, the innermost first. -/
inductive Runs (resolving : Bool) :
    List Text → Task → RunState → List Event → Outcome → Prop where
  /-- No line is left. -/
  | done {chain : List Text} {number : Nat} {s : RunState} :
    Runs resolving chain (.lines number []) s [] ⟨s, none⟩
  /-- A line fails. -/
  | failed {chain : List Text} {number : Nat} {text : Text} {rest : List Text} {s : RunState}
    {cause : Cause} (hline : (s.atLine number).readLine text = .error cause) :
    Runs resolving chain (.lines number (text :: rest)) s
      [.line ⟨chain, number, text, s.atLine number⟩] (failHere (s.atLine number) cause)
  /-- A line changes the state. -/
  | proceeded {chain : List Text} {number : Nat} {text : Text} {rest : List Text}
    {s next : RunState} {events : List Event} {out : Outcome}
    (hline : (s.atLine number).readLine text = .ok (.proceed next))
    (hrest : Runs resolving chain (.lines (number + 1) rest) next events out) :
    Runs resolving chain (.lines number (text :: rest)) s
      (.line ⟨chain, number, text, s.atLine number⟩ :: events) out
  /-- A line has an include that fails. -/
  | stopped {chain : List Text} {number : Nat} {text : Text} {rest : List Text} {s : RunState}
    {request : Include} {events : List Event} {out : Outcome} {fault : Fault}
    (hline : (s.atLine number).readLine text = .ok (.enter request))
    (henter : Runs resolving chain (.enter request) (s.atLine number) events out)
    (hout : out.fault = some fault) :
    Runs resolving chain (.lines number (text :: rest)) s
      (.line ⟨chain, number, text, s.atLine number⟩ ::
        (events ++ [.left ⟨chain, number, text, s.atLine number⟩ request out])) out
  /-- A line has an include, and the lines after it go on from there. -/
  | included {chain : List Text} {number : Nat} {text : Text} {rest : List Text} {s : RunState}
    {request : Include} {events more : List Event} {out last : Outcome}
    (hline : (s.atLine number).readLine text = .ok (.enter request))
    (henter : Runs resolving chain (.enter request) (s.atLine number) events out)
    (hout : out.fault = none)
    (hrest : Runs resolving chain (.lines (number + 1) rest) out.state more last) :
    Runs resolving chain (.lines number (text :: rest)) s
      (.line ⟨chain, number, text, s.atLine number⟩ ::
        (events ++ .left ⟨chain, number, text, s.atLine number⟩ request out :: more)) last
  /-- The file has been seen. -/
  | skipped {chain : List Text} {request : Include} {s : RunState}
    (hseen : Text.toLower request.name ∈ s.processed) :
    Runs resolving chain (.enter request) s [] ⟨s.skip request, none⟩
  /-- There is no resolver. -/
  | sourceless {chain : List Text} {request : Include} {s : RunState} (hresolving : resolving = false)
    (hnew : Text.toLower request.name ∉ s.processed) :
    Runs resolving chain (.enter request) s []
      ⟨s.mark request, some ⟨s.position, .unresolved request .noSource⟩⟩
  /-- The resolver does not have the file. -/
  | refused {chain : List Text} {request : Include} {s : RunState} {failure : SearchFailure}
    (hresolving : resolving = true) (hnew : Text.toLower request.name ∉ s.processed) :
    Runs resolving chain (.enter request) s [.asked ⟨request, .error failure⟩]
      ⟨s.ask request, some ⟨s.position, .unresolved request failure⟩⟩
  /-- The text of the file is read. -/
  | answered {chain : List Text} {request : Include} {s : RunState} {text : Text}
    {events : List Event} {out : Outcome} (hresolving : resolving = true)
    (hnew : Text.toLower request.name ∉ s.processed)
    (htext : Runs resolving (request.name :: chain) (.text text) (s.inside request) events out) :
    Runs resolving chain (.enter request) s (.asked ⟨request, .ok text⟩ :: events)
      { out with state := out.state.backTo s }
  /-- The text is nested too deeply. -/
  | tooDeep {chain : List Text} {text : Text} {s : RunState} :
    Runs resolving chain (.text text) s [] (failHere s .nestedTooDeeply)
  /-- A comment of the text is never closed. -/
  | unterminated {chain : List Text} {text : Text} {s : RunState} {line : Nat}
    (hnormalize : Source.normalize text = .error line) :
    Runs resolving chain (.text text) s []
      ⟨s, some ⟨⟨s.file, line⟩, .malformed .unterminatedComment []⟩⟩
  /-- The lines of the text are read. -/
  | read {chain : List Text} {text normalized : Text} {s : RunState} {events : List Event}
    {out : Outcome} (hnormalize : Source.normalize text = .ok normalized)
    (hlines : Runs resolving chain (.lines 1 (Text.lines normalized)) s events out) :
    Runs resolving chain (.text text) s events out

/-! ## Places -/

variable {resolving : Bool} {chain : List Text} {task : Task} {s : RunState} {events : List Event}
  {out : Outcome}

theorem Runs.file_eq (h : Runs resolving chain task s events out) : out.state.file = s.file := by
  induction h with
  | done | failed | skipped | sourceless | refused | answered | tooDeep | unterminated => rfl
  | proceeded hline _ ih => exact ih.trans (Nesting.sameFiles_of_readLine hline).file
  | stopped _ _ _ ih => exact ih
  | included _ _ _ _ ihenter ihrest => exact ihrest.trans ihenter
  | read _ _ ih => exact ih

/-- An include comes back to its line, with or without a fault. -/
theorem Runs.position_of_enter {request : Include}
    (h : Runs resolving chain (.enter request) s events out) :
    out.state.position = s.position := by
  cases h <;> rfl

/-- The state at a line, and the state after its include, are at the place of the line. -/
def Event.WellPlaced : Event → Prop
  | .line v => v.state.position = v.place
  | .asked _ => True
  | .left v _ out => out.state.position = v.place

theorem position_atLine (hs : s.file = chain.headD RunState.rootFile) (number : Nat) (text : Text) :
    (s.atLine number).position = Visit.place ⟨chain, number, text, s.atLine number⟩ := by
  simp [RunState.position, Visit.place, RunState.atLine, hs]

theorem Runs.wellPlaced (h : Runs resolving chain task s events out)
    (hs : s.file = chain.headD RunState.rootFile) : ∀ e ∈ events, e.WellPlaced := by
  induction h with
  | done | skipped | sourceless | tooDeep | unterminated => simp
  | failed => exact List.forall_mem_singleton.2 (position_atLine hs _ _)
  | proceeded hline _ ih =>
    refine List.forall_mem_cons.2 ⟨position_atLine hs _ _, ih ?_⟩
    rw [(Nesting.sameFiles_of_readLine hline).file]
    exact hs
  | stopped _ henter _ ih =>
    refine List.forall_mem_cons.2 ⟨position_atLine hs _ _, List.forall_mem_append.2 ⟨ih hs, ?_⟩⟩
    simpa [Event.WellPlaced] using henter.position_of_enter.trans (position_atLine hs _ _)
  | included _ henter _ _ ihenter ihrest =>
    refine List.forall_mem_cons.2 ⟨position_atLine hs _ _, List.forall_mem_append.2 ⟨ihenter hs, ?_⟩⟩
    refine List.forall_mem_cons.2 ⟨henter.position_of_enter.trans (position_atLine hs _ _), ihrest ?_⟩
    rw [henter.file_eq]
    exact hs
  | refused => simp [Event.WellPlaced]
  | answered _ _ _ ih => exact List.forall_mem_cons.2 ⟨trivial, ih rfl⟩
  | read _ _ ih => exact ih hs

/-! ## A record of the resolver's calls -/

variable {m : Type → Type} [Monad m] [LawfulMonad m]

/-- A resolver that keeps a record of its calls. -/
def recording (resolve : Resolver m) : Resolver (StateT (List Call) m) := fun request => do
  let answer ← resolve request
  modify (· ++ [⟨request, answer⟩])
  return answer

theorem run_recording_apply (resolve : Resolver m) (request : Include) (calls : List Call) :
    (recording resolve request).run calls =
      (fun answer => (answer, calls ++ [⟨request, answer⟩])) <$> resolve request := by
  simp [recording]

/-- Reading lines does not change by a record, if following includes does not. -/
theorem readLines_recording {enter : RunState → Include → m Outcome}
    {enter' : RunState → Include → StateT (List Call) m Outcome}
    (h : ∀ s request calls, Prod.fst <$> (enter' s request).run calls = enter s request)
    (s : RunState) (number : Nat) (texts : List Text) (calls : List Call) :
    Prod.fst <$> (RunState.readLines enter' s number texts).run calls =
      RunState.readLines enter s number texts := by
  induction texts generalizing s number calls with
  | nil => simp [RunState.readLines]
  | cons text rest ih =>
    rw [RunState.readLines, RunState.readLines]
    cases ({ s with line := number } : RunState).readLine text with
    | error cause => simp
    | ok action =>
      cases action with
      | proceed next => exact ih _ _ _
      | enter request =>
        simp only [StateT.run_bind, map_bind, ← h _ request calls, bind_map_left]
        congr 1
        funext result
        obtain ⟨out, calls'⟩ := result
        cases out.fault with
        | some fault => simp
        | none => exact ih _ _ _

theorem enter_recording {process : RunState → Text → m Outcome}
    {process' : RunState → Text → StateT (List Call) m Outcome}
    (h : ∀ s text calls, Prod.fst <$> (process' s text).run calls = process s text)
    (resolver : Option (Resolver m)) (s : RunState) (request : Include) (calls : List Call) :
    Prod.fst <$> (RunState.enter (resolver.map recording) process' s request).run calls =
      RunState.enter resolver process s request := by
  rw [RunState.enter, RunState.enter]
  by_cases hseen : Text.toLower request.name ∈ s.processed
  · simp [hseen]
  · simp only [hseen, if_false]
    cases resolver with
    | none => simp
    | some resolve =>
      simp only [Option.map_some, StateT.run_bind, run_recording_apply, map_bind, bind_map_left]
      congr 1
      funext answer
      cases answer with
      | error failure => simp
      | ok text => simp [← h _ text (calls ++ [⟨request, .ok text⟩])]

theorem process_recording (resolver : Option (Resolver m)) (depth : Nat) (s : RunState)
    (text : Text) (calls : List Call) :
    Prod.fst <$> (s.process (resolver.map recording) depth text).run calls =
      s.process resolver depth text := by
  -- One level less of nesting is what the files of an include are read with.
  induction depth generalizing s text calls with
  | zero => simp [RunState.process]
  | succ depth ih =>
    rw [RunState.process, RunState.process]
    cases Source.normalize text with
    | error line => simp
    | ok normalized => exact readLines_recording (enter_recording ih resolver) _ _ _ _

/-- A run does not change by a record of the resolver's calls. -/
theorem run_recording (resolver : Option (Resolver m)) (depth : Nat) (predefined : List Macro)
    (text : Text) (calls : List Call) :
    Prod.fst <$> (run (resolver.map recording) depth predefined text).run calls =
      run resolver depth predefined text := by
  simp only [run, ← process_recording resolver depth (RunState.initial predefined) text calls,
    StateT.run_bind, map_bind, bind_map_left]
  simp

/-! ## Every run has a course -/

/-- What is known of the calls of a resolver, if there is one. -/
def Answers (P : Call → Prop) (resolver : Option (Resolver m)) : Prop :=
  ∀ resolve, resolver = some resolve → ∀ request,
    SatisfiesM (fun answer => P ⟨request, answer⟩) (resolve request)

theorem answers_true (resolver : Option (Resolver m)) : Answers (fun _ => True) resolver :=
  fun _ _ _ => SatisfiesM.trivial

/-- The number of files that a resolver gave. -/
def given (calls : List Call) : Nat := calls.countP fun call => call.answer.isOk

@[simp]
theorem given_append (first second : List Call) :
    given (first ++ second) = given first + given second :=
  List.countP_append

@[simp]
theorem given_cons_ok (request : Include) (text : Text) (calls : List Call) :
    given (⟨request, .ok text⟩ :: calls) = given calls + 1 :=
  List.countP_cons_of_pos rfl

/-- An outcome of a run that was cut short because its includes are nested too deeply. -/
def Outcome.CutShort (out : Outcome) : Prop :=
  ∃ place, out.fault = some ⟨place, .nestedTooDeeply⟩

/-- An outcome with the calls of the resolver so far comes from the events of a task. The calls are
such as the resolver makes, and the task is cut short only after `depth` files. -/
def Traced (P : Call → Prop) (depth : Nat) (resolving : Bool) (chain : List Text) (task : Task)
    (s : RunState) (calls : List Call) (result : Outcome × List Call) : Prop :=
  ∃ events, Runs resolving chain task s events result.1 ∧ result.2 = calls ++ callsOf events ∧
    (∀ call ∈ callsOf events, P call) ∧
    (result.1.CutShort → depth ≤ given (callsOf events))

theorem Outcome.CutShort.of_close {out : Outcome} (h : out.close.CutShort) : out.CutShort := by
  obtain ⟨place, hplace⟩ := h
  unfold close at hplace
  split at hplace
  · exact ⟨place, hplace⟩
  · -- What the end of a run adds is a group that is still open.
    obtain ⟨opened, -, hfault⟩ := Option.map_eq_some_iff.1 hplace
    cases hfault

theorem traced_readLines {P : Call → Prop} {depth : Nat} {resolving : Bool} {chain : List Text}
    {enter : RunState → Include → StateT (List Call) m Outcome}
    (henter : ∀ s request calls,
      SatisfiesM (Traced P depth resolving chain (.enter request) s calls)
        ((enter s request).run calls))
    (s : RunState) (number : Nat) (texts : List Text) (calls : List Call) :
    SatisfiesM (Traced P depth resolving chain (.lines number texts) s calls)
      ((RunState.readLines enter s number texts).run calls) := by
  induction texts generalizing s number calls with
  | nil => exact SatisfiesM.pure ⟨[], .done, by simp, by simp, nofun⟩
  | cons text rest ih =>
    rw [RunState.readLines]
    cases hline : ({ s with line := number } : RunState).readLine text with
    | error cause =>
      -- A line by itself does not go deeper, so it cannot be what cuts a run short.
      have hcause := Nesting.readLine_spec ({ s with line := number } : RunState) text
      rw [hline] at hcause
      refine SatisfiesM.pure ⟨_, .failed hline, by simp, by simp, ?_⟩
      rintro ⟨place, hplace⟩
      cases hplace
      cases hcause
    | ok action =>
      cases action with
      | proceed next =>
        refine (ih next (number + 1) calls).imp ?_
        rintro ⟨out, calls'⟩ ⟨events, hrest, hcalls, hP, hcut⟩
        exact ⟨_, .proceeded hline hrest, by simpa using hcalls, by simpa using hP, hcut⟩
      | enter request =>
        simp only [StateT.run_bind]
        refine (henter _ request calls).bind ?_
        rintro ⟨out, calls'⟩ ⟨events, hevents, hcalls, hP, hcut⟩
        dsimp only at hevents hcalls hcut ⊢
        cases hout : out.fault with
        | some fault =>
          exact SatisfiesM.pure ⟨_, .stopped hline hevents hout, by simpa using hcalls,
            by simpa using hP, by simpa using hcut⟩
        | none =>
          refine (ih out.state (number + 1) calls').imp ?_
          rintro ⟨last, calls''⟩ ⟨more, hrest, hcalls', hP', hcut'⟩
          refine ⟨_, .included hline hevents hout hrest, by simp_all, ?_, fun h => ?_⟩
          · simp only [callsOf_line, callsOf_append, callsOf_left]
            exact List.forall_mem_append.2 ⟨hP, hP'⟩
          · have hmore := hcut' h
            simp only [callsOf_line, callsOf_append, callsOf_left, given_append]
            omega

theorem traced_enter {P : Call → Prop} {depth : Nat}
    {process : RunState → Text → StateT (List Call) m Outcome} {resolver : Option (Resolver m)}
    (hresolver : Answers P resolver) (chain : List Text)
    (hprocess : ∀ s chain text calls,
      SatisfiesM (Traced P depth resolver.isSome chain (.text text) s calls)
        ((process s text).run calls))
    (s : RunState) (request : Include) (calls : List Call) :
    SatisfiesM (Traced P (depth + 1) resolver.isSome chain (.enter request) s calls)
      ((RunState.enter (resolver.map recording) process s request).run calls) := by
  rw [RunState.enter]
  by_cases hseen : Text.toLower request.name ∈ s.processed
  · simp only [hseen, if_true]
    exact SatisfiesM.pure ⟨[], .skipped hseen, by simp, by simp, nofun⟩
  simp only [hseen, if_false]
  cases resolver with
  | none => exact SatisfiesM.pure ⟨[], .sourceless rfl hseen, by simp, by simp, nofun⟩
  | some resolve =>
    simp only [Option.map_some, StateT.run_bind, run_recording_apply, bind_map_left]
    refine (hresolver resolve rfl request).bind fun answer hanswer => ?_
    cases answer with
    | error failure =>
      exact SatisfiesM.pure ⟨_, .refused rfl hseen, by simp, by simpa using hanswer, nofun⟩
    | ok text =>
      simp only [StateT.run_bind]
      refine (hprocess _ (request.name :: chain) text _).bind ?_
      rintro ⟨out, calls'⟩ ⟨events, hevents, hcalls, hP, hcut⟩
      refine SatisfiesM.pure ⟨_, .answered rfl hseen hevents, by simpa using hcalls, ?_, fun h => ?_⟩
      · simpa using ⟨hanswer, hP⟩
      · -- The file that was just given counts besides those that it includes.
        rw [callsOf_asked, given_cons_ok]
        exact Nat.add_le_add_right (hcut h) 1

theorem traced_process {P : Call → Prop} {resolver : Option (Resolver m)}
    (hresolver : Answers P resolver) (depth : Nat) (s : RunState) (chain : List Text)
    (text : Text) (calls : List Call) :
    SatisfiesM (Traced P depth resolver.isSome chain (.text text) s calls)
      ((s.process (resolver.map recording) depth text).run calls) := by
  -- The files that a text includes are read with one level less.
  induction depth generalizing s chain text calls with
  | zero => exact SatisfiesM.pure ⟨[], .tooDeep, by simp, by simp, fun _ => Nat.zero_le _⟩
  | succ depth ih =>
    rw [RunState.process]
    cases hnormalize : Source.normalize text with
    | error line =>
      refine SatisfiesM.pure ⟨[], .unterminated hnormalize, by simp, by simp, ?_⟩
      rintro ⟨place, hplace⟩
      cases hplace
    | ok normalized =>
      refine (traced_readLines (traced_enter hresolver chain ih) s 1 _ calls).imp ?_
      rintro ⟨out, calls'⟩ ⟨events, hevents, hcalls⟩
      exact ⟨events, .read hnormalize hevents, hcalls⟩

/-- Every run has a course, with the calls of the resolver that the record has. It is cut short only
if the resolver gave as many files as includes may be nested. -/
theorem traced_run_of_answers {P : Call → Prop} {resolver : Option (Resolver m)}
    (hresolver : Answers P resolver) (depth : Nat) (predefined : List Macro) (text : Text) :
    SatisfiesM (fun result => ∃ events last, Runs resolver.isSome [] (.text text)
        (RunState.initial predefined) events last ∧ result = (last.close, callsOf events) ∧
        (∀ call ∈ callsOf events, P call) ∧ (last.CutShort → depth ≤ given (callsOf events)))
      ((run (resolver.map recording) depth predefined text).run []) := by
  rw [run, StateT.run_bind]
  refine (traced_process hresolver depth _ [] text []).bind ?_
  rintro ⟨out, calls⟩ ⟨events, hevents, hcalls, hP, hcut⟩
  exact SatisfiesM.pure ⟨events, out, hevents, by rw [hcalls]; rfl, hP, hcut⟩

/-- Every run has a course, whatever is known of its resolver. -/
theorem traced_run (resolver : Option (Resolver m)) (depth : Nat) (predefined : List Macro)
    (text : Text) :
    SatisfiesM (fun result => ∃ events last, Runs resolver.isSome [] (.text text)
        (RunState.initial predefined) events last ∧ result = (last.close, callsOf events))
      ((run (resolver.map recording) depth predefined text).run []) := by
  refine (traced_run_of_answers (answers_true resolver) depth predefined text).imp ?_
  rintro result ⟨events, last, hruns, hresult, -⟩
  exact ⟨events, last, hruns, hresult⟩

end HeaderMacros
