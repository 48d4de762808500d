import HeaderMacros.Proofs.Nesting.Refinement
import HeaderMacros.Proofs.Run.IncludeOnce

/-!
# Includes come to an end

The texts behind includes need not get any smaller, and files may include each other. What bounds
the nesting of includes is the set of names that have been seen: the file that is entered has a new
one. If the files that are included have finitely many names only, letter case apart (`Confined`),
then every file that is entered uses up one of them (`card_unseen_inside`), and a nesting depth past
their number makes no difference any more (`process_eq_of_card_unseen_lt`).

* `run_of_confined`: any two depths past the number of names come to the same run, and it is not cut
  short.
* `FileSet.run_nestingBound`: this holds from the nesting bound of a fixed set of files on.
* `run_ends_within_classes`: no run is cut short, whatever its files include, if the resolver has
  files under finitely many names; and what it reads is bounded by their number.
-/

namespace HeaderMacros

variable {m : Type → Type} [Monad m] [LawfulMonad m] {resolver : Option (Resolver m)}
  {classes : Finset Text} {s : RunState}

/-- The files of a resolver fall into finitely many classes: their names, in lower case, are among
the given ones. -/
def Within (classes : Finset Text) (resolver : Option (Resolver m)) : Prop :=
  Answers (fun call => call.answer.isOk → Text.toLower call.request.name ∈ classes) resolver

/-! ## Texts that include each other -/

/-- A line is one of the normalized text of one of some texts. -/
def LineIn (texts : Text → Prop) (line : Text) : Prop :=
  ∃ source normalized, texts source ∧ Source.normalize source = .ok normalized ∧
    line ∈ Text.lines normalized

/-- A file is included on a line of one of some texts. -/
def Included (texts : Text → Prop) (request : Include) : Prop :=
  ∃ line, LineIn texts line ∧ ∃ here : RunState, here.readLine line = .ok (.enter request)

/-- The texts of the files that some texts include are again among them, and the names of the files,
in lower case, are among the given ones. -/
def Confined (texts : Text → Prop) (classes : Finset Text) (resolver : Option (Resolver m)) :
    Prop :=
  Answers (fun call => ∀ text, call.answer = .ok text → Included texts call.request →
    texts text ∧ Text.toLower call.request.name ∈ classes) resolver

/-- A resolver with finitely many names confines the includes of all texts. -/
theorem Within.confined (h : Within classes resolver) :
    Confined (fun _ => True) classes resolver := by
  intro resolve hresolve request
  refine (h resolve hresolve request).imp fun hclass text htext _ => ?_
  dsimp only at htext
  exact ⟨trivial, hclass (by rw [htext]; rfl)⟩

/-- A task has to do with some texts only. -/
def Task.Among (texts : Text → Prop) : Task → Prop
  | .lines _ rest => ∀ line ∈ rest, LineIn texts line
  | .enter request => Included texts request
  | .text source => texts source

/-- What a task is asked for is included by the texts that it has to do with, if those of the files
that are given are among them. -/
theorem Runs.included_of_mem_callsOf {texts : Text → Prop} {resolving : Bool} {chain : List Text}
    {task : Task} {events : List Event} {out : Outcome}
    (h : Runs resolving chain task s events out) (htask : task.Among texts)
    (hcalls : ∀ call ∈ callsOf events, ∀ text, call.answer = .ok text →
      Included texts call.request → texts text) :
    ∀ call ∈ callsOf events, Included texts call.request := by
  induction h with
  | done | skipped | sourceless | tooDeep | failed | unterminated => exact nofun
  | proceeded _ _ ih => exact ih (List.forall_mem_cons.1 htask).2 hcalls
  | stopped hline _ _ ih =>
    -- The line with the include is one of these texts, so they include the file.
    have hhere := (List.forall_mem_cons.1 htask).1
    simp only [callsOf_line, callsOf_append, callsOf_left, callsOf_nil, List.append_nil]
      at hcalls ⊢
    exact ih ⟨_, hhere, _, hline⟩ hcalls
  | included hline _ _ _ ihenter ihrest =>
    obtain ⟨hhere, hrest⟩ := List.forall_mem_cons.1 htask
    simp only [callsOf_line, callsOf_append, callsOf_left, List.forall_mem_append] at hcalls ⊢
    exact ⟨ihenter ⟨_, hhere, _, hline⟩ hcalls.1, ihrest hrest hcalls.2⟩
  | refused => exact List.forall_mem_singleton.2 htask
  | @answered chain request s text events out hresolving hseen hrest ih =>
    rw [callsOf_asked, List.forall_mem_cons] at hcalls ⊢
    -- The text that is given is one of the texts, because the file was included by one of them.
    exact ⟨htask, ih (hcalls.1 text rfl htask) hcalls.2⟩
  | read hnormalize _ ih => exact ih (fun line hline => ⟨_, _, htask, hnormalize, hline⟩) hcalls

/-! ## Names that are left -/

/-- The names of a set that have not been seen yet. -/
def RunState.unseen (classes : Finset Text) (s : RunState) : Finset Text :=
  classes \ s.processed.toFinset

theorem mem_unseen {name : Text} :
    name ∈ s.unseen classes ↔ name ∈ classes ∧ name ∉ s.processed := by
  rw [RunState.unseen, Finset.mem_sdiff, List.mem_toFinset]

theorem unseen_subset {t : RunState} (h : s.processed ⊆ t.processed) :
    t.unseen classes ⊆ s.unseen classes := by
  intro name hname
  obtain ⟨hclass, hleft⟩ := mem_unseen.1 hname
  exact mem_unseen.2 ⟨hclass, fun hseen => hleft (h hseen)⟩

/-- A file that is entered uses up one of the names that are left. -/
theorem card_unseen_inside {request : Include} (hname : Text.toLower request.name ∈ classes)
    (hnew : Text.toLower request.name ∉ s.processed) :
    ((s.inside request).unseen classes).card < (s.unseen classes).card := by
  have hsubset : (s.inside request).unseen classes ⊆ s.unseen classes :=
    unseen_subset (List.subset_cons_self _ _)
  apply Finset.card_lt_card
  apply (Finset.ssubset_iff_of_subset hsubset).2
  refine ⟨Text.toLower request.name, mem_unseen.2 ⟨hname, hnew⟩, ?_⟩
  intro hleft
  exact (mem_unseen.1 hleft).2 List.mem_cons_self

/-! ## Nesting depths that make no difference -/

/-- What holds of every outcome of a recorded computation holds of the computation itself. -/
theorem satisfiesM_of_recording {p : Outcome → Prop} {x : StateT (List Call) m Outcome}
    {y : m Outcome} (hxy : Prod.fst <$> x.run [] = y)
    (hx : SatisfiesM (fun result => p result.1) (x.run [])) : SatisfiesM p y := by
  rw [← hxy]
  exact hx.map fun h => h

/-- Names that have been seen before an include have been seen after it. -/
theorem processed_subset_enter (resolver : Option (Resolver m)) (depth : Nat) (s : RunState)
    (request : Include) :
    SatisfiesM (fun out => s.processed ⊆ out.state.processed)
      (RunState.enter resolver (RunState.process resolver depth) s request) := by
  have htraced := traced_enter (answers_true resolver) []
    (traced_process (answers_true resolver) depth) s request []
  apply satisfiesM_of_recording (enter_recording (process_recording resolver depth) resolver s _ [])
  refine htraced.imp ?_
  rintro result ⟨events, hruns, -⟩
  exact hruns.processed_subset

/-- Lines are read alike if their includes are followed alike from all states that can come about,
which are those that have seen at least as much. -/
theorem readLines_congr {enter enter' : RunState → Include → m Outcome} (seen : List Text)
    {texts : List Text}
    (hsame : ∀ s request text, seen ⊆ s.processed → text ∈ texts →
      s.readLine text = .ok (.enter request) → enter s request = enter' s request)
    (hkeeps : ∀ s request,
      SatisfiesM (fun out => s.processed ⊆ out.state.processed) (enter s request))
    (hs : seen ⊆ s.processed) (number : Nat) :
    RunState.readLines enter s number texts = RunState.readLines enter' s number texts := by
  induction texts generalizing s number with
  | nil => rfl
  | cons text rest ih =>
    have hrest : ∀ s request text, seen ⊆ s.processed → text ∈ rest →
        s.readLine text = .ok (.enter request) → enter s request = enter' s request :=
      fun s request text hseen htext => hsame s request text hseen (List.mem_cons_of_mem _ htext)
    rw [RunState.readLines, RunState.readLines]
    cases hline : ({ s with line := number } : RunState).readLine text with
    | error cause => rfl
    | ok action =>
      cases action with
      | proceed next =>
        have hnext := (Nesting.sameFiles_of_readLine hline).processed
        exact ih hrest (hnext ▸ hs) _
      | enter request =>
        dsimp only
        rw [← hsame { s with line := number } request text hs List.mem_cons_self hline]
        apply Nesting.bind_congr_of_satisfies (hkeeps _ request)
        intro out hout
        cases out.fault with
        | some fault => rfl
        | none => exact ih hrest (List.Subset.trans hs hout) _

/-- Any two nesting depths past the number of names that are left come to the same. -/
theorem process_eq_of_card_unseen_lt {texts : Text → Prop}
    (hfiles : Confined texts classes resolver) {depth depth' : Nat}
    (hdepth : (s.unseen classes).card < depth) (hdepth' : (s.unseen classes).card < depth')
    {text : Text} (htext : texts text) :
    s.process resolver depth text = s.process resolver depth' text := by
  -- The files that a text includes are read with one level less, and with one name less left.
  induction depth generalizing depth' s text with
  | zero => exact absurd hdepth (Nat.not_lt_zero _)
  | succ depth ih =>
    obtain ⟨depth', rfl⟩ := Nat.exists_eq_add_one_of_ne_zero (Nat.ne_zero_of_lt hdepth')
    rw [RunState.process, RunState.process]
    cases hnormalize : Source.normalize text with
    | error line => rfl
    | ok normalized =>
      refine readLines_congr s.processed (fun here request line hhere hline hread => ?_)
        (processed_subset_enter resolver depth) (List.Subset.refl _) 1
      have hincluded : Included texts request :=
        ⟨line, ⟨text, normalized, htext, hnormalize, hline⟩, here, hread⟩
      have hleft : (here.unseen classes).card ≤ (s.unseen classes).card :=
        Finset.card_le_card (unseen_subset hhere)
      rw [RunState.enter, RunState.enter]
      by_cases hseen : Text.toLower request.name ∈ here.processed
      · rw [if_pos hseen, if_pos hseen]
      · rw [if_neg hseen, if_neg hseen]
        cases resolver with
        | none => rfl
        | some resolve =>
          dsimp only
          apply Nesting.bind_congr_of_satisfies (hfiles resolve rfl request)
          intro answer hanswer
          cases answer with
          | error failure => rfl
          | ok inner =>
            obtain ⟨htextInner, hclass⟩ := hanswer inner rfl hincluded
            have hless : ((here.inside request).unseen classes).card < (here.unseen classes).card :=
              card_unseen_inside hclass hseen
            have hinner : (here.inside request).process (some resolve) depth inner =
                (here.inside request).process (some resolve) depth' inner :=
              ih (by omega) (by omega) htextInner
            exact congrArg
              (· >>= fun out => pure { out with state := out.state.backTo here }) hinner

/-! ## Whole runs -/

/-- As many files are being read at a line as the resolver has given, at most. -/
theorem Runs.length_chain_le {resolving : Bool} {chain : List Text} {task : Task}
    {events : List Event} {out : Outcome} (h : Runs resolving chain task s events out) {v : Visit}
    (hv : .line v ∈ events) : v.chain.length ≤ chain.length + given (callsOf events) := by
  induction h with
  | done | skipped | sourceless | tooDeep | unterminated => cases hv
  | failed =>
    obtain ⟨rfl⟩ := by simpa using hv
    exact Nat.le_add_right _ _
  | proceeded _ _ ih =>
    rcases List.mem_cons.1 hv with heq | hv
    · cases heq
      exact Nat.le_add_right _ _
    · exact ih hv
  | stopped _ _ _ ih =>
    rcases line_mem_include.1 hv with rfl | hv | hv
    · exact Nat.le_add_right _ _
    · simpa using ih hv
    · cases hv
  | included _ _ _ _ ihenter ihrest =>
    rw [callsOf_line, callsOf_append, callsOf_left, given_append]
    rcases line_mem_include.1 hv with rfl | hv | hv
    · exact Nat.le_add_right _ _
    · have := ihenter hv
      omega
    · have := ihrest hv
      omega
  | refused => simp at hv
  | answered _ _ _ ih =>
    -- The file that is entered joins the chain, and is the one that was just given.
    have hinside := ih (by simpa using hv)
    rw [List.length_cons] at hinside
    rw [callsOf_asked, given_cons_ok]
    omega
  | read _ _ ih => exact ih hv

/-- Calls under different names give no more files than there are names. -/
theorem given_le_card {calls : List Call} (hnodup : (calls.map Call.key).Nodup)
    (hcalls : ∀ call ∈ calls, call.answer.isOk → Text.toLower call.request.name ∈ classes) :
    given calls ≤ classes.card := by
  have hgiven : ((calls.filter fun call => call.answer.isOk).map Call.key).Nodup :=
    hnodup.sublist (List.filter_sublist.map _)
  have hsubset : ((calls.filter fun call => call.answer.isOk).map Call.key).toFinset ⊆ classes := by
    intro name hname
    obtain ⟨call, hcall, rfl⟩ := List.mem_map.1 (List.mem_toFinset.1 hname)
    obtain ⟨hmem, hok⟩ := List.mem_filter.1 hcall
    exact hcalls call hmem hok
  have hcard := Finset.card_le_card hsubset
  rw [List.toFinset_card_of_nodup hgiven, List.length_map, ← List.countP_eq_length_filter] at hcard
  exact hcard

/-- Where includes are confined, any two nesting depths past the number of names come to the same
run, which is not cut short. -/
theorem run_of_confined {texts : Text → Prop} (hfiles : Confined texts classes resolver)
    {depth depth' : Nat} (hdepth : classes.card < depth) (hdepth' : classes.card < depth')
    (predefined : List Macro) (text : Text) (htext : texts text) :
    run resolver depth predefined text = run resolver depth' predefined text ∧
      SatisfiesM (fun out => ¬ out.CutShort) (run resolver depth predefined text) := by
  have hunseen : ((RunState.initial predefined).unseen classes).card ≤ classes.card :=
    Finset.card_le_card Finset.sdiff_subset
  constructor
  · rw [run, run, process_eq_of_card_unseen_lt hfiles (hunseen.trans_lt hdepth)
      (hunseen.trans_lt hdepth') htext]
  · apply satisfiesM_of_recording (run_recording resolver depth predefined text [])
    refine (traced_run_of_answers hfiles depth predefined text).imp ?_
    rintro _ ⟨events, last, hruns, rfl, hcalls, hcut⟩ hclose
    -- Every file that is given has a name of its own, so there are too few to cut the run short.
    have hincluded := hruns.included_of_mem_callsOf htext
      fun call hcall text htext hincluded => (hcalls call hcall text htext hincluded).1
    have hgiven : given (callsOf events) ≤ classes.card := by
      refine given_le_card hruns.calls_fresh.1 fun call hcall hok => ?_
      cases hanswer : call.answer with
      | error failure =>
        rw [hanswer] at hok
        cases hok
      | ok inner => exact (hcalls call hcall inner hanswer (hincluded call hcall)).2
    have hlast := hcut hclose.of_close
    omega

/-! ## Fixed sets of files -/

namespace FileSet

/-- The names of the files of a set, in lower case. -/
def names (files : FileSet) : Finset Text := (files.map fun file => Text.toLower file.1).toFinset

theorem within_names (files : FileSet) : Within files.names (some files.resolver) := by
  intro resolve hresolve request
  obtain rfl := Option.some.inj hresolve
  apply SatisfiesM_Id_eq.2
  intro hok
  -- A file that is found is one of the set.
  cases hfind : files.find? request.name with
  | none =>
    rw [resolver, hfind] at hok
    cases hok
  | some text =>
    obtain ⟨before, after, hfiles, -⟩ := List.lookup_eq_some_iff.1 hfind
    have hfile : (request.name, text) ∈ files := by
      rw [← List.mem_reverse, hfiles]
      simp
    exact List.mem_toFinset.2 (List.mem_map_of_mem hfile)

theorem card_names_le (files : FileSet) : files.names.card ≤ files.length := by
  refine (List.toFinset_card_le _).trans ?_
  rw [List.length_map]

/-- Includes from a fixed set of files never reach its nesting bound: no run is cut short there, and a
greater depth comes to the same. -/
theorem run_nestingBound (files : FileSet) {depth : Nat} (hdepth : files.nestingBound ≤ depth)
    (predefined : List Macro) (text : Text) :
    run (some files.resolver) depth predefined text =
        run (some files.resolver) files.nestingBound predefined text ∧
      ¬ (Id.run (run (some files.resolver) depth predefined text)).CutShort := by
  -- There are at most as many names as files, and the bound is one more.
  have hbound : files.names.card < files.nestingBound := Nat.lt_succ_of_le files.card_names_le
  have hruns := run_of_confined files.within_names.confined (hbound.trans_le hdepth) hbound
    predefined text trivial
  exact ⟨hruns.1, (SatisfiesM_Id_eq (p := fun out : Outcome => ¬ out.CutShort)).1 hruns.2⟩

end FileSet

/-! ## Resolvers with finitely many names -/

/-- A run over files of finitely many classes comes to an end by itself: a nesting depth past their
number is never reached and makes no difference. The run reads its document and besides it at most
one file of each class, so that no more files are nested than there are classes. -/
theorem run_ends_within_classes (hfiles : Within classes resolver) {depth : Nat}
    (hdepth : classes.card < depth) (predefined : List Macro) (text : Text) :
    run resolver depth predefined text = run resolver (classes.card + 1) predefined text ∧
      Prod.fst <$> (run (resolver.map recording) depth predefined text).run [] =
        run resolver depth predefined text ∧
      SatisfiesM
        (fun (result : Outcome × List Call) =>
          ¬ result.1.CutShort ∧
          (result.1.state.files.map Text.toLower).Nodup ∧
          (∀ name ∈ result.1.state.files, Text.toLower name ∈ classes) ∧
          result.1.state.files.length ≤ classes.card ∧
          ∃ events last, Runs resolver.isSome [] (.text text) (RunState.initial predefined) events
              last ∧
            result = (last.close, callsOf events) ∧
            result.1.state.files =
              (result.2.filter fun call => call.answer.isOk).map Call.name ∧
            ∀ v, .line v ∈ events → v.chain.length ≤ classes.card)
        ((run (resolver.map recording) depth predefined text).run []) := by
  have hsame := (run_of_confined hfiles.confined hdepth (Nat.lt_succ_self _) predefined text
    trivial).1
  refine ⟨hsame, run_recording resolver depth predefined text [],
    (traced_run_of_answers hfiles depth predefined text).imp ?_⟩
  rintro _ ⟨events, last, hruns, rfl, hcalls, hcut⟩
  have hgiven : given (callsOf events) ≤ classes.card := given_le_card hruns.calls_fresh.1 hcalls
  have hread : last.close.state.files =
      ((callsOf events).filter fun call => call.answer.isOk).map Call.name := by
    rw [Outcome.state_close, hruns.files_eq_given]
  refine ⟨fun h => ?_, ?_, ?_, ?_, events, last, hruns, rfl, hread, fun v hv => ?_⟩
  · have hlast := hcut (Outcome.CutShort.of_close h)
    omega
  · rw [Outcome.state_close]
    exact hruns.files_nodup
  · intro name hname
    rw [hread] at hname
    obtain ⟨call, hcall, rfl⟩ := List.mem_map.1 hname
    obtain ⟨hmem, hok⟩ := List.mem_filter.1 hcall
    exact hcalls call hmem hok
  · rw [hread, List.length_map, ← List.countP_eq_length_filter]
    exact hgiven
  · have hchain := hruns.length_chain_le hv
    rw [List.length_nil] at hchain
    omega

/-- Two files that include each other, and themselves. -/
def mutualFiles : FileSet :=
  [(ascii "a.h", ascii "#include \"B.h\"\n#include \"A.h\""),
    (ascii "b.h", ascii "#include <a.h>\n#include <b.h>")]

/-- A run over both files, which starts with the second. -/
def mutualRun : Id (Outcome × List Call) :=
  (run (some (recording mutualFiles.resolver)) 9 [] (ascii "#include <b.h>\n#include <A.h>")).run []

theorem run_ends_within_classes_mutualFiles :
    mutualFiles.names.card < 9 ∧
      run (some mutualFiles.resolver) 9 [] (ascii "#include <b.h>\n#include <A.h>") =
        run (some mutualFiles.resolver) (mutualFiles.names.card + 1) []
          (ascii "#include <b.h>\n#include <A.h>") ∧
      mutualRun.1.fault = none ∧ mutualRun.1.state.files = [ascii "b.h", ascii "a.h"] ∧
      mutualRun.1.state.files.length ≤ mutualFiles.names.card := by
  have hcard : mutualFiles.names.card < 9 :=
    mutualFiles.card_names_le.trans_lt (by decide)
  obtain ⟨hsame, -, hruns⟩ := run_ends_within_classes mutualFiles.within_names hcard []
    (ascii "#include <b.h>\n#include <A.h>")
  obtain ⟨-, -, -, hlength, -⟩ := SatisfiesM_Id_eq.1 hruns
  exact ⟨hcard, hsame, by decide +kernel, by decide +kernel, hlength⟩

end HeaderMacros
