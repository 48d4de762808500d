import HeaderMacros.Proofs.Run.Trace

/-!
# Each file is included once

A name counts as seen before the resolver is asked for it, and all files of a run share the names
that have been seen. What a run asks for is therefore new each time, however the includes are nested
and however they end (`Runs.calls_fresh`), and what it was given are the files of the run
(`Runs.files_append_calls`). The names of the files being read have been seen, so that a file
that includes itself, at once or by way of others, is passed over (`Runs.chain_seen`).

All this holds of every run: `run_includes_once`.
-/

namespace HeaderMacros

variable {resolving : Bool} {chain : List Text} {task : Task} {s : RunState} {events : List Event}
  {out : Outcome}

/-- The name under which a file counts as seen. -/
def Include.key (request : Include) : Text := Text.toLower request.name

/-- The name under which the file of a call counts as seen. -/
def Call.key (call : Call) : Text := call.request.key

/-- The name that a call looks up. -/
def Call.name (call : Call) : Text := call.request.name

/-! ## Names that have been seen -/

/-- A name that has been seen stays so. -/
theorem Runs.processed_subset (h : Runs resolving chain task s events out) :
    s.processed ⊆ out.state.processed := by
  induction h with
  | done | failed | skipped | tooDeep | unterminated => exact List.Subset.refl _
  | proceeded hline _ ih =>
    have hsame := (Nesting.sameFiles_of_readLine hline).processed
    rw [hsame] at ih
    exact ih
  | stopped _ _ _ ih => exact ih
  | included _ _ _ _ ihenter ihrest => exact List.Subset.trans ihenter ihrest
  | sourceless | refused => exact List.subset_cons_self _ _
  | answered _ _ _ ih => exact List.Subset.trans (List.subset_cons_self _ _) ih
  | read _ _ ih => exact ih

/-- The resolver is asked for names that have not been seen, and never again for one of them. -/
theorem Runs.calls_fresh (h : Runs resolving chain task s events out) :
    ((callsOf events).map Call.key).Nodup ∧
      ∀ r ∈ callsOf events, r.key ∉ s.processed ∧ r.key ∈ out.state.processed := by
  induction h with
  | done | failed | skipped | sourceless | tooDeep | unterminated => simp
  | proceeded hline _ ih =>
    have hsame := (Nesting.sameFiles_of_readLine hline).processed
    rw [hsame] at ih
    simpa using ih
  | stopped _ _ _ ih => simpa using ih
  | included _ henter _ hrest ihenter ihrest =>
    obtain ⟨hnodup, hfresh⟩ := ihenter
    obtain ⟨hnodup', hfresh'⟩ := ihrest
    simp only [callsOf_line, callsOf_append, callsOf_left, List.map_append]
    refine ⟨List.nodup_append.2 ⟨hnodup, hnodup', ?_⟩, ?_⟩
    · -- What the include asks for has been seen when the lines after it are read.
      intro a ha b hb heq
      obtain ⟨r, hr, rfl⟩ := List.mem_map.1 ha
      obtain ⟨r', hr', rfl⟩ := List.mem_map.1 hb
      exact (hfresh' r' hr').1 (heq ▸ (hfresh r hr).2)
    · intro r hr
      rcases List.mem_append.1 hr with hr | hr
      · exact ⟨(hfresh r hr).1, hrest.processed_subset (hfresh r hr).2⟩
      · refine ⟨fun hseen => (hfresh' r hr).1 ?_, (hfresh' r hr).2⟩
        exact henter.processed_subset hseen
  | refused _ hnew => simpa [Call.key, Include.key, RunState.ask, RunState.mark] using hnew
  | @answered chain request s text events out _ hnew htext ih =>
    obtain ⟨hnodup, hfresh⟩ := ih
    -- The name is marked before the text is read, so nothing in the text asks for it again.
    have hkey : request.key ∈ (s.inside request).processed := List.mem_cons_self
    simp only [callsOf_asked, List.map_cons, List.nodup_cons, List.forall_mem_cons]
    refine ⟨⟨?_, hnodup⟩, ⟨hnew, htext.processed_subset hkey⟩, fun r hr => ⟨?_, (hfresh r hr).2⟩⟩
    · intro hmem
      obtain ⟨r, hr, heq⟩ := List.mem_map.1 hmem
      exact (hfresh r hr).1 (heq ▸ hkey)
    · exact fun hseen => (hfresh r hr).1 (List.mem_cons_of_mem _ hseen)
  | read _ _ ih => exact ih

/-- The names of the files being read have been seen. -/
theorem Runs.chain_seen (h : Runs resolving chain task s events out)
    (hs : ∀ name ∈ chain, Text.toLower name ∈ s.processed) {v : Visit} (hv : .line v ∈ events) :
    ∀ name ∈ v.chain, Text.toLower name ∈ v.state.processed := by
  induction h with
  | done | skipped | sourceless | tooDeep | unterminated => cases hv
  | failed =>
    obtain ⟨rfl⟩ := by simpa using hv
    exact hs
  | proceeded hline _ ih =>
    rcases List.mem_cons.1 hv with heq | hv
    · cases heq
      exact hs
    · refine ih (fun name hname => ?_) hv
      rw [(Nesting.sameFiles_of_readLine hline).processed]
      exact hs name hname
  | stopped _ _ _ ih =>
    rcases line_mem_include.1 hv with rfl | hv | hv
    · exact hs
    · exact ih hs hv
    · cases hv
  | included _ henter _ _ ihenter ihrest =>
    rcases line_mem_include.1 hv with rfl | hv | hv
    · exact hs
    · exact ihenter hs hv
    · exact ihrest (fun name hname => henter.processed_subset (hs name hname)) hv
  | refused => simp at hv
  | answered _ _ _ ih =>
    -- The file that is entered joins the chain, and its name has just been marked.
    refine ih ?_ (by simpa using hv)
    intro name hname
    rcases List.mem_cons.1 hname with rfl | hname
    · exact List.mem_cons_self
    · exact List.mem_cons_of_mem _ (hs name hname)
  | read _ _ ih => exact ih hs hv

/-- The include on a line comes back. If its name has been seen, nothing has changed but the log. -/
theorem Runs.left_of_line (h : Runs resolving chain task s events out) {v : Visit}
    (hv : .line v ∈ events) {request : Include}
    (hread : v.state.readLine v.text = .ok (.enter request)) :
    ∃ back, .left v request back ∈ events ∧ (request.key ∈ v.state.processed →
      back.fault = none ∧ back.state = { v.state with log := back.state.log }) := by
  -- Only the include of a name that has not been seen gets as far as the resolver.
  have hskip {chain : List Text} {s : RunState} {events : List Event} {out : Outcome}
      (h : Runs resolving chain (.enter request) s events out) (hseen : request.key ∈ s.processed) :
      out.fault = none ∧ out.state = { s with log := out.state.log } := by
    cases h with
    | skipped => exact ⟨rfl, rfl⟩
    | sourceless _ hnew | refused _ hnew | answered _ hnew => exact absurd hseen hnew
  induction h with
  | done | skipped | sourceless | tooDeep | unterminated => cases hv
  | failed hline =>
    obtain ⟨rfl⟩ := by simpa using hv
    rw [hline] at hread
    cases hread
  | proceeded hline _ ih =>
    rcases List.mem_cons.1 hv with heq | hv
    · cases heq
      rw [hline] at hread
      cases hread
    · obtain ⟨back, hback, hsame⟩ := ih hv
      exact ⟨back, List.mem_cons_of_mem _ hback, hsame⟩
  | stopped hline henter _ ih =>
    rcases line_mem_include.1 hv with rfl | hv | hv
    · rw [hline] at hread
      cases hread
      exact ⟨_, by simp, hskip henter⟩
    · obtain ⟨back, hback, hsame⟩ := ih hv
      exact ⟨back, by simp [hback], hsame⟩
    · cases hv
  | included hline henter _ _ ihenter ihrest =>
    rcases line_mem_include.1 hv with rfl | hv | hv
    · rw [hline] at hread
      cases hread
      exact ⟨_, by simp, hskip henter⟩
    · obtain ⟨back, hback, hsame⟩ := ihenter hv
      exact ⟨back, by simp [hback], hsame⟩
    · obtain ⟨back, hback, hsame⟩ := ihrest hv
      exact ⟨back, by simp [hback], hsame⟩
  | refused => simp at hv
  | answered _ _ _ ih =>
    obtain ⟨back, hback, hsame⟩ := ih (by simpa using hv)
    exact ⟨back, List.mem_cons_of_mem _ hback, hsame⟩
  | read _ _ ih => exact ih hv

/-! ## The files of a run -/

/-- The file that a resolver was asked for and did not have, if that is the cause. -/
def Cause.refused (resolving : Bool) : Cause → List Text
  | .unresolved request _ => if resolving then [request.name] else []
  | .malformed _ _ | .valueless _ _ | .nestedTooDeeply => []

/-- The file that ended a run because the resolver did not have it. -/
def Outcome.refused (resolving : Bool) (out : Outcome) : List Text :=
  match out.fault with
  | some f => f.cause.refused resolving
  | none => []

theorem Cause.OfSource.refused {cause : Cause} (h : cause.OfSource) (resolving : Bool) :
    cause.refused resolving = [] := by
  cases cause with
  | malformed | valueless => rfl
  | unresolved | nestedTooDeeply => cases h

/-- The resolver is asked for the files that are read, in their order, and at the end for the one that
it does not have. -/
theorem Runs.files_append_calls (h : Runs resolving chain task s events out) :
    s.files ++ (callsOf events).map Call.name = out.state.files ++ out.refused resolving := by
  induction h with
  | done | skipped | tooDeep | unterminated => rfl
  | @failed _ number text _ s cause hline =>
    -- A line by itself does not fail for want of a file.
    have hcause := Nesting.readLine_spec (s.atLine number) text
    rw [hline] at hcause
    exact congrArg (s.files ++ ·) (hcause.refused resolving).symm
  | proceeded hline _ ih =>
    rw [(Nesting.sameFiles_of_readLine hline).files] at ih
    exact ih
  | stopped _ _ _ ih => simpa using ih
  | included _ _ hout _ ihenter ihrest =>
    -- An include without a fault has no file that was refused, so the lines after it go on from the
    -- files that it leaves.
    rw [Outcome.refused, hout, List.append_nil] at ihenter
    rw [← ihrest, ← ihenter]
    simp
  | sourceless hresolving =>
    subst hresolving
    rfl
  | refused hresolving =>
    subst hresolving
    rfl
  | answered _ _ _ ih =>
    simpa [Outcome.refused, Call.name, RunState.inside, RunState.backTo] using ih
  | read _ _ ih => exact ih

/-- The files that are read are those that the resolver gave. -/
theorem Runs.files_eq (h : Runs resolving chain task s events out) :
    out.state.files =
      s.files ++ ((callsOf events).filter fun call => call.answer.isOk).map Call.name := by
  induction h with
  | done | failed | skipped | sourceless | tooDeep | unterminated => exact (List.append_nil _).symm
  | proceeded hline _ ih =>
    rw [(Nesting.sameFiles_of_readLine hline).files] at ih
    exact ih
  | stopped _ _ _ ih => simpa using ih
  | included _ _ _ _ ihenter ihrest =>
    rw [ihrest, ihenter]
    simp
  | refused => simp [Except.isOk, Except.toBool, RunState.ask, RunState.mark]
  | answered _ _ _ ih =>
    simpa [Except.isOk, Except.toBool, Call.name, RunState.inside, RunState.backTo] using ih
  | read _ _ ih => exact ih

/-- From the start of a run on, the files that are read are those that the resolver gave. -/
theorem Runs.files_eq_given {predefined : List Macro}
    (h : Runs resolving chain task (RunState.initial predefined) events out) :
    out.state.files = ((callsOf events).filter fun call => call.answer.isOk).map Call.name := by
  rw [h.files_eq]
  rfl

/-- From the start of a run on, no two files that are read have one name in lower case. -/
theorem Runs.files_nodup {predefined : List Macro}
    (h : Runs resolving chain task (RunState.initial predefined) events out) :
    (out.state.files.map Text.toLower).Nodup := by
  -- They are some of those that the resolver was asked for, each of which it was asked for once.
  rw [h.files_eq_given, List.map_map]
  exact h.calls_fresh.1.sublist (List.filter_sublist.map _)

/-! ## Whole runs -/

/-- The end of a run makes no difference to its state. -/
theorem Outcome.state_close (out : Outcome) : out.close.state = out.state := by
  unfold close
  split <;> rfl

theorem Outcome.refused_close (resolving : Bool) (out : Outcome) :
    out.close.refused resolving = out.refused resolving := by
  unfold close
  split
  · rfl
  · rename_i hfault
    rw [refused, refused, hfault]
    cases out.state.groups.unclosed? <;> rfl

/-- In a run each name is looked up at most once, whatever the letter case, the kind and the nesting
of its includes, and the files of the run are those that were looked up. -/
theorem run_includes_once {m : Type → Type} [Monad m] [LawfulMonad m]
    (resolver : Option (Resolver m)) (depth : Nat) (predefined : List Macro) (text : Text) :
    Prod.fst <$> (run (resolver.map recording) depth predefined text).run [] =
        run resolver depth predefined text ∧
      SatisfiesM
        (fun (result : Outcome × List Call) =>
          (result.2.map fun call => Text.toLower call.request.name).Nodup ∧
          (result.1.fault = none → result.2.map Call.name = result.1.state.files) ∧
          (∀ f, result.1.fault = some f → result.2.map Call.name =
            result.1.state.files ++ f.cause.refused resolver.isSome) ∧
          ∃ events last, Runs resolver.isSome [] (.text text) (RunState.initial predefined) events last ∧
            result = (last.close, callsOf events) ∧
            ∀ v, .line v ∈ events →
              (∀ name ∈ v.chain, Text.toLower name ∈ v.state.processed) ∧
              ∀ request, v.state.readLine v.text = .ok (.enter request) →
                ∃ back, .left v request back ∈ events ∧
                  back.state.file = v.place.file ∧ back.state.line = v.place.line ∧
                  (Text.toLower request.name ∈ v.state.processed →
                    back.fault = none ∧ back.state = { v.state with log := back.state.log }))
        ((run (resolver.map recording) depth predefined text).run []) := by
  refine ⟨run_recording resolver depth predefined text [], ?_⟩
  refine (traced_run resolver depth predefined text).imp ?_
  rintro _ ⟨events, last, hruns, rfl⟩
  have hfiles := hruns.files_append_calls
  rw [← Outcome.refused_close, ← Outcome.state_close, Outcome.refused] at hfiles
  refine ⟨hruns.calls_fresh.1, ?_, ?_, events, last, hruns, rfl, ?_⟩
  · intro (hfault : last.close.fault = none)
    simpa [hfault, RunState.initial] using hfiles
  · intro f (hfault : last.close.fault = some f)
    simpa [hfault, RunState.initial] using hfiles
  · intro v hv
    refine ⟨hruns.chain_seen (by simp) hv, fun request hread => ?_⟩
    -- The include comes back with or without a fault, and to its own line.
    obtain ⟨back, hback, hsame⟩ := hruns.left_of_line hv hread
    have hplace : back.state.position = v.place := hruns.wellPlaced rfl _ hback
    exact ⟨back, hback, congrArg Position.file hplace, congrArg Position.line hplace, hsame⟩

/-- A document that includes two files, which include each other. -/
def cyclicRun : Id (Outcome × List Call) :=
  (run (some (recording (FileSet.resolver [(ascii "a.h", ascii "#include \"b.h\"\n#define A"),
    (ascii "b.h", ascii "#include <A.H>")]))) 4 [] (ascii "#include <a.h>\n#include \"B.h\"")).run []

theorem run_includes_once_cyclicRun :
    cyclicRun.1.fault = none ∧ cyclicRun.2.map Call.name = [ascii "a.h", ascii "b.h"] ∧
      (cyclicRun.2.map fun call => Text.toLower call.request.name).Nodup ∧
      cyclicRun.2.map Call.name = cyclicRun.1.state.files := by
  obtain ⟨hnodup, hfiles, -⟩ := SatisfiesM_Id_eq.1 (run_includes_once (m := Id)
    (some (FileSet.resolver [(ascii "a.h", ascii "#include \"b.h\"\n#define A"),
      (ascii "b.h", ascii "#include <A.H>")])) 4 [] (ascii "#include <a.h>\n#include \"B.h\"")).2
  have hfault : cyclicRun.1.fault = none := by decide +kernel
  exact ⟨hfault, by decide +kernel, hnodup, hfiles hfault⟩

end HeaderMacros
