import HeaderMacros.Proofs.Nesting.Matching
import HeaderMacros.Proofs.Source.Placement

/-!
# Where faults are found

A fault has the place where it was found, and keeps it on its way out of all the files that are
being read. The place is that of the last line that the run came to, in the innermost file, whether
the line fails by itself or its include cannot be had; or it is the line on which a comment opens in
the file whose text is prepared for reading; or, where all lines have been read, the line that opened
the innermost open group.

Only the line of a comment can be another one. It is counted after the lines have been joined, and
joining may go on past the end of a run of continued lines (`Source.Settled`), so that what stands
below the run moves up. The file is the right one even then.

* `Visit.LineOf`: the lines of a run are those of the normalized texts of its files.
* `FoundAt`, `AtOpenGroup`, `Misplaced`: the places where faults are found.
* `Runs.located`: where the lines and the fault of a part of a run are found.
* `run_fault_place`: where the fault of a run is found.
* `not_foundAt_doubleBackslash`: a document whose comment is found on another line.
-/

namespace HeaderMacros

open Nesting (role)

variable {resolving : Bool} {chain : List Text} {task : Task} {s : RunState}
  {part events : List Event} {out : Outcome} {document : Text} {past visits : List Visit}

/-! ## The texts and the lines of a run -/

/-- The text of the innermost of some files: what the resolver gave for it, or else the document of
the run. -/
def TextOf (document : Text) (events : List Event) : List Text → Text → Prop
  | [], text => text = document
  | name :: _, text => ∃ request, request.name = name ∧ .asked ⟨request, .ok text⟩ ∈ events

/-- A line of a run is the line of its number in a text, once this is normalized. -/
def Visit.LineOf (v : Visit) (text : Text) : Prop :=
  ∃ normalized index, Source.normalize text = .ok normalized ∧ v.number = index + 1 ∧
    (Text.lines normalized)[index]? = some v.text

/-- The lines among some events. -/
def linesOf : List Event → List Visit
  | [] => []
  | .line v :: rest => v :: linesOf rest
  | .asked _ :: rest => linesOf rest
  | .left _ _ _ :: rest => linesOf rest

theorem linesOf_append (first second : List Event) :
    linesOf (first ++ second) = linesOf first ++ linesOf second := by
  induction first with
  | nil => rfl
  | cons e rest ih => cases e <;> simp [linesOf, ih]

/-! ## Faults and their places -/

/-- The resolver was asked for a file and did not have it, or there is no resolver. -/
def Refuses (resolving : Bool) (events : List Event) (request : Include) (failure : SearchFailure) :
    Prop :=
  if resolving then .asked ⟨request, .error failure⟩ ∈ events else failure = .noSource

/-- Where a fault is found in a run that came to some lines, one after the other. -/
inductive FoundAt (resolving : Bool) (document : Text) (events : List Event) (visits : List Visit) :
    Fault → Prop where
  /-- The last line fails by itself. -/
  | line {v : Visit} {cause : Cause} (hlast : visits.getLast? = some v)
    (hread : v.state.readLine v.text = .error cause) :
    FoundAt resolving document events visits ⟨v.place, cause⟩
  /-- The file that the last line includes cannot be had. -/
  | unresolved {v : Visit} {request : Include} {failure : SearchFailure}
    (hlast : visits.getLast? = some v) (hread : v.state.readLine v.text = .ok (.enter request))
    (hrefuses : Refuses resolving events request failure) :
    FoundAt resolving document events visits ⟨v.place, .unresolved request failure⟩
  /-- A comment is never closed in the document, before any line of it is read, or in the file that
  the last line includes. It opens on a line of the text with its continued lines joined. -/
  | comment {chain : List Text} {source : Text} {line : Nat}
    (hlast : visits.getLast?.map Visit.chain = chain.tail?)
    (htext : TextOf document events chain source)
    (hopens : Source.OpensCommentOn (Source.joined source) line) :
    FoundAt resolving document events visits
      ⟨⟨chain.headD RunState.rootFile, line⟩, .malformed .unterminatedComment []⟩

/-- A comment is never closed, and its line is one on which it opens only because lines are joined
that do not continue each other. -/
inductive Misplaced (document : Text) (events : List Event) (visits : List Visit) : Fault → Prop where
  /-- The comment is in the document or in the file that the last line includes, a text in which a
  run of continued lines comes to a line that ends in a backslash once more. -/
  | comment {chain : List Text} {source : Text} {line : Nat}
    (hlast : visits.getLast?.map Visit.chain = chain.tail?)
    (htext : TextOf document events chain source)
    (hsettled : ¬ Source.Settled (Text.lines (Text.unifyLineEnds source)))
    (hopens : Source.OpensCommentOn (Source.splice (Text.unifyLineEnds source)) line)
    (hjoined : ¬ Source.OpensCommentOn (Source.joined source) line) :
    Misplaced document events visits
      ⟨⟨chain.headD RunState.rootFile, line⟩, .malformed .unterminatedComment []⟩

/-- All lines have been read, and a fault is that of the innermost group that is still open, at the
line that opened it. -/
def AtOpenGroup (events : List Event) (last : Outcome) (f : Fault) : Prop :=
  last.fault = none ∧ f.cause = .malformed .unterminatedGroup [] ∧
    (Nesting.unmatched events).head? = some f.position ∧
    ∃ v condition, .line v ∈ events ∧ role v.text = .opens condition ∧ v.place = f.position

/-- What is known at the start of a task, after some lines of the run: the text that is to be read
or that the lines come from, and the line that has the include. -/
def Task.StartsAfter (document : Text) (events : List Event) (chain : List Text) (s : RunState)
    (past : List Visit) : Task → Prop
  | .text source => TextOf document events chain source ∧
    past.getLast?.map Visit.chain = chain.tail?
  | .lines number texts => ∃ source normalized index, TextOf document events chain source ∧
    Source.normalize source = .ok normalized ∧ number = index + 1 ∧
    (Text.lines normalized).drop index = texts
  | .enter request => ∃ v, past.getLast? = some v ∧ v.chain = chain ∧ v.place = s.position ∧
    v.state.readLine v.text = .ok (.enter request)

/-- The lines after the first one come from the same text. -/
theorem Task.StartsAfter.rest {number : Nat} {text : Text} {texts : List Text}
    (h : (Task.lines number (text :: texts)).StartsAfter document events chain s past)
    (next : RunState) (past' : List Visit) :
    (Task.lines (number + 1) texts).StartsAfter document events chain next past' := by
  obtain ⟨source, normalized, index, htext, hnormalize, rfl, hdrop⟩ := h
  refine ⟨source, normalized, index + 1, htext, hnormalize, rfl, ?_⟩
  rw [← List.tail_drop, hdrop, List.tail_cons]

/-- The first line is the line of its number. -/
theorem Task.StartsAfter.lineOf {number : Nat} {text : Text} {texts : List Text}
    (h : (Task.lines number (text :: texts)).StartsAfter document events chain s past)
    (here : RunState) :
    ∃ source, TextOf document events chain source ∧
      Visit.LineOf ⟨chain, number, text, here⟩ source := by
  obtain ⟨source, normalized, index, htext, hnormalize, hnumber, hdrop⟩ := h
  refine ⟨source, htext, normalized, index, hnormalize, hnumber, ?_⟩
  rw [← List.head?_drop, hdrop, List.head?_cons]

/-- An include starts after its line. -/
theorem Task.startsAfter_enter {number : Nat} {text : Text} {request : Include}
    (past : List Visit) (hs : s.file = chain.headD RunState.rootFile)
    (hline : (s.atLine number).readLine text = .ok (.enter request)) :
    (Task.enter request).StartsAfter document events chain (s.atLine number)
      (past ++ [⟨chain, number, text, s.atLine number⟩]) :=
  ⟨_, List.getLast?_concat, rfl, (position_atLine hs number text).symm, hline⟩

/-- A part of a run, after some lines, has every line and every fault in its place. -/
structure Located (resolving : Bool) (document : Text) (events : List Event) (past : List Visit)
    (part : List Event) (out : Outcome) : Prop where
  /-- Every line is a line of the normalized text of its file. -/
  lines : ∀ v, .line v ∈ part → ∃ text, TextOf document events v.chain text ∧ v.LineOf text
  /-- A fault is found at the last line, or at a comment. -/
  fault : ¬ out.CutShort → ∀ f, out.fault = some f →
    FoundAt resolving document events (past ++ linesOf part) f ∨
      Misplaced document events (past ++ linesOf part) f

/-- A comment that keeps a text from being prepared is found on its line, or misplaced. -/
theorem foundAt_or_misplaced_of_normalize {source : Text} {line : Nat}
    (hnormalize : Source.normalize source = .error line)
    (hlast : visits.getLast?.map Visit.chain = chain.tail?)
    (htext : TextOf document events chain source) :
    FoundAt resolving document events visits
        ⟨⟨chain.headD RunState.rootFile, line⟩, .malformed .unterminatedComment []⟩ ∨
      Misplaced document events visits
        ⟨⟨chain.headD RunState.rootFile, line⟩, .malformed .unterminatedComment []⟩ := by
  have hopens : Source.OpensCommentOn (Source.splice (Text.unifyLineEnds source)) line :=
    ((Source.keepsPlaces_splice source).error_iff line).1 hnormalize
  by_cases hjoined : Source.OpensCommentOn (Source.joined source) line
  · exact .inl (.comment hlast htext hjoined)
  · have hsettled := Source.not_settled_of_opensCommentOn hopens hjoined
    exact .inr (.comment hlast htext hsettled hopens hjoined)

theorem Runs.located (h : Runs resolving chain task s part out) (hpart : part ⊆ events)
    (hs : s.file = chain.headD RunState.rootFile)
    (hstart : task.StartsAfter document events chain s past) :
    Located resolving document events past part out := by
  induction h generalizing past with
  | done | skipped => exact ⟨nofun, fun _ f hf => by cases hf⟩
  | tooDeep => exact ⟨nofun, fun hcut => absurd ⟨_, rfl⟩ hcut⟩
  | @failed chain number text _ s cause hline =>
    refine ⟨fun v hv => ?_, fun _ f hf => ?_⟩
    · obtain ⟨rfl⟩ := by simpa using hv
      exact hstart.lineOf _
    · obtain rfl := Option.some.inj hf
      rw [position_atLine hs number text]
      exact .inl (.line List.getLast?_concat hline)
  | @proceeded chain number text _ s next _ _ hline _ ih =>
    have hrest := ih (List.cons_subset.1 hpart).2
      ((Nesting.sameFiles_of_readLine hline).file.trans hs)
      (hstart.rest next (past ++ [⟨chain, number, text, s.atLine number⟩]))
    refine ⟨fun v hv => ?_, fun hcut f hf => ?_⟩
    · rcases List.mem_cons.1 hv with heq | hv
      · cases heq
        exact hstart.lineOf _
      · exact hrest.lines v hv
    · simpa [linesOf] using hrest.fault hcut f hf
  | @stopped chain number text _ s request inner _ _ hline _ _ ih =>
    have hinner := ih (fun e he => hpart (by simp [he])) hs (Task.startsAfter_enter past hs hline)
    refine ⟨fun v hv => ?_, fun hcut f hf => ?_⟩
    · rcases line_mem_include.1 hv with rfl | hv | hv
      · exact hstart.lineOf _
      · exact hinner.lines v hv
      · cases hv
    · -- The include adds nothing after its own lines, so the place stays that of the last of them.
      simpa [linesOf, linesOf_append] using hinner.fault hcut f hf
  | @included chain number text _ s request inner more out _ hline henter _ _ ihenter ihrest =>
    have hinner := ihenter (fun e he => hpart (by simp [he])) hs
      (Task.startsAfter_enter past hs hline)
    have hrest := ihrest (fun e he => hpart (by simp [he])) (henter.file_eq.trans hs)
      (hstart.rest out.state (past ++ [⟨chain, number, text, s.atLine number⟩] ++ linesOf inner))
    refine ⟨fun v hv => ?_, fun hcut f hf => ?_⟩
    · rcases line_mem_include.1 hv with rfl | hv | hv
      · exact hstart.lineOf _
      · exact hinner.lines v hv
      · exact hrest.lines v hv
    · simpa [linesOf, linesOf_append] using hrest.fault hcut f hf
  | sourceless hresolving =>
    subst hresolving
    obtain ⟨v, hlast, -, hplace, hread⟩ := hstart
    refine ⟨nofun, fun _ f hf => ?_⟩
    obtain rfl := Option.some.inj hf
    rw [← hplace]
    exact .inl (.unresolved (by simpa [linesOf] using hlast) hread rfl)
  | refused hresolving =>
    subst hresolving
    obtain ⟨v, hlast, -, hplace, hread⟩ := hstart
    refine ⟨fun v hv => by simp at hv, fun _ f hf => ?_⟩
    obtain rfl := Option.some.inj hf
    rw [← hplace]
    exact .inl (.unresolved (by simpa [linesOf] using hlast) hread (hpart List.mem_cons_self))
  | @answered chain _ _ _ _ _ _ _ _ ih =>
    -- The text that the resolver has just given is the one that is read next.
    obtain ⟨v, hlast, hchain, -, -⟩ := hstart
    have htail : past.getLast?.map Visit.chain = some chain := by
      rw [hlast, Option.map_some, hchain]
    have hinside := ih (List.cons_subset.1 hpart).2 rfl
      ⟨⟨_, rfl, hpart List.mem_cons_self⟩, htail⟩
    refine ⟨fun v hv => hinside.lines v (by simpa using hv), fun hcut f hf => ?_⟩
    exact hinside.fault hcut f hf
  | @unterminated chain source s line hnormalize =>
    refine ⟨nofun, fun _ f hf => ?_⟩
    obtain rfl := Option.some.inj hf
    rw [hs]
    exact foundAt_or_misplaced_of_normalize hnormalize (by simpa [linesOf] using hstart.2) hstart.1
  | read hnormalize _ ih =>
    exact ih hpart hs ⟨_, _, 0, hstart.1, hnormalize, rfl, List.drop_zero⟩

/-! ## Whole runs -/

/-- An opening line without an end is one of the lines of a run. -/
theorem Nesting.exists_line_of_mem_unmatched {place : Position} (h : place ∈ unmatched events) :
    ∃ v condition, .line v ∈ events ∧ role v.text = .opens condition ∧ v.place = place := by
  induction events with
  | nil => cases h
  | cons e rest ih =>
    have hrest (h : place ∈ unmatched rest) : ∃ v condition, .line v ∈ e :: rest ∧
        role v.text = .opens condition ∧ v.place = place := by
      obtain ⟨v, condition, hv, hrole, hplace⟩ := ih h
      exact ⟨v, condition, List.mem_cons_of_mem e hv, hrole, hplace⟩
    cases e with
    | asked | left => exact hrest h
    | line v =>
      rw [unmatched] at h
      split at h
      · rename_i condition hrole
        split at h
        · rcases List.mem_append.1 h with h | h
          · exact hrest h
          · exact ⟨v, condition, List.mem_cons_self, hrole, (List.mem_singleton.1 h).symm⟩
        · exact hrest h
      · exact hrest h

/-- The fault of a run whose lines do not fail is the innermost group that is still open. -/
theorem atOpenGroup_of_close {predefined : List Macro} {last : Outcome}
    (h : Runs resolving [] (.text document) (RunState.initial predefined) events last)
    (hlast : last.fault = none) {f : Fault} (hf : last.close.fault = some f) :
    AtOpenGroup events last f := by
  have hopened := (Nesting.follows_of_runs h rfl).2 hlast
  simp only [RunState.initial, List.map_nil, Nesting.openersAfter_eq, List.drop_nil,
    List.append_nil] at hopened
  rw [Outcome.close, hlast] at hf
  obtain ⟨place, hplace, rfl⟩ := Option.map_eq_some_iff.1 hf
  rw [Groups.unclosed?, ← List.head?_map, hopened] at hplace
  exact ⟨hlast, rfl, hplace, Nesting.exists_line_of_mem_unmatched (List.mem_of_mem_head? hplace)⟩

theorem mem_of_getLast?_linesOf {v : Visit} (h : (linesOf events).getLast? = some v) :
    .line v ∈ events := by
  have hmem := List.mem_of_getLast? h
  clear h
  induction events with
  | nil => cases hmem
  | cons e rest ih =>
    cases e with
    | line w =>
      rcases List.mem_cons.1 hmem with rfl | hmem
      · exact List.mem_cons_self
      · exact List.mem_cons_of_mem _ (ih hmem)
    | asked | left => exact List.mem_cons_of_mem _ (ih hmem)

/-- Lines are counted from one. -/
theorem Visit.LineOf.one_le {v : Visit} {text : Text} (h : v.LineOf text) : 1 ≤ v.number := by
  obtain ⟨_, index, -, hnumber, -⟩ := h
  omega

theorem Source.OpensCommentOn.one_le {text : Text} {line : Nat}
    (h : Source.OpensCommentOn text line) : 1 ≤ line := by
  obtain ⟨_, _, -, -, rfl⟩ := h
  exact Nat.le_add_right 1 _

/-- The place of a fault has a line, if every line of the run has a number. -/
theorem FoundAt.one_le_line {f : Fault}
    (hlines : ∀ v, .line v ∈ events → 1 ≤ v.number)
    (h : FoundAt resolving document events (linesOf events) f) : 1 ≤ f.position.line := by
  cases h with
  | line hlast => exact hlines _ (mem_of_getLast?_linesOf hlast)
  | unresolved hlast => exact hlines _ (mem_of_getLast?_linesOf hlast)
  | comment _ _ hopens => exact hopens.one_le

theorem Misplaced.cause_eq {f : Fault} (h : Misplaced document events visits f) :
    f.cause = .malformed .unterminatedComment [] := by
  cases h with
  | comment => rfl

theorem Misplaced.one_le_line {f : Fault} (h : Misplaced document events visits f) :
    1 ≤ f.position.line := by
  cases h with
  | comment _ _ _ hopens => exact hopens.one_le

theorem AtOpenGroup.one_le_line {f : Fault} {last : Outcome}
    (hlines : ∀ v, .line v ∈ events → 1 ≤ v.number) (h : AtOpenGroup events last f) :
    1 ≤ f.position.line := by
  obtain ⟨-, -, -, v, _, hv, -, hplace⟩ := h
  rw [← hplace]
  exact hlines v hv

/-- A cause that the source or the resolver has, and not the bound on the nesting of includes. -/
def Cause.Reported : Cause → Prop
  | .malformed _ _ | .valueless _ _ | .unresolved _ _ => True
  | .nestedTooDeeply => False

theorem Fault.reported_of_not_cutShort {out : Outcome} {f : Fault} (hf : out.fault = some f)
    (hcut : ¬ out.CutShort) : f.cause.Reported := by
  obtain ⟨place, cause⟩ := f
  cases cause with
  | nestedTooDeeply => exact absurd ⟨place, hf⟩ hcut
  | malformed | valueless | unresolved => trivial

theorem Fault.not_cutShort_of_reported {out : Outcome} {f : Fault} (hf : out.fault = some f)
    (h : f.cause.Reported) : ¬ out.CutShort := by
  rintro ⟨place, hplace⟩
  obtain rfl := Option.some.inj (hf.symm.trans hplace)
  exact h

/-- The end of a run keeps a fault of its lines. -/
theorem Outcome.close_eq_of_fault {out : Outcome} {f : Fault} (h : out.fault = some f) :
    out.close = out := by
  rw [close, h]

/-- Every fault of a run is of one of three sorts, unless as many files were given as includes may be
nested; and then its place has a line, counted from one, and column one. Every line of the run is a
line of the normalized text of its file, and the fault is found at the last line that the run came to
or at a comment; or all lines have been read, and it is found at the line that opened the innermost
open group.

It is not found in its place in one case only: it is a comment, in the right file, of a text in which
joining goes on past the end of a run of continued lines, and its line is counted after that. -/
theorem run_fault_place {m : Type → Type} [Monad m] [LawfulMonad m]
    (resolver : Option (Resolver m)) (depth : Nat) (predefined : List Macro) (document : Text) :
    Prod.fst <$> (run (resolver.map recording) depth predefined document).run [] =
        run resolver depth predefined document ∧
      SatisfiesM
        (fun (result : Outcome × List Call) => ∀ f, result.1.fault = some f →
          (given result.2 < depth → f.cause.Reported) ∧
          (f.cause.Reported → 1 ≤ f.position.line ∧
            (∃ wording, f.message =
              (if f.position.file = [] then [] else f.position.file ++ ascii ":") ++
                Text.ofNat f.position.line ++ ascii ":1" ++ wording) ∧
            ∃ events last, Runs resolver.isSome [] (.text document) (RunState.initial predefined)
                events last ∧
              result = (last.close, callsOf events) ∧
              (∀ v, .line v ∈ events →
                ∃ text, TextOf document events v.chain text ∧ v.LineOf text) ∧
              (FoundAt resolver.isSome document events (linesOf events) f ∨
                AtOpenGroup events last f ∨ Misplaced document events (linesOf events) f)))
        ((run (resolver.map recording) depth predefined document).run []) := by
  refine ⟨run_recording resolver depth predefined document [],
    (traced_run_of_answers (answers_true resolver) depth predefined document).imp ?_⟩
  rintro _ ⟨events, last, hruns, rfl, -, hcut⟩ f hf
  refine ⟨fun hdepth => ?_, fun hreported => ?_⟩
  · refine Fault.reported_of_not_cutShort hf fun hclose => ?_
    exact absurd (hcut hclose.of_close) (Nat.not_le.2 hdepth)
  have hlocated : Located resolver.isSome document events [] events last :=
    hruns.located (List.Subset.refl _) rfl ⟨rfl, rfl⟩
  have hnumbers (v : Visit) (hv : .line v ∈ events) : 1 ≤ v.number := by
    obtain ⟨text, -, hline⟩ := hlocated.lines v hv
    exact hline.one_le
  have hplace : FoundAt resolver.isSome document events (linesOf events) f ∨
      AtOpenGroup events last f ∨ Misplaced document events (linesOf events) f := by
    cases hlast : last.fault with
    | some g =>
      rw [Outcome.close_eq_of_fault hlast] at hf
      have hcause := Fault.not_cutShort_of_reported hf hreported
      exact (hlocated.fault hcause f hf).imp id .inr
    | none => exact .inr (.inl (atOpenGroup_of_close hruns hlast hf))
  refine ⟨?_, ?_, events, last, hruns, rfl, hlocated.lines, hplace⟩
  · rcases hplace with hfound | hopen | hmisplaced
    · exact hfound.one_le_line hnumbers
    · exact hopen.one_le_line hnumbers
    · exact hmisplaced.one_le_line
  · unfold Fault.message Cause.message Position.message
    exact ⟨_, List.append_assoc _ _ _⟩

/-- An included file includes a file that fails on its second line, after an include of a file whose
lines are fine. -/
def failingInclude : Id (Outcome × List Call) :=
  (run (some (recording (FileSet.resolver [(ascii "a.h", ascii "\n#include <b.h>\n#include <c.h>"),
    (ascii "b.h", ascii "#define B"), (ascii "c.h", ascii "#ifdef B\n#undef\n#endif")]))) 4 []
    (ascii "#include <a.h>")).run []

theorem run_fault_place_failingInclude :
    ∃ f, failingInclude.1.fault = some f ∧ given failingInclude.2 < 4 ∧ f.cause.Reported ∧
      f.message = ascii "c.h:2:1: bad #undef" ∧ ∃ events,
        FoundAt true (ascii "#include <a.h>") events (linesOf events) f := by
  have hdepth : given failingInclude.2 < 4 := by decide +kernel
  have hfault : failingInclude.1.fault =
      some ⟨⟨ascii "c.h", 2⟩, .malformed .badUndef []⟩ := by decide +kernel
  obtain ⟨hreported, hplace⟩ := SatisfiesM_Id_eq.1 (run_fault_place (m := Id)
    (some (FileSet.resolver [(ascii "a.h", ascii "\n#include <b.h>\n#include <c.h>"),
      (ascii "b.h", ascii "#define B"), (ascii "c.h", ascii "#ifdef B\n#undef\n#endif")])) 4 []
    (ascii "#include <a.h>")).2 _ hfault
  obtain ⟨-, -, events, last, -, -, -, hfound⟩ := hplace (hreported hdepth)
  -- The cause is neither an open group nor a comment.
  rcases hfound with hfound | ⟨-, hcause, -⟩ | hmisplaced
  · exact ⟨_, hfault, hdepth, hreported hdepth, by decide +kernel, events, hfound⟩
  · cases hcause
  · cases hmisplaced.cause_eq

/-! ## A comment on another line -/

/-- Before any line is read, a fault can only be a comment of the document. -/
theorem FoundAt.opensCommentOn {f : Fault} (h : FoundAt resolving document events [] f) :
    Source.OpensCommentOn (Source.joined document) f.position.line := by
  cases h with
  | line hlast => cases hlast
  | unresolved hlast => cases hlast
  | @comment chain source line hlast htext hopens =>
    cases chain with
    | nil =>
      obtain rfl : source = document := htext
      exact hopens
    | cons name outer => cases hlast

/-- A document whose first line ends in two backslashes, whose second line is empty and whose third
opens a comment. -/
def doubleBackslash : Text := ascii "a\\\\\n\n/*x"

/-- The comment opens on the third line, and not on the first, where the run finds it. -/
theorem not_foundAt_doubleBackslash :
    ∃ f, (Id.run (run none 1 [] doubleBackslash)).fault = some f ∧
      f.message = ascii "<root>:1:1: unterminated comment" ∧
      Source.OpensCommentOn (Source.joined doubleBackslash) 3 ∧
      ∀ events last,
        Runs false [] (.text doubleBackslash) (RunState.initial []) events last →
        ¬ (FoundAt false doubleBackslash events (linesOf events) f ∨
          AtOpenGroup events last f) := by
  have hfault : (Id.run (run none 1 [] doubleBackslash)).fault =
      some ⟨⟨RunState.rootFile, 1⟩, .malformed .unterminatedComment []⟩ := by decide +kernel
  have hstrip : Source.strip (Source.joined doubleBackslash) = .error 3 := by decide +kernel
  have hnormalize : Source.normalize doubleBackslash = .error 1 := by decide +kernel
  refine ⟨_, hfault, by decide +kernel, Source.strip_eq_error_iff.1 hstrip, ?_⟩
  rintro events last hruns (hfound | ⟨-, hcause, -⟩)
  · -- The document cannot be prepared, so that the run comes to no line.
    have hlines : linesOf events = [] := by
      cases hruns with
      | tooDeep | unterminated => rfl
      | read hread => cases hnormalize.symm.trans hread
    rw [hlines] at hfound
    have hfirst := Source.strip_eq_error_iff.2 hfound.opensCommentOn
    cases hstrip.symm.trans hfirst
  · cases hcause

end HeaderMacros
