import HeaderMacros.Proofs.Run.IncludeOnce
import HeaderMacros.Proofs.Search.Reached

/-!
# Each file is found once

A run tells files apart by the lower case of the names that include them, and does not know where
the search finds them. Two of its names may therefore have one path. `run_finds_apart` says how far
that goes: such names have the same components but for letter case, once backslashes count as slashes
and dots are resolved. Names that are spelled plainly, with slashes only and without components to be
resolved, have paths of their own.

This needs search directories none of which is below another one, and letters whose lower case is
also their representative. The names of `spelledApart` show what goes wrong otherwise.
-/

namespace HeaderMacros.Search

open HeaderMacros.Path (components stack isAbsolute)

variable {disk : Disk Id} {dirs : List Text} {name first second path : Text}

/-! ## Names spelled plainly -/

/-- A name with slashes only and without components to be resolved, all of whose letters have their
lower case as representative. -/
structure Plain (name : Text) : Prop where
  /-- It has no backslash. -/
  upright : Byte.backslash ∉ name
  /-- Every component names something. -/
  named : ∀ c ∈ components name, c ≠ [] ∧ c ≠ Path.here ∧ c ≠ Path.above
  /-- Every letter has its lower case as representative. -/
  lowered : ∀ c ∈ components name, Text.FoldsToLower c

namespace Plain

theorem withSlashes_eq (h : Plain name) : withSlashes name = name := by
  have hkeep : ∀ b ∈ name, (if b = Byte.backslash then Byte.slash else b) = b := by
    intro b hb
    refine if_neg ?_
    rintro rfl
    exact h.upright hb
  rw [withSlashes, List.map_congr_left hkeep, List.map_id']

theorem stack_eq (h : Plain name) : stack name = (components name).reverse := by
  rw [stack, Path.foldl_cleanStep_of_named h.named, List.append_nil]

/-- A name without empty components does not start with a slash. -/
theorem isAbsolute_eq_false (h : Plain name) : isAbsolute name = false := by
  refine Bool.eq_false_iff.2 fun habsolute => ?_
  rw [isAbsolute, beq_iff_eq, List.head?_eq_some_iff] at habsolute
  obtain ⟨rest, rfl⟩ := habsolute
  have hempty : [] ∈ components (Byte.slash :: rest) := by
    rw [components, Text.splitOn, if_pos rfl]
    exact List.mem_cons_self
  exact (h.named [] hempty).1 rfl

theorem inside (h : Plain name) : Inside name where
  relative := by rw [h.withSlashes_eq, h.isAbsolute_eq_false]
  below := by
    rw [h.withSlashes_eq, h.stack_eq, List.mem_reverse]
    exact fun hmem => (h.named _ hmem).2.2 rfl

/-- The lower case of a plain name is that of its components. -/
theorem toLower_eq (h : Plain name) :
    Text.toLower name = Text.join [Byte.slash]
      (((components name).map Text.folded).map fun codes => codes.flatMap Utf8.encode) := by
  have hcomponents : (components name).map Text.toLower =
      ((components name).map Text.folded).map fun codes => codes.flatMap Utf8.encode := by
    rw [List.map_map]
    exact List.map_congr_left fun c hc => Text.toLower_eq_flatMap_folded (h.lowered c hc)
  rw [← hcomponents, ← Text.toLower_join, components, Text.join_splitOn]

/-- Plain names with one path are the same but for letter case. -/
theorem toLower_eq_of_find (hdirs : Separate dirs) (hfirst : Plain first) (hsecond : Plain second)
    (hpath : find disk dirs first = .ok path) (hpath' : find disk dirs second = .ok path) :
    Text.toLower first = Text.toLower second := by
  have hstacks := folded_stack_eq_of_find hdirs hfirst.inside hsecond.inside hpath hpath'
  rw [hfirst.withSlashes_eq, hsecond.withSlashes_eq, hfirst.stack_eq, hsecond.stack_eq,
    List.map_reverse, List.map_reverse, List.reverse_inj] at hstacks
  rw [hfirst.toLower_eq, hsecond.toLower_eq, hstacks]

end Plain

/-! ## The files of a run -/

/-- What the search gives is read from the path that it finds. -/
theorem exists_find_of_resolve {text : Text} (h : resolve disk dirs name = .ok text) :
    ∃ path, find disk dirs name = .ok path ∧ disk.read path = .ok text := by
  rw [resolve] at h
  cases hfind : find disk dirs name with
  | error failure =>
    simp only [bind, hfind] at h
    cases h
  | ok path =>
    simp only [bind, hfind] at h
    cases hread : disk.read path with
    | error failure =>
      simp only [hread] at h
      cases h
    | ok found =>
      simp only [hread] at h
      cases h
      exact ⟨path, rfl, hread⟩

/-- The names of the files that are read in a run over searched directories are found, and no two
are the same but for letter case. -/
theorem files_found (disk : Disk Id) (dirs : List Text) (depth : Nat) (predefined : List Macro)
    (document : Text) {out : Outcome}
    (hrun : run (some (resolver disk dirs)) depth predefined document = out) :
    (out.state.files.map Text.toLower).Nodup ∧
      ∀ name ∈ out.state.files, ∃ path, find disk dirs name = .ok path := by
  -- The resolver answers as the search does, so that what it has given is found.
  have hanswers : Answers (fun call => call.answer = resolve disk dirs call.request.name)
      (some (resolver disk dirs)) := by
    intro asked hasked request
    obtain rfl := Option.some.inj hasked
    exact SatisfiesM_Id_eq.2 rfl
  obtain ⟨events, last, hruns, hresult, hcalls, -⟩ :=
    SatisfiesM_Id_eq.1 (traced_run_of_answers hanswers depth predefined document)
  have hout : out = last.close := by
    rw [← hrun, ← run_recording _ _ _ _ []]
    exact congrArg Prod.fst hresult
  rw [hout, Outcome.state_close]
  refine ⟨hruns.files_nodup, fun name hname => ?_⟩
  rw [hruns.files_eq_given] at hname
  obtain ⟨call, hcall, rfl⟩ := List.mem_map.1 hname
  obtain ⟨hcall, hok⟩ := List.mem_filter.1 hcall
  cases hanswer : call.answer with
  | error failure =>
    rw [hanswer] at hok
    cases hok
  | ok text =>
    rw [hcalls call hcall] at hanswer
    obtain ⟨path, hpath, -⟩ := exists_find_of_resolve hanswer
    exact ⟨path, hpath⟩

/-- In a run over searched directories every file that is read is found, and no two of their names
are the same in lower case. If no directory is below another one, names that do not lead out of their
directory have one path only if they have the same components but for letter case, once these are
cleaned; and names that are spelled plainly have paths of their own. -/
theorem run_finds_apart (disk : Disk Id) (dirs : List Text) (depth : Nat) (predefined : List Macro)
    (document : Text) {out : Outcome}
    (hrun : run (some (resolver disk dirs)) depth predefined document = out) :
    (out.state.files.map Text.toLower).Nodup ∧
    (∀ name ∈ out.state.files, ∃ path, find disk dirs name = .ok path) ∧
    (Separate dirs → out.state.files.Pairwise fun first second =>
      (Inside first → Inside second → find disk dirs first = find disk dirs second →
        (stack (withSlashes first)).map Text.folded =
          (stack (withSlashes second)).map Text.folded) ∧
      (Plain first → Plain second → find disk dirs first ≠ find disk dirs second)) := by
  obtain ⟨hnodup, hfound⟩ := files_found disk dirs depth predefined document hrun
  refine ⟨hnodup, hfound, fun hdirs => ?_⟩
  have happart : out.state.files.Pairwise fun first second =>
      Text.toLower first ≠ Text.toLower second := List.pairwise_map.1 hnodup
  -- Two plain names with one path would be the same in lower case, so that the second one would have
  -- been passed over.
  refine happart.imp_of_mem fun {first second} hfirst hsecond hlower => ?_
  obtain ⟨path, hpath⟩ := hfound first hfirst
  refine ⟨fun hinside hinside' hsame => ?_, fun hplain hplain' hsame => ?_⟩
  · exact folded_stack_eq_of_find hdirs hinside hinside' hpath (hsame ▸ hpath)
  · exact hlower (hplain.toLower_eq_of_find hdirs hplain' hpath (hsame ▸ hpath))

/-- A header under `inc/sys` that defines one more macro when it is read again, and one under
`lib`. -/
def headerTree : FileTree :=
  ((⟨[], []⟩ : FileTree).addFile [ascii "inc", ascii "sys", ascii "t.h"]
    (.file (ascii "#ifdef A\n#define B\n#endif\n#define A"))).addFile [ascii "lib", ascii "u.h"]
    (.file (ascii "#include <sys/t.h>"))

/-- What is found of a name in that tree. -/
def foundIn (dirs : List Text) (name : Text) : Except SearchFailure Text :=
  find headerTree.disk dirs name

/-- A run over names in several letter cases. -/
def spelledPlainly : Outcome :=
  run (m := Id) (some (resolver headerTree.disk [ascii "inc", ascii "lib"])) 4 []
    (ascii "#include <SYS/T.h>\n#include <U.H>\n#include <sys/t.h>")

theorem run_finds_apart_spelledPlainly :
    spelledPlainly.fault = none ∧ spelledPlainly.state.files = [ascii "SYS/T.h", ascii "U.H"] ∧
      Separate [ascii "inc", ascii "lib"] ∧ Plain (ascii "SYS/T.h") ∧ Plain (ascii "U.H") ∧
      foundIn [ascii "inc", ascii "lib"] (ascii "SYS/T.h") ≠
        foundIn [ascii "inc", ascii "lib"] (ascii "U.H") := by
  have hout : spelledPlainly.fault = none ∧
      spelledPlainly.state.files = [ascii "SYS/T.h", ascii "U.H"] := by decide +kernel
  obtain ⟨hfault, hfiles⟩ := hout
  have hdirs : Separate [ascii "inc", ascii "lib"] := by
    unfold Separate
    decide +kernel
  have hfirst : Plain (ascii "SYS/T.h") := ⟨by decide, by decide +kernel, by decide +kernel⟩
  have hsecond : Plain (ascii "U.H") := ⟨by decide, by decide +kernel, by decide +kernel⟩
  have hapart := (run_finds_apart headerTree.disk [ascii "inc", ascii "lib"] 4 []
    (ascii "#include <SYS/T.h>\n#include <U.H>\n#include <sys/t.h>") rfl).2.2 hdirs
  have hpair : spelledPlainly.state.files.Pairwise fun first second =>
      Plain first → Plain second → foundIn [ascii "inc", ascii "lib"] first ≠
        foundIn [ascii "inc", ascii "lib"] second := hapart.imp fun h => h.2
  rw [hfiles] at hpair
  have hfound := List.rel_of_pairwise_cons hpair List.mem_cons_self hfirst hsecond
  exact ⟨hfault, hfiles, hdirs, hfirst, hsecond, hfound⟩

/-- A run over four names of one file: as it is, with a component that goes nowhere, with a
backslash, and from a search directory that is below another one. -/
def spelledApart : Outcome :=
  run (m := Id) (some (resolver headerTree.disk [ascii "inc", ascii "inc/sys"])) 5 []
    (ascii "#include <sys/t.h>\n#include <./sys/t.h>\n#include <sys\\t.h>\n#include <t.h>")

/-- The four names have one path, and what the file does when it is read again has its effect. -/
theorem not_found_apart_spelledApart :
    spelledApart.fault = none ∧
      spelledApart.state.files =
        [ascii "sys/t.h", ascii "./sys/t.h", ascii "sys\\t.h", ascii "t.h"] ∧
      (∀ name ∈ spelledApart.state.files,
        foundIn [ascii "inc", ascii "inc/sys"] name = .ok (ascii "inc/sys/t.h")) ∧
      ¬ spelledApart.state.files.Pairwise (fun first second =>
        foundIn [ascii "inc", ascii "inc/sys"] first ≠
          foundIn [ascii "inc", ascii "inc/sys"] second) ∧
      spelledApart.state.macros.macros.map Macro.name = [ascii "A", ascii "B"] := by
  have hout : spelledApart.fault = none ∧
      spelledApart.state.files =
        [ascii "sys/t.h", ascii "./sys/t.h", ascii "sys\\t.h", ascii "t.h"] ∧
      spelledApart.state.macros.macros.map Macro.name = [ascii "A", ascii "B"] := by
    decide +kernel
  obtain ⟨hfault, hfiles, hmacros⟩ := hout
  rw [hfiles]
  refine ⟨hfault, rfl, ?_, ?_, hmacros⟩ <;> decide +kernel

end HeaderMacros.Search
