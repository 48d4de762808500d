import HeaderMacros.Settings.Environment
import Mathlib.Data.List.TakeWhile
import Mathlib.Tactic.SplitIfs

/-!
# Settings after an environment that cannot be read

The environment is added to settings in one pass, the search list first. If its flags then turn out
to be unreadable, the pass stops, and nothing takes back what it has done. So the settings are not
those from before (`applyEnvironment_openQuote`), but what is different about them is known, whatever
readers of flags and of words there are:

- `Settings.applyEnvironment_of_failure`: they have the directories of the search list, at the end
  and in order, and are otherwise the same. They are the same in all only if the search list names
  no directory, that is, if there is nothing but blank characters between its semicolons.
-/

namespace HeaderMacros

/-! ## Blank texts -/

namespace Utf8

/-- A character has at least one byte. -/
theorem encode_ne_nil (code : Nat) : encode code ≠ [] := by
  unfold encode
  split_ifs
  all_goals exact List.cons_ne_nil _ _

/-- Only the empty sequence of pieces has no bytes. -/
theorem bytes_eq_nil_iff {pieces : List Piece} : bytes pieces = [] ↔ pieces = [] := by
  refine ⟨fun h => ?_, fun h => by rw [h]; rfl⟩
  cases pieces with
  | nil => rfl
  | cons first rest =>
    obtain ⟨hfirst, -⟩ := List.append_eq_nil_iff.1 (show first.bytes ++ bytes rest = [] from h)
    cases first with
    | scalar code => exact absurd hfirst (encode_ne_nil code)
    | stray byte => cases hfirst

end Utf8

/-- Nothing is left of a text without its blank ends exactly if it is blank. -/
theorem Text.trim_eq_nil_iff {text : Text} : Text.trim text = [] ↔ Text.isBlank text = true := by
  rw [trim, Utf8.bytes_eq_nil_iff, List.reverse_eq_nil_iff, List.dropWhile_eq_nil_iff, isBlank,
    List.all_eq_true]
  constructor
  · intro h piece hpiece
    -- What is dropped in front is blank, and so is the rest, which is dropped from behind.
    rw [← List.takeWhile_append_dropWhile (p := isBlankPiece) (l := Utf8.decode text),
      List.mem_append] at hpiece
    rcases hpiece with hfront | hrest
    · exact List.all_eq_true.1 List.all_takeWhile piece hfront
    · exact h piece (List.mem_reverse.2 hrest)
  · intro h piece hpiece
    exact h piece ((List.dropWhile_sublist _).mem (List.mem_reverse.1 hpiece))

/-- A search list names no directory exactly if everything between its semicolons is blank. -/
theorem Search.directories_eq_nil_iff {text : Text} :
    directories text = [] ↔
      ∀ entry ∈ Text.splitOn Byte.semicolon text, Text.isBlank entry = true := by
  rw [directories, List.filter_eq_nil_iff, List.forall_mem_map]
  refine forall₂_congr fun entry _ => ?_
  rw [← Text.trim_eq_nil_iff, bne_iff_ne, not_not]

namespace Settings

variable {formats : Formats} {s : Settings} {e : Environment} {failure : Shell.FlagFailure}

/-! ## Settings with more directories -/

theorem extend_nil (s : Settings) (dirs : List Text) :
    s.extend dirs [] = { s with includeDirs := s.includeDirs ++ dirs } := by
  rw [extend, List.append_nil]

/-- Settings stay the same with no more directories, and else do not. -/
theorem extend_nil_eq_self_iff {dirs : List Text} : s.extend dirs [] = s ↔ dirs = [] := by
  rw [extend_nil]
  constructor
  · intro h
    exact List.append_right_eq_self.1 (congrArg includeDirs h)
  · rintro rfl
    rw [List.append_nil]

/-! ## The environment -/

/-- An environment that cannot be added has flags that cannot be read. The search list has been
added by then. -/
theorem applyEnvironment_eq_of_failure (h : (s.applyEnvironment e formats).2 = some failure) :
    (e.flags ≠ [] ∧ Shell.flags e.flags formats = .error failure) ∧
      (s.applyEnvironment e formats).1 = s.extend (Search.directories e.searchList) [] := by
  rw [applyEnvironment] at h ⊢
  dsimp only at h ⊢
  cases hflags : e.parsedFlags formats with
  | ok flags =>
    rw [hflags] at h
    cases h
  | error cause =>
    rw [hflags] at h
    obtain rfl : cause = failure := Option.some.inj h
    -- Empty flags are read without a look at them.
    rw [Environment.parsedFlags] at hflags
    split_ifs at hflags with hempty
    exact ⟨⟨hempty, hflags⟩, rfl⟩

/-- If the environment cannot be added, its flags cannot be read. The settings then have the
directories of the search list after those they had, as they would with the search list alone, and
everything else about them is as it was. They are the settings from before exactly if there is
nothing but blank characters between the semicolons of the search list. -/
theorem applyEnvironment_of_failure (h : (s.applyEnvironment e formats).2 = some failure) :
    (e.flags ≠ [] ∧ Shell.flags e.flags formats = .error failure) ∧
      (s.applyEnvironment e formats).1 =
        { s with includeDirs := s.includeDirs ++ Search.directories e.searchList } ∧
      s.applyEnvironment ⟨e.searchList, [], []⟩ formats =
        ((s.applyEnvironment e formats).1, none) ∧
      ((s.applyEnvironment e formats).1 = s ↔
        ∀ entry ∈ Text.splitOn Byte.semicolon e.searchList, Text.isBlank entry = true) := by
  obtain ⟨hflags, hsettings⟩ := applyEnvironment_eq_of_failure h
  -- Without flags and without a word there is nothing to read but the search list.
  have hlisted : s.applyEnvironment ⟨e.searchList, [], []⟩ formats =
      (s.extend (Search.directories e.searchList) [], none) := by
    rw [applyEnvironment]
    simp [Environment.parsedFlags, Shell.Flags.empty, extend, formats.isYes_nil]
  rw [hsettings]
  refine ⟨hflags, extend_nil s _, hlisted, ?_⟩
  rw [extend_nil_eq_self_iff, Search.directories_eq_nil_iff]

/-- An environment with a directory to search and a quote that is never closed in its flags. -/
def openQuote : Environment := ⟨ascii "/a", ascii "-I \"x", ascii "yes"⟩

/-- The directory stays, and reports are not asked for. -/
theorem applyEnvironment_of_failure_openQuote :
    (empty.applyEnvironment openQuote).2 = some (.words .openDoubleQuote) ∧
      (empty.applyEnvironment openQuote).1 = { empty with includeDirs := [ascii "/a"] } := by
  have hfailure : (empty.applyEnvironment openQuote).2 = some (.words .openDoubleQuote) := by
    decide
  have hdirs : Search.directories openQuote.searchList = [ascii "/a"] := by decide
  have hsettings := (applyEnvironment_of_failure hfailure).2.1
  rw [hdirs] at hsettings
  exact ⟨hfailure, hsettings⟩

/-- Settings are not always the same after an environment that cannot be added. -/
theorem applyEnvironment_openQuote :
    ¬ ∀ (s : Settings) (e : Environment), (s.applyEnvironment e).2 ≠ none →
      (s.applyEnvironment e).1 = s := by
  intro h
  have hsame : (empty.applyEnvironment openQuote).1 = empty := h empty openQuote (by decide)
  exact absurd hsame (by decide)

end Settings

end HeaderMacros
