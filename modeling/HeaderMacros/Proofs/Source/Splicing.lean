import HeaderMacros.Proofs.Text.Lines
import HeaderMacros.Source.Splice

/-!
# Which lines are joined

A run of lines is a line that is continued, the lines after it as long as they are continued, and
one line more. `joinRuns` joins every run onto its first line and leaves its other lines empty.

`spliceLines` looks for a backslash at the end of the line that is being put together and not at the
end of the line that was joined last. The two differ if a run ends in an empty line: what was joined
before may then end in a backslash once more, and `spliceLines` goes on with the next run.

- `splice_eq_unlines_joinRuns_iff`: this is the only difference. The lines are joined by runs
  exactly if no run but the last one comes to a line that ends in a backslash.
-/

namespace HeaderMacros.Source

/-! ## Lines of the joined text -/

/-- Joining puts together bytes of the lines. -/
theorem mem_of_mem_spliceLinesFrom {current : Text} {emptied : Nat} {rest : List Text} {line : Text}
    (h : line ∈ spliceLinesFrom current emptied rest) {b : UInt8} (hb : b ∈ line) :
    ∃ other ∈ current :: rest, b ∈ other := by
  have hempty {n : Nat} (h : line ∈ List.replicate n ([] : Text)) : False := by
    rw [List.eq_of_mem_replicate h] at hb
    cases hb
  induction rest generalizing current emptied with
  | nil =>
    rcases List.mem_cons.1 h with rfl | h
    · exact ⟨line, List.mem_cons_self, hb⟩
    · exact (hempty h).elim
  | cons next rest ih =>
    rw [spliceLinesFrom] at h
    split at h
    · obtain ⟨other, hother, hb⟩ := ih h
      rcases List.mem_cons.1 hother with rfl | hother
      · rcases List.mem_append.1 hb with hb | hb
        · exact ⟨current, List.mem_cons_self, (List.dropLast_sublist current).subset hb⟩
        · exact ⟨next, by simp, hb⟩
      · exact ⟨other, by simp [hother], hb⟩
    · rcases List.mem_append.1 h with h | h
      · rcases List.mem_cons.1 h with rfl | h
        · exact ⟨line, List.mem_cons_self, hb⟩
        · exact (hempty h).elim
      · obtain ⟨other, hother, hb⟩ := ih h
        exact ⟨other, List.mem_cons_of_mem current hother, hb⟩

/-- The lines of the joined text are the joined lines. -/
theorem lines_splice (text : Text) : Text.lines (splice text) = spliceLines (Text.lines text) := by
  obtain ⟨line, rest, hlines⟩ : ∃ line rest, Text.lines text = line :: rest :=
    List.exists_cons_of_ne_nil (Text.splitOn_ne_nil Byte.newline text)
  have hlength := length_spliceLinesFrom line 0 rest
  rw [splice, hlines, spliceLines]
  -- Joined lines are made of the bytes of lines, so there is no newline in them.
  refine Text.splitOn_join (List.length_pos_iff.1 (by omega)) fun piece hpiece hnewline => ?_
  obtain ⟨other, hother, hmem⟩ := mem_of_mem_spliceLinesFrom hpiece hnewline
  rw [← hlines] at hother
  exact Text.notMem_of_mem_splitOn hother hmem

theorem count_newline_splice (text : Text) :
    (splice text).count Byte.newline = text.count Byte.newline := by
  have hlength := congrArg List.length (lines_splice text)
  obtain ⟨line, rest, hlines⟩ : ∃ line rest, Text.lines text = line :: rest :=
    List.exists_cons_of_ne_nil (Text.splitOn_ne_nil Byte.newline text)
  have hcount : (Text.lines text).length = _ := Text.length_splitOn Byte.newline text
  rw [hlines, spliceLines, length_spliceLinesFrom, Text.lines, Text.length_splitOn] at hlength
  rw [hlines, List.length_cons] at hcount
  omega

/-! ## Runs -/

/-- The runs of continued lines, each with the line that ends it. -/
def runs : List Text → List (List Text)
  | [] => []
  | [line] => [[line]]
  | line :: next :: rest =>
    if isContinued line then (runs (next :: rest)).modifyHead (line :: ·)
    else [line] :: runs (next :: rest)

/-- The line that a run comes to. -/
def joinRun : List Text → Text
  | [] => []
  | [line] => line
  | line :: next :: rest => line.dropLast ++ joinRun (next :: rest)

/-- Joins every run onto its first line and leaves its other lines empty. -/
def joinRuns (lines : List Text) : List Text :=
  (runs lines).flatMap fun run => joinRun run :: List.replicate (run.length - 1) []

/-- No run but the last one comes to a line that ends in a backslash. -/
def Settled (lines : List Text) : Prop :=
  ∀ run ∈ (runs lines).dropLast, isContinued (joinRun run) = false

instance (lines : List Text) : Decidable (Settled lines) :=
  inferInstanceAs (Decidable (∀ run ∈ (runs lines).dropLast, isContinued (joinRun run) = false))

/-- Lines have a first run, and it has a first line. -/
theorem exists_runs_eq (line : Text) (rest : List Text) :
    ∃ more others, runs (line :: rest) = (line :: more) :: others := by
  induction rest generalizing line with
  | nil => exact ⟨[], [], rfl⟩
  | cons next rest ih =>
    obtain ⟨more, others, h⟩ := ih next
    rw [runs, h]
    split
    · exact ⟨next :: more, others, rfl⟩
    · exact ⟨[], (next :: more) :: others, rfl⟩

/-! ## A run in progress -/

/-- The joined lines of some lines, where `start` has been put together before the first of them and
`emptied` lines have been joined onto it. -/
def joinRunsFrom (start : Text) (emptied : Nat) (lines : List Text) : List Text :=
  match runs lines with
  | [] => []
  | run :: others =>
    (start ++ joinRun run) :: List.replicate (emptied + (run.length - 1)) [] ++
      others.flatMap fun run => joinRun run :: List.replicate (run.length - 1) []

/-- No run but the last one comes to a line that ends in a backslash, where `start` has been put
together before the first line. -/
def SettledFrom (start : Text) (lines : List Text) : Prop :=
  match runs lines with
  | [] => True
  | run :: others =>
    (others ≠ [] → isContinued (start ++ joinRun run) = false) ∧
      ∀ run ∈ others.dropLast, isContinued (joinRun run) = false

/-- A text that ends in a line that is continued ends in its backslash. -/
theorem isContinued_append (start : Text) {line : Text} (h : isContinued line = true) :
    isContinued (start ++ line) = true ∧ (start ++ line).dropLast = start ++ line.dropLast := by
  have hne : line ≠ [] := by
    rintro rfl
    cases h
  refine ⟨?_, List.dropLast_append_of_ne_nil hne⟩
  rw [isContinued] at h ⊢
  rw [List.getLast?_append, List.getLast?_eq_some_getLast hne, Option.some_or,
    ← List.getLast?_eq_some_getLast hne]
  exact h

theorem joinRunsFrom_nil (line : Text) (rest : List Text) :
    joinRunsFrom [] 0 (line :: rest) = joinRuns (line :: rest) := by
  obtain ⟨more, others, h⟩ := exists_runs_eq line rest
  rw [joinRunsFrom, joinRuns, h]
  simp

/-- A continued line is put together with the run that follows. -/
theorem joinRunsFrom_of_isContinued {line : Text} (h : isContinued line = true) (start : Text)
    (emptied : Nat) (next : Text) (rest : List Text) :
    joinRunsFrom start emptied (line :: next :: rest) =
      joinRunsFrom (start ++ line.dropLast) (emptied + 1) (next :: rest) := by
  obtain ⟨more, others, hruns⟩ := exists_runs_eq next rest
  rw [joinRunsFrom, joinRunsFrom, runs, if_pos h, hruns]
  simp only [List.modifyHead_cons, joinRun, List.append_assoc, List.length_cons]
  congr 3
  omega

/-- A line that is not continued ends a run. -/
theorem joinRunsFrom_of_not_isContinued {line : Text} (h : isContinued line = false) (start : Text)
    (emptied : Nat) (next : Text) (rest : List Text) :
    joinRunsFrom start emptied (line :: next :: rest) =
      (start ++ line) :: List.replicate emptied [] ++ joinRuns (next :: rest) := by
  rw [joinRunsFrom, runs, h, if_neg Bool.false_ne_true]
  rfl

theorem settledFrom_nil {line : Text} {rest : List Text} :
    SettledFrom [] (line :: rest) ↔ Settled (line :: rest) := by
  obtain ⟨more, others, h⟩ := exists_runs_eq line rest
  rw [SettledFrom, Settled, h]
  cases others with
  | nil => simp
  | cons run others => simp

theorem settledFrom_of_isContinued {line : Text} (h : isContinued line = true) {start next : Text}
    {rest : List Text} :
    SettledFrom start (line :: next :: rest) ↔
      SettledFrom (start ++ line.dropLast) (next :: rest) := by
  obtain ⟨more, others, hruns⟩ := exists_runs_eq next rest
  rw [SettledFrom, SettledFrom, runs, if_pos h, hruns]
  simp only [List.modifyHead_cons, joinRun, List.append_assoc]

theorem settledFrom_of_not_isContinued {line : Text} (h : isContinued line = false)
    {start next : Text} {rest : List Text} :
    SettledFrom start (line :: next :: rest) ↔
      isContinued (start ++ line) = false ∧ Settled (next :: rest) := by
  obtain ⟨more, others, hruns⟩ := exists_runs_eq next rest
  rw [SettledFrom, Settled, runs, h, if_neg Bool.false_ne_true, hruns]
  simp [joinRun]

/-- What has been put together before the first line adds its length. -/
theorem length_flatten_joinRunsFrom (start : Text) (emptied : Nat) (line : Text)
    (rest : List Text) :
    (joinRunsFrom start emptied (line :: rest)).flatten.length =
      start.length + (joinRuns (line :: rest)).flatten.length := by
  obtain ⟨more, others, h⟩ := exists_runs_eq line rest
  have hempty (n : Nat) : (List.replicate n ([] : Text)).flatten = [] := by simp
  rw [joinRunsFrom, joinRuns, h]
  simp only [List.flatMap_cons, List.cons_append, List.flatten_cons, List.flatten_append, hempty,
    List.nil_append, List.length_append]
  omega

/-! ## Joining by runs -/

/-- As long as no line that a run comes to ends in a backslash, lines are joined by runs. -/
theorem spliceLinesFrom_eq_joinRunsFrom (start line : Text) {rest : List Text}
    (h : SettledFrom start (line :: rest)) (emptied : Nat) :
    spliceLinesFrom (start ++ line) emptied rest = joinRunsFrom start emptied (line :: rest) := by
  -- Along the lines, with `start` what the run of `line` has put together before it.
  induction rest generalizing start line emptied with
  | nil => simp [spliceLinesFrom, joinRunsFrom, runs, joinRun]
  | cons next rest ih =>
    rw [spliceLinesFrom]
    by_cases hline : isContinued line = true
    · obtain ⟨hcontinued, hdrop⟩ := isContinued_append start hline
      rw [if_pos hcontinued, hdrop, ih _ _ ((settledFrom_of_isContinued hline).1 h),
        joinRunsFrom_of_isContinued hline]
    · rw [Bool.not_eq_true] at hline
      obtain ⟨hends, hsettled⟩ := (settledFrom_of_not_isContinued hline).1 h
      have hnext := ih [] next (settledFrom_nil.2 hsettled) 0
      rw [List.nil_append] at hnext
      rw [hends, if_neg Bool.false_ne_true, hnext, joinRunsFrom_nil,
        joinRunsFrom_of_not_isContinued hline]

/-- Joining never keeps more bytes than joining by runs, and as many only if no line that a run
comes to ends in a backslash. -/
theorem length_spliceLinesFrom_le (start line : Text) (emptied : Nat) (rest : List Text) :
    (spliceLinesFrom (start ++ line) emptied rest).flatten.length ≤
        (joinRunsFrom start emptied (line :: rest)).flatten.length ∧
      ((spliceLinesFrom (start ++ line) emptied rest).flatten.length =
        (joinRunsFrom start emptied (line :: rest)).flatten.length →
        SettledFrom start (line :: rest)) := by
  induction rest generalizing start line emptied with
  | nil => simp [spliceLinesFrom, joinRunsFrom, SettledFrom, runs, joinRun]
  | cons next rest ih =>
    rw [spliceLinesFrom]
    by_cases hline : isContinued line = true
    · obtain ⟨hcontinued, hdrop⟩ := isContinued_append start hline
      rw [if_pos hcontinued, hdrop, joinRunsFrom_of_isContinued hline,
        settledFrom_of_isContinued hline]
      exact ih _ _ _
    rw [Bool.not_eq_true] at hline
    rw [joinRunsFrom_of_not_isContinued hline, settledFrom_of_not_isContinued hline,
      List.flatten_append, List.length_append]
    by_cases hends : isContinued (start ++ line) = true
    · -- One more line is joined, for which a backslash is dropped that joining by runs keeps.
      have hpos : 0 < (start ++ line).length := by
        rw [List.length_pos_iff]
        intro hnil
        rw [hnil] at hends
        cases hends
      have hle := (ih (start ++ line).dropLast next (emptied + 1)).1
      rw [length_flatten_joinRunsFrom, List.length_dropLast] at hle
      rw [if_pos hends, List.flatten_cons, List.length_append]
      refine ⟨by omega, fun h => absurd h (by omega)⟩
    · rw [Bool.not_eq_true] at hends
      obtain ⟨hle, heq⟩ := ih [] next 0
      rw [joinRunsFrom_nil, List.nil_append] at hle heq
      rw [hends, if_neg Bool.false_ne_true, List.flatten_append, List.length_append]
      refine ⟨by omega, fun h => ⟨rfl, settledFrom_nil.1 (heq (by omega))⟩⟩

theorem length_joinRunsFrom (start : Text) (emptied : Nat) (line : Text) (rest : List Text) :
    (joinRunsFrom start emptied (line :: rest)).length = emptied + rest.length + 1 := by
  induction rest generalizing start emptied line with
  | nil => simp [joinRunsFrom, runs]
  | cons next rest ih =>
    cases hline : isContinued line with
    | true =>
      rw [joinRunsFrom_of_isContinued hline, ih, List.length_cons]
      omega
    | false =>
      rw [joinRunsFrom_of_not_isContinued hline, List.length_append, ← joinRunsFrom_nil, ih,
        List.length_cons, List.length_cons, List.length_replicate]
      omega

/-- The continued lines of a text are joined by runs exactly if no run but the last one comes to a
line that ends in a backslash. -/
theorem splice_eq_unlines_joinRuns_iff (text : Text) :
    splice text = Text.unlines (joinRuns (Text.lines text)) ↔ Settled (Text.lines text) := by
  obtain ⟨line, rest, hlines⟩ :=
    List.exists_cons_of_ne_nil (Text.splitOn_ne_nil Byte.newline text)
  rw [splice, Text.lines, hlines, spliceLines, ← joinRunsFrom_nil, ← settledFrom_nil]
  refine ⟨fun h => ?_, fun h => ?_⟩
  · -- Both have as many lines, so the texts are of one length only if the lines are.
    have hsplice := length_spliceLinesFrom line 0 rest
    have hjoin := length_joinRunsFrom [] 0 line rest
    have hlength := congrArg (List.length · + 1) h
    simp only [Text.unlines] at hlength
    rw [Text.length_join (List.length_pos_iff.1 (by omega)),
      Text.length_join (List.length_pos_iff.1 (by omega)), hsplice, hjoin] at hlength
    exact (length_spliceLinesFrom_le [] line 0 rest).2 (Nat.add_right_cancel hlength)
  · exact congrArg Text.unlines (spliceLinesFrom_eq_joinRunsFrom [] line h 0)

end HeaderMacros.Source
