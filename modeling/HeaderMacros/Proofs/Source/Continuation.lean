import HeaderMacros.Proofs.Source.Splicing

/-!
# What joining does around a text

Joining lines puts the lines that it leaves empty after the line that they were joined onto, so what
follows a text depends on how many there are when the text ends. `spliceFrom` joins the lines of a
text of which the first has some lines joined onto it already.

- `exists_spliceFrom_append`: joining the lines of a longer text joins those of its start, and goes
  on with the last of them.
- `rest_of_spliceFrom`: if a text comes through with none of its bytes changed, then no line was
  joined within it, and what follows it is joined by itself.
- `splice_around`: a text that comes through unchanged has the same text before it and after it,
  whatever it is.
-/

namespace HeaderMacros.Source

/-- The text with its continued lines joined, where `emptied` lines have been joined onto the first
one already. -/
def spliceFrom (emptied : Nat) (text : Text) : Text :=
  match Text.lines text with
  | [] => []
  | first :: rest => Text.unlines (spliceLinesFrom first emptied rest)

theorem splice_eq_spliceFrom (text : Text) : splice text = spliceFrom 0 text := by
  unfold splice spliceFrom
  cases Text.lines text <;> rfl

/-! ## One line -/

theorem lines_append_newline {line : Text} (h : Byte.newline ∉ line) (text : Text) :
    Text.lines (line ++ Byte.newline :: text) = line :: Text.lines text := by
  rw [Text.lines, Text.splitOn_append_sep, Text.splitOn_of_notMem h, List.singleton_append]
  rfl

theorem unlines_replicate_nil_append (count : Nat) {ls : List Text} (h : ls ≠ []) :
    Text.unlines (List.replicate count [] ++ ls) =
      List.replicate count Byte.newline ++ Text.unlines ls := by
  induction count with
  | zero => rfl
  | succ count ih =>
    rw [List.replicate_succ, List.cons_append, Text.unlines,
      Text.join_cons (List.append_ne_nil_of_right_ne_nil _ h), ← Text.unlines, ih]
    rfl

/-- A last line is followed by the lines that were joined onto it. -/
theorem spliceFrom_last {line : Text} (h : Byte.newline ∉ line) (emptied : Nat) :
    spliceFrom emptied line = line ++ List.replicate emptied Byte.newline := by
  rw [spliceFrom, Text.lines, Text.splitOn_of_notMem h]
  show Text.unlines (line :: List.replicate emptied []) = _
  cases emptied with
  | zero => exact (List.append_nil line).symm
  | succ count =>
    rw [List.replicate_succ', Text.unlines, Text.join_cons (by simp), ← Text.unlines,
      unlines_replicate_nil_append count (List.cons_ne_nil _ _), List.replicate_succ]
    show line ++ [Byte.newline] ++ (List.replicate count Byte.newline ++ []) = _
    simp

/-- The next line is joined onto a line that is continued. -/
theorem spliceFrom_of_isContinued {line : Text} (h : Byte.newline ∉ line)
    (hcontinued : isContinued line = true) (emptied : Nat) (text : Text) :
    spliceFrom emptied (line ++ Byte.newline :: text) =
      spliceFrom (emptied + 1) (line.dropLast ++ text) := by
  obtain ⟨next, rest, hnext⟩ := List.exists_cons_of_ne_nil (Text.splitOn_ne_nil Byte.newline text)
  have hdrop : Byte.newline ∉ line.dropLast := fun hmem =>
    h ((List.dropLast_sublist line).subset hmem)
  have hjoined : Text.lines (line.dropLast ++ text) = (line.dropLast ++ next) :: rest :=
    Text.splitOn_append_of_notMem hdrop hnext
  rw [spliceFrom, spliceFrom, lines_append_newline h, hjoined, Text.lines, hnext]
  show Text.unlines (spliceLinesFrom line emptied (next :: rest)) = _
  rw [spliceLinesFrom, if_pos hcontinued]

/-- A line that is not continued is ended, with the lines that were joined onto it after it. -/
theorem spliceFrom_of_not_isContinued {line : Text} (h : Byte.newline ∉ line)
    (hcontinued : isContinued line = false) (emptied : Nat) (text : Text) :
    spliceFrom emptied (line ++ Byte.newline :: text) =
      line ++ Byte.newline :: (List.replicate emptied Byte.newline ++ spliceFrom 0 text) := by
  obtain ⟨next, rest, hnext⟩ := List.exists_cons_of_ne_nil (Text.splitOn_ne_nil Byte.newline text)
  have hne : spliceLinesFrom next 0 rest ≠ [] := by
    have hlength := length_spliceLinesFrom next 0 rest
    exact List.length_pos_iff.1 (by omega)
  rw [spliceFrom, spliceFrom, lines_append_newline h, Text.lines, hnext]
  show Text.unlines (spliceLinesFrom line emptied (next :: rest)) = _
  rw [spliceLinesFrom, hcontinued, if_neg Bool.false_ne_true, List.cons_append, Text.unlines,
    Text.join_cons (List.append_ne_nil_of_right_ne_nil _ hne), ← Text.unlines,
    unlines_replicate_nil_append emptied hne]
  simp

/-- Induction over the lines of a text as they are joined: a last line, a line that is continued,
and a line that is not. -/
@[elab_as_elim]
theorem line_induction {motive : Text → Prop}
    (last : ∀ line, Byte.newline ∉ line → motive line)
    (continued : ∀ line rest, Byte.newline ∉ line → isContinued line = true →
      motive (line.dropLast ++ rest) → motive (line ++ Byte.newline :: rest))
    (ended : ∀ line rest, Byte.newline ∉ line → isContinued line = false →
      motive rest → motive (line ++ Byte.newline :: rest))
    (text : Text) : motive text := by
  -- The text that is left has one newline less.
  induction hcount : text.count Byte.newline generalizing text with
  | zero => exact last text (List.count_eq_zero.1 hcount)
  | succ count ih =>
    have hmem : Byte.newline ∈ text := List.count_pos_iff.1 (by omega)
    obtain ⟨line, rest, rfl, hline⟩ := List.eq_append_cons_of_mem hmem
    have hdrop : Byte.newline ∉ line.dropLast := fun h =>
      hline ((List.dropLast_sublist line).subset h)
    rw [List.count_append, List.count_cons_self, List.count_eq_zero.2 hline] at hcount
    cases hcontinued : isContinued line with
    | false => exact ended line rest hline hcontinued (ih rest (by omega))
    | true =>
      refine continued line rest hline hcontinued (ih _ ?_)
      rw [List.count_append, List.count_eq_zero.2 hdrop]
      omega

/-! ## The start of a text -/

/-- A start of a line that does not end in a backslash stays as it is. -/
theorem spliceFrom_append {start : Text} (h : Byte.newline ∉ start)
    (hcontinued : isContinued start = false) (emptied : Nat) (text : Text) :
    spliceFrom emptied (start ++ text) = start ++ spliceFrom emptied text := by
  have hmem {line : Text} (hline : Byte.newline ∉ line) : Byte.newline ∉ start ++ line := by
    rw [List.mem_append, not_or]
    exact ⟨h, hline⟩
  induction text using line_induction generalizing emptied with
  | last line hline =>
    rw [spliceFrom_last (hmem hline), spliceFrom_last hline, List.append_assoc]
  | continued line rest hline hjoin ih =>
    obtain ⟨hboth, hdrop⟩ := isContinued_append start hjoin
    rw [spliceFrom_of_isContinued hline hjoin, ← ih, ← List.append_assoc,
      spliceFrom_of_isContinued (hmem hline) hboth, hdrop, List.append_assoc]
  | ended line rest hline hjoin _ =>
    have hboth : isContinued (start ++ line) = false := by
      cases line with
      | nil => rwa [List.append_nil]
      | cons b line => simpa [isContinued, List.getLast?_append, List.getLast?_cons] using hjoin
    rw [spliceFrom_of_not_isContinued hline hjoin, ← List.append_assoc,
      spliceFrom_of_not_isContinued (hmem hline) hboth, List.append_assoc]

/-- Joining the lines of a longer text joins those of its start and goes on with the last one. -/
theorem exists_spliceFrom_append (start : Text) (emptied : Nat) :
    ∃ done line count, Byte.newline ∉ line ∧
      ∀ text, spliceFrom emptied (start ++ text) = done ++ spliceFrom count (line ++ text) := by
  induction start using line_induction generalizing emptied with
  | last line hline => exact ⟨[], line, emptied, hline, fun _ => rfl⟩
  | continued line rest hline hjoin ih =>
    obtain ⟨done, last, count, hlast, hdone⟩ := ih (emptied + 1)
    refine ⟨done, last, count, hlast, fun text => ?_⟩
    rw [← hdone, List.append_assoc, List.cons_append, spliceFrom_of_isContinued hline hjoin,
      List.append_assoc]
  | ended line rest hline hjoin ih =>
    obtain ⟨done, last, count, hlast, hdone⟩ := ih 0
    refine ⟨line ++ Byte.newline :: (List.replicate emptied Byte.newline ++ done), last, count,
      hlast, fun text => ?_⟩
    rw [List.append_assoc, List.cons_append, spliceFrom_of_not_isContinued hline hjoin, hdone]
    simp

/-! ## A text that comes through unchanged -/

/-- Nothing but empty lines follows a line of the joined text that is continued. -/
theorem eq_newline_of_spliceFrom {emptied : Nat} {text line after : Text}
    (h : spliceFrom emptied text = line ++ Byte.newline :: after) (hline : Byte.newline ∉ line)
    (hcontinued : isContinued line = true) {b : UInt8} (hb : b ∈ after) : b = Byte.newline := by
  induction text using line_induction generalizing emptied with
  | last last hlast =>
    rw [spliceFrom_last hlast] at h
    cases emptied with
    | zero =>
      rw [List.replicate_zero, List.append_nil] at h
      rw [h] at hlast
      exact absurd (by simp) hlast
    | succ count =>
      rw [List.replicate_succ] at h
      obtain ⟨-, rfl⟩ := Text.eq_of_append_sep hlast hline h
      exact List.eq_of_mem_replicate hb
  | continued first rest hfirst hjoin ih =>
    rw [spliceFrom_of_isContinued hfirst hjoin] at h
    exact ih h
  | ended first rest hfirst hjoin _ =>
    rw [spliceFrom_of_not_isContinued hfirst hjoin] at h
    obtain ⟨rfl, -⟩ := Text.eq_of_append_sep hfirst hline h
    rw [hjoin] at hcontinued
    cases hcontinued

/-- If lines were left empty before a text that comes through unchanged, there are none. -/
theorem eq_zero_of_replicate_append {count : Nat} {start : Text} {b : UInt8}
    (hb : b ≠ Byte.newline) {text rest : Text}
    (h : List.replicate count Byte.newline ++ spliceFrom 0 (start ++ b :: text) =
      start ++ b :: rest) : count = 0 := by
  induction start with
  | nil =>
    cases count with
    | zero => rfl
    | succ count => exact absurd (List.cons.inj h).1.symm hb
  | cons c start ih =>
    cases count with
    | zero => rfl
    | succ count =>
      -- An empty line before the text makes its first line empty, and so on with the next one.
      obtain ⟨rfl, hrest⟩ := List.cons.inj h
      have hempty : spliceFrom 0 (Byte.newline :: start ++ b :: text) =
          Byte.newline :: spliceFrom 0 (start ++ b :: text) :=
        spliceFrom_of_not_isContinued List.not_mem_nil rfl 0 _
      have hmore : List.replicate (count + 1) Byte.newline ++ spliceFrom 0 (start ++ b :: text) =
          start ++ b :: rest := by
        rw [List.replicate_succ', List.append_assoc, List.singleton_append, ← hempty]
        exact hrest
      exact ih hmore

/-- If a text comes through unchanged up to a byte that cannot continue a line, then no line was
joined within it, and what follows it is joined by itself. -/
theorem rest_of_spliceFrom {emptied : Nat} {start : Text} {b : UInt8} (hb : b ≠ Byte.newline)
    (hb' : b ≠ Byte.backslash) {text rest : Text}
    (h : spliceFrom emptied (start ++ b :: text) = start ++ b :: rest) :
    rest = spliceFrom (if Byte.newline ∈ start then 0 else emptied) text := by
  induction start using line_induction generalizing emptied with
  | last line hline =>
    have hmem : Byte.newline ∉ line ++ [b] := by
      simp [hline, hb.symm]
    have hcontinued : isContinued (line ++ [b]) = false := by
      simp [isContinued, hb']
    rw [List.append_cons, spliceFrom_append hmem hcontinued, List.append_cons line b rest] at h
    rw [if_neg hline]
    exact (List.append_cancel_left h).symm
  | continued line more hline hjoin _ =>
    rw [List.append_assoc, List.append_assoc] at h
    exact absurd (eq_newline_of_spliceFrom h hline hjoin (by simp)) hb
  | ended line more hline hjoin ih =>
    rw [List.append_assoc, List.append_assoc, List.cons_append, List.cons_append,
      spliceFrom_of_not_isContinued hline hjoin] at h
    have hmore := (List.cons.inj (List.append_cancel_left h)).2
    have hzero := eq_zero_of_replicate_append hb hmore
    rw [hzero, List.replicate_zero, List.nil_append] at hmore
    rw [ih hmore, ite_self, if_pos (by simp)]

/-- Two texts that are the same up to newlines at their ends, and are followed by one byte that is
no newline in the same text, are the same. -/
theorem eq_of_append_replicate {before before' after after' : Text} {b : UInt8} {count count' : Nat}
    (hb : b ≠ Byte.newline)
    (hends : before ++ List.replicate count Byte.newline =
      before' ++ List.replicate count' Byte.newline)
    (h : before ++ b :: after = before' ++ b :: after') : before = before' := by
  -- The longer of the two goes on with newlines, but also with the byte.
  have hnil {more tail tail' : Text} {n k : Nat}
      (hmore : List.replicate n Byte.newline = more ++ List.replicate k Byte.newline)
      (htail : b :: tail = more ++ b :: tail') : more = [] := by
    cases more with
    | nil => rfl
    | cons c more =>
      obtain ⟨rfl, -⟩ := List.cons.inj htail
      have hmem : b ∈ List.replicate n Byte.newline := by
        rw [hmore]
        exact List.mem_cons_self
      exact absurd (List.eq_of_mem_replicate hmem) hb
  rcases List.append_eq_append_iff.1 h with ⟨more, rfl, htail⟩ | ⟨more, rfl, htail⟩
  · rw [List.append_assoc] at hends
    rw [hnil (List.append_cancel_left hends) htail, List.append_nil]
  · rw [List.append_assoc] at hends
    rw [hnil (List.append_cancel_left hends).symm htail, List.append_nil]

/-- What stands before a text that comes through unchanged, and what follows it, do not depend on
the text but for whether it has a newline: there are a text that joining makes of the start, and a
number of lines left empty at its end. -/
theorem splice_around (start : Text) : ∃ lead emptied,
    ∀ {first last : UInt8} {middle after before rest : Text} {count : Nat},
      first ≠ Byte.newline → first ≠ Byte.backslash → last ≠ Byte.newline → last ≠ Byte.backslash →
      splice start = before ++ List.replicate count Byte.newline →
      splice (start ++ first :: middle ++ last :: after) =
        before ++ first :: middle ++ last :: rest →
      before = lead ∧ rest = spliceFrom (if Byte.newline ∈ middle then 0 else emptied) after := by
  -- Of the start, some lines are done and a last one is still open for what follows.
  obtain ⟨done, line, emptied, hline, hdone⟩ := exists_spliceFrom_append start 0
  refine ⟨done ++ line, emptied, ?_⟩
  intro first last middle after before rest count hfirst hfirst' hlast hlast' hstart h
  have hmem : Byte.newline ∉ line ++ [first] := by
    simp [hline, hfirst.symm]
  have hcontinued : isContinued (line ++ [first]) = false := by
    simp [isContinued, hfirst']
  have hlead : splice start = done ++ line ++ List.replicate emptied Byte.newline := by
    have hnone := hdone []
    rwa [List.append_nil, List.append_nil, spliceFrom_last hline, ← splice_eq_spliceFrom,
      ← List.append_assoc] at hnone
  -- The first byte of the text is no newline, so it is where the open line goes on.
  have hbefore : before = done ++ line := by
    rw [splice_eq_spliceFrom, List.append_assoc, hdone, List.cons_append, List.append_cons line,
      spliceFrom_append hmem hcontinued] at h
    have hafter : done ++ line ++ first :: spliceFrom emptied (middle ++ last :: after) =
        before ++ first :: (middle ++ last :: rest) := by
      simpa using h
    exact (eq_of_append_replicate hfirst (hlead.symm.trans hstart) hafter).symm
  subst hbefore
  rw [splice_eq_spliceFrom, List.append_assoc, hdone] at h
  have hunchanged : spliceFrom emptied ((line ++ first :: middle) ++ last :: after) =
      (line ++ first :: middle) ++ last :: rest := by
    simpa using h
  have hmiddle : Byte.newline ∈ line ++ first :: middle ↔ Byte.newline ∈ middle := by
    simp [hline, hfirst.symm]
  rw [rest_of_spliceFrom hlast hlast' hunchanged]
  simp only [hmiddle, and_self]

end HeaderMacros.Source
