import HeaderMacros.Proofs.Source.Splicing
import HeaderMacros.Source.Normalize
import Mathlib.Data.List.Forall2

/-!
# Every line stays in its place

Stripping comments and coalescing white space drop bytes, but no newlines, and put in white space,
but no newlines (`Keeps`). So line for line nothing but white space is new in a normalized text, and
a comment that is never closed is reported with the line on which it opens.

- `keepsPlaces_splice`: this holds with respect to the text as `splice` joins its lines.
- `normalize_keeps_places`: with respect to the text with its lines joined by runs, it holds where
  the two are the same text.
-/

namespace HeaderMacros.Source

/-! ## Dropping and adding bytes within lines -/

/-- The first text is the second one with some bytes dropped and some white space put in, but no
newline dropped or put in. -/
inductive Keeps : Text → Text → Prop where
  /-- Nothing comes of nothing. -/
  | nil : Keeps [] []
  /-- A byte stays. -/
  | keep {out source : Text} (b : UInt8) (h : Keeps out source) : Keeps (b :: out) (b :: source)
  /-- A byte is dropped. -/
  | drop {out source : Text} {b : UInt8} (hb : b ≠ Byte.newline) (h : Keeps out source) :
    Keeps out (b :: source)
  /-- White space is put in. -/
  | add {out source : Text} {b : UInt8} (hb : b ≠ Byte.newline) (hspace : Byte.isSpace b = true)
    (h : Keeps out source) : Keeps (b :: out) source

namespace Keeps

theorem append_left (text : Text) {out source : Text} (h : Keeps out source) :
    Keeps (text ++ out) (text ++ source) := by
  induction text with
  | nil => exact h
  | cons b text ih => exact .keep b ih

theorem drop_append {text : Text} (htext : Byte.newline ∉ text) {out source : Text}
    (h : Keeps out source) : Keeps out (text ++ source) := by
  induction text with
  | nil => exact h
  | cons b text ih =>
    rw [List.mem_cons, not_or] at htext
    exact .drop (Ne.symm htext.1) (ih htext.2)

/-- All of a text may be dropped but its newlines. -/
theorem newlines_append (text : Text) {out source : Text} (h : Keeps out source) :
    Keeps (List.replicate (newlines text) Byte.newline ++ out) (text ++ source) := by
  induction text with
  | nil => exact h
  | cons b text ih =>
    rw [newlines, List.count_cons]
    by_cases hb : b = Byte.newline
    · rw [if_pos (beq_iff_eq.2 hb), List.replicate_succ, hb]
      exact .keep _ ih
    · rw [if_neg (by rwa [beq_iff_eq])]
      exact .drop hb ih

theorem newlines_eq {out source : Text} (h : Keeps out source) :
    newlines out = newlines source := by
  induction h with
  | nil => rfl
  | keep b h ih =>
    rw [newlines, newlines, List.count_cons, List.count_cons, ← newlines, ih, newlines]
  | drop hb h ih => rw [ih, newlines, newlines, List.count_cons_of_ne hb]
  | add hb hspace h ih => rw [← ih, newlines, newlines, List.count_cons_of_ne hb]

end Keeps

/-- The bytes of a line that are not white space. -/
def solid (line : Text) : Text := line.filter fun b => !Byte.isSpace b

/-- Apart from white space, a line has bytes of another line in their order. -/
def LineFrom (line source : Text) : Prop := (solid line).Sublist (solid source)

instance (line source : Text) : Decidable (LineFrom line source) :=
  inferInstanceAs (Decidable ((solid line).Sublist (solid source)))

/-- Line for line, a text has nothing new but white space. -/
def LinesFrom (out source : Text) : Prop :=
  List.Forall₂ LineFrom (Text.lines out) (Text.lines source)

theorem LinesFrom.trans {out mid source : Text} (h : LinesFrom out mid)
    (h' : LinesFrom mid source) : LinesFrom out source := by
  have htrans : ∀ {as bs cs : List Text}, List.Forall₂ LineFrom as bs →
      List.Forall₂ LineFrom bs cs → List.Forall₂ LineFrom as cs := by
    intro as bs cs hab hbc
    induction hab generalizing cs with
    | nil => exact hbc
    | cons hline hlines ih =>
      cases hbc with
      | cons hline' hlines' => exact .cons (List.Sublist.trans hline hline') (ih hlines')
  exact htrans h h'

/-- Bytes may be put in front of the first lines, if apart from white space the one has nothing new
to the other. -/
theorem LinesFrom.append_of_notMem {before before' : Text} (hbefore : Byte.newline ∉ before)
    (hbefore' : Byte.newline ∉ before') (hline : LineFrom before before') {out source : Text}
    (h : LinesFrom out source) : LinesFrom (before ++ out) (before' ++ source) := by
  obtain ⟨first, others, hout⟩ : ∃ first others, Text.lines out = first :: others :=
    List.exists_cons_of_ne_nil (Text.splitOn_ne_nil Byte.newline out)
  obtain ⟨first', others', hsource⟩ : ∃ first others, Text.lines source = first :: others :=
    List.exists_cons_of_ne_nil (Text.splitOn_ne_nil Byte.newline source)
  rw [LinesFrom, hout, hsource] at h
  rw [LinesFrom, Text.lines, Text.lines, Text.splitOn_append_of_notMem hbefore hout,
    Text.splitOn_append_of_notMem hbefore' hsource]
  cases h with
  | cons hfirst hothers =>
    refine .cons ?_ hothers
    rw [LineFrom, solid, solid, List.filter_append, List.filter_append]
    exact List.Sublist.append hline hfirst

/-- A text that drops and adds bytes within lines has nothing new on any line but white space. -/
theorem Keeps.linesFrom {out source : Text} (h : Keeps out source) : LinesFrom out source := by
  have hsingle {b : UInt8} (hb : b ≠ Byte.newline) : Byte.newline ∉ [b] :=
    fun hmem => hb (List.mem_singleton.1 hmem).symm
  induction h with
  | nil => exact .cons (List.Sublist.refl _) .nil
  | @keep out source b h ih =>
    by_cases hb : b = Byte.newline
    · -- Both texts go on to their next line.
      rw [hb, LinesFrom, Text.lines, Text.lines, Text.splitOn, Text.splitOn, if_pos rfl]
      exact .cons (List.Sublist.refl _) ih
    · exact LinesFrom.append_of_notMem (hsingle hb) (hsingle hb) (List.Sublist.refl _) ih
  | @drop out source b hb h ih =>
    have hdrop : LinesFrom ([] ++ out) ([b] ++ source) :=
      LinesFrom.append_of_notMem List.not_mem_nil (hsingle hb) (List.nil_sublist _) ih
    exact hdrop
  | @add out source b hb hspace h ih =>
    have hblank : LineFrom [b] [] := by
      rw [LineFrom, solid, List.filter_cons, hspace]
      exact List.Sublist.refl _
    have hadd : LinesFrom ([b] ++ out) ([] ++ source) :=
      LinesFrom.append_of_notMem (hsingle hb) List.not_mem_nil hblank ih
    exact hadd

/-! ## Stripping comments -/

/-- A line comment ends with its line. -/
theorem newline_notMem_of_segment {before : Text} {b : UInt8} {text body : Text}
    (h : (segment before b text).1 = .lineComment body) : Byte.newline ∉ body := by
  unfold segment at h
  repeat' split at h
  all_goals cases h
  intro hmem
  exact absurd (List.all_eq_true.1 List.all_takeWhile _ hmem) (by decide)

/-- A comment that is never closed goes on to the end of the text. -/
theorem rest_of_segment {before : Text} {b : UInt8} {text body : Text}
    (h : (segment before b text).1 = .openComment body) :
    (segment before b text).2 = [] ∧ ¬ blockClose <:+: body := by
  -- What is left of the text is compared with the segment, so both are kept in one pair.
  generalize hsegment : segment before b text = found at h ⊢
  unfold segment at hsegment
  split at hsegment
  · subst hsegment; cases h
  split at hsegment
  · split at hsegment
    · subst hsegment; cases h
    · rename_i hcut
      subst hsegment
      cases h
      exact ⟨rfl, Text.not_isInfix_of_cut? hcut⟩
  · split at hsegment
    · subst hsegment; cases h
    · subst hsegment; cases h

theorem newline_notMem_of_mem_segmentsFrom {before text body : Text}
    (h : .lineComment body ∈ segmentsFrom before text) : Byte.newline ∉ body := by
  fun_induction segmentsFrom before text with
  | case1 => cases h
  | case2 before b text ih =>
    rcases List.mem_cons.1 h with h | h
    · exact newline_notMem_of_segment h.symm
    · exact ih h

/-- A comment that is never closed is the last segment of a text. -/
theorem openComment_of_segmentsFrom {before text body : Text} {front after : List Segment}
    (h : segmentsFrom before text = front ++ .openComment body :: after) :
    after = [] ∧ ¬ blockClose <:+: body := by
  fun_induction segmentsFrom before text generalizing front with
  | case1 => cases front <;> cases h
  | case2 before b text ih =>
    cases front with
    | nil =>
      obtain ⟨hfirst, hafter⟩ := List.cons.inj h
      obtain ⟨hrest, hbody⟩ := rest_of_segment hfirst
      rw [hrest, segmentsFrom] at hafter
      exact ⟨hafter.symm, hbody⟩
    | cons first front => exact ih (List.cons.inj h).2

theorem stripSegments_cons_eq_ok {line : Nat} {seg : Segment} {segs : List Segment} {out : Text}
    (h : stripSegments line (seg :: segs) = .ok out) :
    ∃ kept more, seg.kept? = some kept ∧
      stripSegments (line + newlines seg.source) segs = .ok more ∧ out = kept ++ more := by
  rw [stripSegments] at h
  cases hkept : seg.kept? with
  | none =>
    rw [hkept] at h
    cases h
  | some kept =>
    simp only [hkept] at h
    cases hmore : stripSegments (line + newlines seg.source) segs with
    | error n =>
      rw [hmore] at h
      cases h
    | ok more =>
      rw [hmore] at h
      cases h
      exact ⟨kept, more, rfl, rfl, rfl⟩

/-- Stripping comments drops bytes, but no newlines. -/
theorem keeps_stripSegments {segs : List Segment} {line : Nat} {out : Text}
    (hsegs : ∀ body, .lineComment body ∈ segs → Byte.newline ∉ body)
    (h : stripSegments line segs = .ok out) : Keeps out (segs.flatMap Segment.source) := by
  induction segs generalizing line out with
  | nil => cases h; exact .nil
  | cons seg segs ih =>
    obtain ⟨kept, more, hkept, hrest, rfl⟩ := stripSegments_cons_eq_ok h
    have hmore := ih (fun body hbody => hsegs body (List.mem_cons_of_mem seg hbody)) hrest
    rw [List.flatMap_cons]
    cases seg with
    | literal lit => cases hkept; exact hmore.append_left _
    | blockComment body =>
      -- The newlines of a comment are what is kept of it.
      cases hkept
      rw [Segment.source, List.append_assoc, List.append_assoc]
      exact Keeps.drop_append (by decide)
        (Keeps.newlines_append body (hmore.drop_append (by decide)))
    | openComment body => cases hkept
    | lineComment body =>
      cases hkept
      rw [Segment.source, List.append_assoc]
      exact Keeps.drop_append (by decide)
        (hmore.drop_append (hsegs body List.mem_cons_self))
    | plain byte => cases hkept; exact .keep byte hmore

/-- Stripping fails on the first comment that is never closed, with its line. -/
theorem stripSegments_eq_error_iff {segs : List Segment} {line n : Nat} :
    stripSegments line segs = .error n ↔
      ∃ before body after, segs = before ++ .openComment body :: after ∧
        (∀ other, .openComment other ∉ before) ∧
        n = line + newlines (before.flatMap Segment.source) := by
  induction segs generalizing line with
  | nil =>
    refine ⟨nofun, ?_⟩
    rintro ⟨before, body, after, h, -⟩
    cases before <;> cases h
  | cons seg segs ih =>
    rw [stripSegments]
    cases hkept : seg.kept? with
    | none =>
      -- Nothing can be kept of a comment that is never closed, so it is the one that is found.
      obtain ⟨body, rfl⟩ : ∃ body, seg = .openComment body := by
        cases seg with
        | openComment body => exact ⟨body, rfl⟩
        | literal | blockComment | lineComment | plain => cases hkept
      simp only [Except.error.injEq]
      refine ⟨fun h => ⟨[], body, segs, rfl, fun _ => List.not_mem_nil, h.symm⟩, ?_⟩
      rintro ⟨before, other, after, h, hbefore, hn⟩
      cases before with
      | nil => exact hn.symm
      | cons first before =>
        obtain ⟨rfl, -⟩ := List.cons.inj h
        exact absurd List.mem_cons_self (hbefore body)
    | some kept =>
      have hmap : (stripSegments (line + newlines seg.source) segs).map (kept ++ ·) = .error n ↔
          stripSegments (line + newlines seg.source) segs = .error n := by
        cases stripSegments (line + newlines seg.source) segs with
        | error m => exact Iff.rfl
        | ok more => exact ⟨nofun, nofun⟩
      simp only [hmap, ih]
      -- The segment is passed over, and its newlines count.
      have hseg (other : Text) : seg ≠ .openComment other := by
        rintro rfl
        cases hkept
      have hcount (before : List Segment) :
          newlines ((seg :: before).flatMap Segment.source) =
            newlines seg.source + newlines (before.flatMap Segment.source) := by
        rw [List.flatMap_cons, newlines, List.count_append]
        rfl
      constructor
      · rintro ⟨before, body, after, rfl, hbefore, rfl⟩
        refine ⟨seg :: before, body, after, rfl, fun other hother => ?_, ?_⟩
        · rcases List.mem_cons.1 hother with h | h
          · exact hseg other h.symm
          · exact hbefore other h
        · rw [hcount, Nat.add_assoc]
      · rintro ⟨before, body, after, h, hbefore, rfl⟩
        cases before with
        | nil => exact absurd (List.cons.inj h).1 (hseg body)
        | cons first before =>
          obtain ⟨rfl, rfl⟩ := List.cons.inj h
          refine ⟨before, body, after, rfl, fun other hother => ?_, ?_⟩
          · exact hbefore other (List.mem_cons_of_mem _ hother)
          · rw [hcount, Nat.add_assoc]

/-- A comment that is never closed opens on the given line of a text: it is the last segment, and
the line is found by counting the newlines before it. -/
def OpensCommentOn (source : Text) (line : Nat) : Prop :=
  ∃ before body, segments source = before ++ [.openComment body] ∧ ¬ blockClose <:+: body ∧
    line = 1 + newlines (before.flatMap Segment.source)

theorem keeps_strip {source out : Text} (h : strip source = .ok out) : Keeps out source := by
  have hkeeps := keeps_stripSegments (fun body => newline_notMem_of_mem_segmentsFrom) h
  rwa [source_segmentsFrom] at hkeeps

/-- Stripping fails exactly if a comment is never closed, with the line on which it opens. -/
theorem strip_eq_error_iff {source : Text} {line : Nat} :
    strip source = .error line ↔ OpensCommentOn source line := by
  rw [strip, stripSegments_eq_error_iff]
  constructor
  · rintro ⟨before, body, after, h, -, hline⟩
    obtain ⟨rfl, hbody⟩ := openComment_of_segmentsFrom h
    exact ⟨before, body, h, hbody, hline⟩
  · rintro ⟨before, body, h, -, hline⟩
    refine ⟨before, body, [], h, fun other hother => ?_, hline⟩
    -- Nothing follows a comment that is never closed, so there is none before the last segment.
    obtain ⟨front, back, rfl⟩ := List.append_of_mem hother
    rw [List.append_assoc, List.cons_append] at h
    exact absurd (openComment_of_segmentsFrom h).1 (by simp)

/-! ## Coalescing white space -/

/-- A gap is within a line. -/
theorem newline_notMem_of_stretch {before : Text} {b : UInt8} {text run : Text}
    (h : (stretch before b text).1 = .gap run) : Byte.newline ∉ run := by
  unfold stretch at h
  repeat' split at h
  all_goals cases h
  rename_i hb
  intro hmem
  rcases List.mem_cons.1 hmem with rfl | hmem
  · exact absurd hb (by decide)
  · exact absurd (List.all_eq_true.1 List.all_takeWhile _ hmem) (by decide)

theorem newline_notMem_of_mem_stretchesFrom {before text run : Text}
    (h : .gap run ∈ stretchesFrom before text) : Byte.newline ∉ run := by
  fun_induction stretchesFrom before text with
  | case1 => cases h
  | case2 before b text ih =>
    rcases List.mem_cons.1 h with h | h
    · exact newline_notMem_of_stretch h.symm
    · exact ih h

/-- Coalescing drops and adds white space within lines. -/
theorem keeps_coalesceStretches {stretches : List Stretch}
    (h : ∀ run, .gap run ∈ stretches → Byte.newline ∉ run) (atStart : Bool) :
    Keeps (coalesceStretches atStart stretches) (stretches.flatMap Stretch.source) := by
  induction stretches generalizing atStart with
  | nil => exact .nil
  | cons first rest ih =>
    have hrest := ih fun run hrun => h run (List.mem_cons_of_mem first hrun)
    rw [List.flatMap_cons]
    cases first with
    | literal lit => exact (hrest false).append_left lit
    | newline => exact .keep _ (hrest true)
    | gap run =>
      -- At the start of a line the gap is dropped, elsewhere one space stands for it.
      have hdrop := (hrest atStart).drop_append (h run List.mem_cons_self)
      rw [coalesceStretches]
      split
      · exact hdrop
      · exact .add (by decide) (by decide) hdrop
    | plain byte => exact .keep _ (hrest false)

theorem keeps_coalesce (text : Text) : Keeps (coalesce text) text := by
  have hkeeps : Keeps (coalesce text) ((stretches text).flatMap Stretch.source) :=
    keeps_coalesceStretches (fun run => newline_notMem_of_mem_stretchesFrom) true
  rwa [source_stretches] at hkeeps

/-! ## Normalizing -/

theorem newlines_unifyLineEnds (text : Text) :
    newlines (Text.unifyLineEnds text) = newlines text := by
  fun_induction Text.unifyLineEnds text with
  | case1 => rfl
  | case2 => rfl
  | case3 b c rest hend ih =>
    obtain ⟨rfl, rfl⟩ := hend
    rw [newlines, newlines, List.count_cons_self, List.count_cons_of_ne (by decide),
      List.count_cons_self, ← newlines, ih, newlines]
  | case4 b c rest hend ih =>
    rw [newlines, newlines, List.count_cons, List.count_cons, ← newlines, ih, newlines]

/-- A text is normalized with every line in its place, where `source` is the text with its continued
lines joined: there are as many lines as in the text, no line has anything new but white space, and
a comment that is never closed is reported with the line on which it opens. -/
structure KeepsPlaces (text source : Text) : Prop where
  /-- No line is lost or added. -/
  newlines_eq : ∀ out, normalize text = .ok out → newlines out = newlines text
  /-- Every line comes from the line of its number. -/
  linesFrom : ∀ out, normalize text = .ok out → LinesFrom out source
  /-- Failures name the line on which a comment opens. -/
  error_iff : ∀ line, normalize text = .error line ↔ OpensCommentOn source line

/-- Every line stays in its place in the text whose lines are joined by `splice`. -/
theorem keepsPlaces_splice (text : Text) : KeepsPlaces text (splice (Text.unifyLineEnds text)) := by
  have hkeeps {out : Text} (h : normalize text = .ok out) :
      ∃ stripped, Keeps stripped (splice (Text.unifyLineEnds text)) ∧ Keeps out stripped := by
    unfold normalize at h
    cases hstrip : strip (splice (Text.unifyLineEnds text)) with
    | error line => rw [hstrip] at h; cases h
    | ok stripped =>
      rw [hstrip] at h
      cases h
      exact ⟨stripped, keeps_strip hstrip, keeps_coalesce stripped⟩
  refine ⟨fun out h => ?_, fun out h => ?_, fun line => ?_⟩
  · obtain ⟨stripped, hstripped, hout⟩ := hkeeps h
    rw [hout.newlines_eq, hstripped.newlines_eq, ← newlines_unifyLineEnds text]
    exact count_newline_splice _
  · obtain ⟨stripped, hstripped, hout⟩ := hkeeps h
    exact hout.linesFrom.trans hstripped.linesFrom
  · rw [← strip_eq_error_iff, normalize]
    cases strip (splice (Text.unifyLineEnds text)) with
    | error n => exact Iff.rfl
    | ok stripped => exact ⟨nofun, nofun⟩

/-- A text with its line ends unified and its continued lines joined by runs. -/
def joined (text : Text) : Text :=
  Text.unlines (joinRuns (Text.lines (Text.unifyLineEnds text)))

/-- A comment opens on one line as `splice` joins the lines of a text, and not on that line where they
are joined by runs, only if a run before the last comes to a line that ends in a backslash. -/
theorem not_settled_of_opensCommentOn {text : Text} {line : Nat}
    (h : OpensCommentOn (splice (Text.unifyLineEnds text)) line)
    (hjoined : ¬ OpensCommentOn (joined text) line) :
    ¬ Settled (Text.lines (Text.unifyLineEnds text)) := by
  intro hsettled
  have hsame : splice (Text.unifyLineEnds text) = joined text :=
    (splice_eq_unlines_joinRuns_iff (Text.unifyLineEnds text)).2 hsettled
  rw [hsame] at h
  exact hjoined h

/-- Normalizing keeps every line in its place in the text as `splice` joins its lines. This is the
text with its lines joined by runs exactly if no run but the last one comes to a line that ends in a
backslash, and then every line stays in its place in that text. -/
theorem normalize_keeps_places (text : Text) :
    KeepsPlaces text (splice (Text.unifyLineEnds text)) ∧
    (splice (Text.unifyLineEnds text) = joined text ↔
      Settled (Text.lines (Text.unifyLineEnds text))) ∧
    (Settled (Text.lines (Text.unifyLineEnds text)) → KeepsPlaces text (joined text)) := by
  have hiff := splice_eq_unlines_joinRuns_iff (Text.unifyLineEnds text)
  refine ⟨keepsPlaces_splice text, hiff, fun hsettled => ?_⟩
  rw [joined, ← hiff.2 hsettled]
  exact keepsPlaces_splice text

/-- In a text whose first line ends in two backslashes, the second line is empty and the third has a
letter, the letter moves to the first line. -/
theorem not_keepsPlaces_joined :
    ¬ KeepsPlaces (ascii "a\\\\\n\nb") (joined (ascii "a\\\\\n\nb")) := by
  intro h
  have hout : (normalize (ascii "a\\\\\n\nb")).toOption = some (ascii "ab\n\n") := by decide +kernel
  cases hnormalize : normalize (ascii "a\\\\\n\nb") with
  | error line => rw [hnormalize] at hout; cases hout
  | ok out =>
    rw [hnormalize] at hout
    cases hout
    have hlines := h.linesFrom _ hnormalize
    have hout' : Text.lines (ascii "ab\n\n") = [ascii "ab", [], []] := by decide
    have hjoined : Text.lines (joined (ascii "a\\\\\n\nb")) = [ascii "a\\", [], ascii "b"] := by
      decide
    rw [LinesFrom, hout', hjoined] at hlines
    cases hlines with
    | cons hfirst _ => exact absurd hfirst (by decide)

end HeaderMacros.Source
