import HeaderMacros.Proofs.Source.RawString
import Mathlib.Control.Monad.Basic

/-!
# Texts put together at a line end

Three things go on past the end of a line: a raw string, a block comment, and a line that is
continued. So if the first of two texts has no raw string and leaves no comment open, the two are
normalized one by one wherever joining lines does not cross the seam between them.

- `segments_append_newline`, `stretches_append_newline`: the two scans of both texts are those of
  the first text and those of the second, because no piece of the first crosses the seam
  (`IsScan.scan_text_append`).
- `spliced_append_newline`: lines are joined one by one if joining leaves no line of the first text
  that is continued, and otherwise they are not (`exists_spliced_append_newline`).
- `composes_iff`: this is what decides whether the two are normalized one by one.
-/

namespace HeaderMacros.Source

/-! ## Joining lines -/

theorem lines_replicate_append (count : Nat) (text : Text) :
    Text.lines (List.replicate count Byte.newline ++ text) =
      List.replicate count [] ++ Text.lines text := by
  induction count with
  | zero => rfl
  | succ count ih =>
    rw [List.replicate_succ, List.replicate_succ, List.cons_append, List.cons_append, ← ih]
    exact lines_append_newline List.not_mem_nil _

/-- After a last line, the lines that were joined onto it are empty. -/
theorem lines_spliceFrom_last {line : Text} (h : Byte.newline ∉ line) (emptied : Nat) :
    Text.lines (spliceFrom emptied line) = line :: List.replicate emptied [] := by
  rw [spliceFrom_last h]
  cases emptied with
  | zero =>
    rw [List.replicate_zero, List.append_nil]
    exact Text.splitOn_of_notMem h
  | succ count =>
    have hempty := lines_replicate_append count []
    rw [List.append_nil] at hempty
    rw [List.replicate_succ, lines_append_newline h, hempty, List.replicate_succ']
    rfl

/-- After a line that is not continued, there are the empty lines and those of the rest. -/
theorem lines_spliceFrom_of_not_isContinued {line : Text} (h : Byte.newline ∉ line)
    (hcontinued : isContinued line = false) (emptied : Nat) (text : Text) :
    Text.lines (spliceFrom emptied (line ++ Byte.newline :: text)) =
      line :: (List.replicate emptied [] ++ Text.lines (spliceFrom 0 text)) := by
  rw [spliceFrom_of_not_isContinued h hcontinued, lines_append_newline h, lines_replicate_append]

/-- If joining leaves no line that is continued, the lines of what follows are joined by
themselves. -/
theorem spliceFrom_append_newline {emptied : Nat} {start : Text}
    (h : ∀ line ∈ Text.lines (spliceFrom emptied start), isContinued line = false) (text : Text) :
    spliceFrom emptied (start ++ Byte.newline :: text) =
      spliceFrom emptied start ++ Byte.newline :: spliceFrom 0 text := by
  induction start using line_induction generalizing emptied with
  | last line hline =>
    -- The empty lines that follow the last line stand before the seam.
    rw [lines_spliceFrom_last hline] at h
    have hempty : Byte.newline :: List.replicate emptied Byte.newline =
        List.replicate emptied Byte.newline ++ [Byte.newline] :=
      List.replicate_succ.symm.trans List.replicate_succ'
    rw [spliceFrom_of_not_isContinued hline (h line List.mem_cons_self), spliceFrom_last hline,
      ← List.cons_append, hempty]
    simp
  | continued line rest hline hjoin ih =>
    rw [spliceFrom_of_isContinued hline hjoin] at h ⊢
    rw [List.append_assoc, List.cons_append, spliceFrom_of_isContinued hline hjoin,
      ← List.append_assoc, ih h]
  | ended line rest hline hjoin ih =>
    rw [lines_spliceFrom_of_not_isContinued hline hjoin] at h
    have hrest := ih fun other hother =>
      h other (List.mem_cons_of_mem line (List.mem_append_right _ hother))
    rw [List.append_assoc, List.cons_append, spliceFrom_of_not_isContinued hline hjoin, hrest,
      spliceFrom_of_not_isContinued hline hjoin]
    simp

/-- If joining leaves a line that is continued, a line that follows is joined onto it, and an empty
line is left in its place. -/
theorem exists_spliceFrom_append_newline {emptied : Nat} {start : Text}
    (h : ∃ line ∈ Text.lines (spliceFrom emptied start), isContinued line = true) {text : Text}
    (htext : Byte.newline ∉ text) :
    ∃ joined, spliceFrom emptied (start ++ Byte.newline :: text) = joined ++ [Byte.newline] := by
  have hempty {count : Nat} {line : Text} (hline : line ∈ List.replicate count ([] : Text)) :
      isContinued line = false := by
    rw [List.eq_of_mem_replicate hline]
    rfl
  obtain ⟨found, hfound, hcontinued⟩ := h
  induction start using line_induction generalizing emptied with
  | last line hline =>
    rw [lines_spliceFrom_last hline] at hfound
    rcases List.mem_cons.1 hfound with rfl | hfound
    · -- The text is joined onto the last line, which leaves one more empty line after it.
      have hjoined : Byte.newline ∉ found.dropLast ++ text := by
        rw [List.mem_append, not_or]
        exact ⟨fun hmem => hline ((List.dropLast_sublist found).subset hmem), htext⟩
      refine ⟨found.dropLast ++ text ++ List.replicate emptied Byte.newline, ?_⟩
      rw [spliceFrom_of_isContinued hline hcontinued, spliceFrom_last hjoined,
        List.replicate_succ', ← List.append_assoc]
    · -- The lines after the last one are empty.
      rw [hempty hfound] at hcontinued
      cases hcontinued
  | continued line rest hline hjoin ih =>
    -- The next line is joined onto this one, with the text after it or without.
    rw [spliceFrom_of_isContinued hline hjoin] at hfound
    rw [List.append_assoc, List.cons_append, spliceFrom_of_isContinued hline hjoin,
      ← List.append_assoc]
    exact ih hfound
  | ended line rest hline hjoin ih =>
    rw [lines_spliceFrom_of_not_isContinued hline hjoin] at hfound
    rcases List.mem_cons.1 hfound with rfl | hfound
    · rw [hjoin] at hcontinued
      cases hcontinued
    rcases List.mem_append.1 hfound with hfound | hfound
    · rw [hempty hfound] at hcontinued
      cases hcontinued
    obtain ⟨joined, hjoined⟩ := ih hfound
    refine ⟨line ++ Byte.newline :: (List.replicate emptied Byte.newline ++ joined), ?_⟩
    rw [List.append_assoc, List.cons_append, spliceFrom_of_not_isContinued hline hjoin, hjoined]
    simp

/-! ## Pieces that end at a line end -/

/-- What has no newline ends before the next one. -/
theorem exists_eq_append_newline {piece after part rest : Text} (hpiece : Byte.newline ∉ piece)
    (h : piece ++ after = part ++ Byte.newline :: rest) :
    ∃ more, part = piece ++ more ∧ after = more ++ Byte.newline :: rest := by
  rcases List.append_eq_append_iff.1 h with ⟨more, hpart, hafter⟩ | ⟨more, rfl, hrest⟩
  · exact ⟨more, hpart, hafter⟩
  · cases more with
    | nil => exact ⟨[], by simp, hrest.symm⟩
    | cons b more =>
      obtain ⟨rfl, -⟩ := List.cons.inj hrest
      exact absurd (by simp) hpiece

/-- What opens a raw string. -/
def rawStringMark : Text := [0x52, Byte.doubleQuote]

theorem newline_notMem_of_closeQuote? {quote : UInt8} {text close after : Text}
    (h : closeQuote? quote text = some (close, after)) : Byte.newline ∉ close := by
  fun_induction closeQuote? quote text generalizing close with
  | case1 => cases h
  | case2 => cases h
  | case3 => cases h
  | case4 c more hc ih =>
    obtain ⟨⟨close', after'⟩, hclose, heq⟩ := Option.map_eq_some_iff.1 h
    cases heq
    rw [List.mem_cons, List.mem_cons, not_or, not_or]
    exact ⟨by decide, Ne.symm hc, ih hclose⟩
  | case5 => cases h
  | case6 text hb hb' =>
    cases h
    exact fun hmem => hb' (List.mem_singleton.1 hmem).symm
  | case7 b text hb hb' hquote ih =>
    obtain ⟨⟨close', after'⟩, hclose, heq⟩ := Option.map_eq_some_iff.1 h
    cases heq
    rw [List.mem_cons, not_or]
    exact ⟨Ne.symm hb', ih hclose⟩

/-- A literal is closed on its line, unless it is a raw string. -/
theorem newline_notMem_of_literal? {before text lit after : Text}
    (h : literal? before text = some (lit, after)) (hmark : ¬ rawStringMark <+: text) :
    Byte.newline ∉ lit := by
  rcases literal?_eq_some_iff.1 h with ⟨quote, rest, close, hquote, -, hclose, rfl⟩ |
    ⟨rest, close, -, rfl, -, -⟩
  · rw [List.mem_cons, not_or]
    refine ⟨?_, newline_notMem_of_closeQuote? hclose⟩
    rintro rfl
    exact absurd hquote (by decide)
  · exact absurd ⟨rest, rfl⟩ hmark

/-- A mark without newlines is found before the next newline or not at all. -/
theorem isPrefix_of_isPrefix_append_newline {mark part rest : Text} (hmark : Byte.newline ∉ mark)
    (h : mark <+: part ++ Byte.newline :: rest) : mark <+: part := by
  obtain ⟨after, hafter⟩ := h
  obtain ⟨more, hpart, -⟩ := exists_eq_append_newline hmark hafter
  exact ⟨more, hpart.symm⟩

theorem exists_rest_of_literal? {before part rest lit after : Text}
    (hmark : ¬ rawStringMark <+: part)
    (h : literal? before (part ++ Byte.newline :: rest) = some (lit, after)) :
    ∃ more, after = more ++ Byte.newline :: rest := by
  have hnewline := newline_notMem_of_literal? h fun hwhole =>
    hmark (isPrefix_of_isPrefix_append_newline (by decide) hwhole)
  obtain ⟨more, -, hmore⟩ := exists_eq_append_newline hnewline (literal?_eq_append h).1.symm
  exact ⟨more, hmore⟩

/-- A run of bytes other than newlines ends before the next one. -/
theorem exists_dropWhile_append_newline {p : UInt8 → Bool} (hp : p Byte.newline = false)
    (part rest : Text) :
    ∃ more, (part ++ Byte.newline :: rest).dropWhile p = more ++ Byte.newline :: rest := by
  have hrun : Byte.newline ∉ (part ++ Byte.newline :: rest).takeWhile p := by
    intro hmem
    have htrue := List.all_eq_true.1 List.all_takeWhile _ hmem
    rw [hp] at htrue
    cases htrue
  obtain ⟨more, -, hmore⟩ := exists_eq_append_newline hrun List.takeWhile_append_dropWhile
  exact ⟨more, hmore⟩

/-- Where no raw string opens and no comment is left open, a segment is the same with a newline and
more after the text. -/
theorem segment_append_newline {before : Text} {b : UInt8} {part : Text}
    (hmark : ¬ rawStringMark <+: b :: part)
    (hopen : ∀ body, (segment before b part).1 ≠ .openComment body) (rest : Text) :
    segment before b (part ++ Byte.newline :: rest) =
      ((segment before b part).1, (segment before b part).2 ++ Byte.newline :: rest) := by
  apply isScan_segmentsFrom.piece_append
  generalize hfound : segment before b (part ++ Byte.newline :: rest) = found
  unfold segment at hfound
  rw [← List.cons_append] at hfound
  split at hfound
  · rename_i lit after hlit
    subst hfound
    exact exists_rest_of_literal? hmark hlit
  rename_i hlit
  split at hfound
  · -- A block comment is closed before the newline, or it would be left open.
    rename_i body hbody
    obtain ⟨inner, hinner, rfl⟩ := exists_eq_append_newline (by decide)
      (Text.eq_append_of_dropPrefix? hbody).symm
    have hblock : Text.dropPrefix? blockOpen (b :: part) = some inner :=
      Text.dropPrefix?_eq_some_iff.2 hinner
    cases hcut : Text.cut? blockClose inner with
    | none =>
      refine absurd ?_ (hopen inner)
      unfold segment
      rw [literal?_eq_none_of_append hlit, hblock]
      dsimp only
      rw [hcut]
    | some parts =>
      obtain ⟨comment, after⟩ := parts
      have hlong : inner ++ Byte.newline :: rest =
          comment ++ (blockClose ++ (after ++ Byte.newline :: rest)) := by
        rw [Text.eq_append_of_cut? hcut, List.append_assoc, List.append_assoc]
      rw [hlong, Text.cut?_append hcut] at hfound
      subst hfound
      exact ⟨after, rfl⟩
  split at hfound
  · -- A line comment ends with its line.
    rename_i body hbody
    subst hfound
    obtain ⟨inner, -, rfl⟩ := exists_eq_append_newline (by decide)
      (Text.eq_append_of_dropPrefix? hbody).symm
    exact exists_dropWhile_append_newline (by decide) inner rest
  · subst hfound
    exact ⟨part, rfl⟩

/-- Where no raw string opens, a stretch is the same with a newline and more after the text. -/
theorem stretch_append_newline {before : Text} {b : UInt8} {part : Text}
    (hmark : ¬ rawStringMark <+: b :: part) (rest : Text) :
    stretch before b (part ++ Byte.newline :: rest) =
      ((stretch before b part).1, (stretch before b part).2 ++ Byte.newline :: rest) := by
  apply isScan_stretchesFrom.piece_append
  generalize hfound : stretch before b (part ++ Byte.newline :: rest) = found
  unfold stretch at hfound
  rw [← List.cons_append] at hfound
  split at hfound
  · rename_i lit after hlit
    subst hfound
    exact exists_rest_of_literal? hmark hlit
  split at hfound
  · subst hfound
    exact ⟨part, rfl⟩
  split at hfound
  · subst hfound
    exact exists_dropWhile_append_newline (by decide) part rest
  · subst hfound
    exact ⟨part, rfl⟩

/-! ## The two scans of both texts -/

/-- A text whose comments are all closed, and which has no raw string left without them; `before` is
the text before it in reverse. -/
def StripsPlain (before text : Text) : Prop :=
  ∃ line kept, stripSegments line (segmentsFrom before text) = .ok kept ∧ ¬ rawStringMark <:+: kept

/-- A segment that starts with no slash is kept as it is. -/
theorem kept?_segment {b : UInt8} (hb : b ≠ Byte.slash) (before text : Text) :
    (segment before b text).1.kept? = some (segment before b text).1.source := by
  have hblock : Text.dropPrefix? blockOpen (b :: text) = none := if_neg (Ne.symm hb)
  have hline : Text.dropPrefix? lineOpen (b :: text) = none := if_neg (Ne.symm hb)
  unfold segment
  split
  · rfl
  · rw [hblock, hline]
    rfl

/-- What a text starts with is kept, up to the first slash. -/
theorem isPrefix_of_stripSegments {start before text kept : Text} {line : Nat}
    (hstart : Byte.slash ∉ start) (htext : start <+: text)
    (h : stripSegments line (segmentsFrom before text) = .ok kept) : start <+: kept := by
  fun_induction segmentsFrom before text generalizing start line kept with
  | case1 =>
    rw [List.prefix_nil.1 htext]
    exact List.nil_prefix
  | case2 before b text ih =>
    rcases start with _ | ⟨c, start⟩
    · exact List.nil_prefix
    obtain ⟨first, more, hfirst, hmore, rfl⟩ := stripSegments_cons_eq_ok h
    obtain ⟨rfl, -⟩ := List.cons_prefix_cons.1 htext
    rw [kept?_segment fun heq => hstart (heq ▸ List.mem_cons_self)] at hfirst
    obtain rfl := Option.some.inj hfirst
    -- The start ends within the first segment, or goes on after it.
    rw [source_segment before c text] at htext
    rcases List.prefix_or_prefix_of_prefix htext (List.prefix_append _ _) with hwithin | hbeyond
    · exact hwithin.trans (List.prefix_append _ more)
    · obtain ⟨tail, htail⟩ := hbeyond
      rw [← htail] at htext hstart ⊢
      rw [List.mem_append, not_or] at hstart
      rw [List.prefix_append_right_inj] at htext ⊢
      exact ih hstart.2 htext hmore

namespace StripsPlain

variable {before : Text} {b : UInt8} {part : Text}

theorem not_isPrefix {text : Text} (h : StripsPlain before text) : ¬ rawStringMark <+: text := by
  obtain ⟨line, kept, hkept, hmark⟩ := h
  -- The mark has no slash, so it would be kept.
  exact fun htext => hmark (isPrefix_of_stripSegments (by decide) htext hkept).isInfix

theorem segment_ne_openComment (h : StripsPlain before (b :: part)) (body : Text) :
    (segment before b part).1 ≠ .openComment body := by
  obtain ⟨line, kept, hkept, -⟩ := h
  rw [segmentsFrom] at hkept
  obtain ⟨first, more, hfirst, -⟩ := stripSegments_cons_eq_ok hkept
  intro hopen
  rw [hopen] at hfirst
  cases hfirst

theorem rest (h : StripsPlain before (b :: part)) :
    StripsPlain ((segment before b part).1.source.reverse ++ before) (segment before b part).2 := by
  obtain ⟨line, kept, hkept, hmark⟩ := h
  rw [segmentsFrom] at hkept
  obtain ⟨first, more, -, hmore, rfl⟩ := stripSegments_cons_eq_ok hkept
  exact ⟨_, more, hmore, fun hwithin => hmark (hwithin.trans (List.suffix_append first more).isInfix)⟩

end StripsPlain

/-- The comments of two texts are found one by one. -/
theorem segments_append_newline {text : Text} (h : StripsPlain [] text) (rest : Text) :
    segments (text ++ Byte.newline :: rest) =
      segments text ++ .plain Byte.newline :: segments rest := by
  -- What stands before the newline does not tell where a raw string can start after it.
  have hnewline : segmentsFrom (text.reverse ++ []) (Byte.newline :: rest) =
      .plain Byte.newline :: segments rest := by
    rw [segmentsFrom, segments, ← isScan_segmentsFrom.scan_after (b := Byte.newline) (by decide)
      (text.reverse ++ []) rest]
    rfl
  rw [segments, isScan_segmentsFrom.scan_text_append
    (fun hplain => segment_append_newline hplain.not_isPrefix hplain.segment_ne_openComment rest)
    StripsPlain.rest h, hnewline]
  rfl

/-- The white space of two texts is found one by one. -/
theorem stretches_append_newline {text : Text} (h : ¬ rawStringMark <:+: text) (rest : Text) :
    stretches (text ++ Byte.newline :: rest) = stretches text ++ .newline :: stretches rest := by
  have hnewline : stretchesFrom (text.reverse ++ []) (Byte.newline :: rest) =
      .newline :: stretches rest := by
    rw [stretchesFrom, stretches, ← isScan_stretchesFrom.scan_after (b := Byte.newline) (by decide)
      (text.reverse ++ []) rest]
    rfl
  have hscan : stretchesFrom [] (text ++ Byte.newline :: rest) =
      stretchesFrom [] text ++ stretchesFrom (text.reverse ++ []) (Byte.newline :: rest) := by
    refine isScan_stretchesFrom.scan_text_append (P := fun _ text => ¬ rawStringMark <:+: text)
      (fun hplain => stretch_append_newline (fun hstart => hplain hstart.isInfix) rest)
      (fun {before b part} hplain hwithin => ?_) h
    rw [source_stretch before b part] at hplain
    exact hplain (hwithin.trans (List.suffix_append _ _).isInfix)
  rw [stretches, hscan, hnewline]
  rfl

/-! ## Normalizing both texts -/

/-- Lines are counted from the one with the given number. -/
theorem stripSegments_add (line count : Nat) (segs : List Segment) :
    stripSegments (line + count) segs = (stripSegments line segs).mapError (· + count) := by
  induction segs generalizing line with
  | nil => rfl
  | cons seg segs ih =>
    rw [stripSegments, stripSegments]
    cases seg.kept? with
    | none => rfl
    | some kept =>
      dsimp only
      rw [Nat.add_right_comm, ih]
      cases stripSegments (line + newlines seg.source) segs <;> rfl

/-- The comments of two texts are removed one by one. -/
theorem strip_append_newline {text kept : Text} (h : strip text = .ok kept)
    (hmark : ¬ rawStringMark <:+: kept) (rest : Text) :
    strip (text ++ Byte.newline :: rest) =
      ((strip rest).mapError (· + (newlines text + 1))).map (kept ++ Byte.newline :: ·) := by
  rw [strip, segments_append_newline ⟨1, kept, h, hmark⟩, stripSegments_append, source_segments]
  show ((strip text).bind _) = _
  rw [h]
  -- The lines of the second text are counted from the one after the seam.
  show ((stripSegments (1 + newlines text + 1) (segments rest)).map _).map (kept ++ ·) = _
  rw [Nat.add_assoc, stripSegments_add, ← strip]
  cases strip rest <;> rfl

/-- The white space of two texts is coalesced one by one. -/
theorem coalesce_append_newline {text : Text} (h : ¬ rawStringMark <:+: text) (rest : Text) :
    coalesce (text ++ Byte.newline :: rest) = coalesce text ++ Byte.newline :: coalesce rest := by
  obtain ⟨atStart, hcoalesce⟩ := exists_coalesceStretches_append true (stretches text)
  rw [coalesce, stretches_append_newline h, hcoalesce]
  rfl

/-- A text is normalized by itself with a newline and any other text after it: what comes of the
other text follows `out`, and the lines of its errors are counted on. -/
structure Composes (start out : Text) : Prop where
  /-- The normalized texts are put together like the texts. -/
  ok : ∀ text rest, normalize text = .ok rest →
    normalize (start ++ Byte.newline :: text) = .ok (out ++ Byte.newline :: rest)
  /-- A comment that the other text leaves open is on a later line. -/
  error : ∀ text line, normalize text = .error line →
    normalize (start ++ Byte.newline :: text) = .error (line + 1 + newlines start)

theorem newlines_spliced (text : Text) : newlines (spliced text) = newlines text := by
  rw [← newlines_unifyLineEnds text]
  exact count_newline_splice _

theorem unifyLineEnds_append_newline {start : Text}
    (hlast : start.getLast? ≠ some Byte.carriageReturn) (text : Text) :
    Text.unifyLineEnds (start ++ Byte.newline :: text) =
      Text.unifyLineEnds start ++ Byte.newline :: Text.unifyLineEnds text := by
  have hnewline : Text.unifyLineEnds ([Byte.newline] ++ text) =
      [Byte.newline] ++ Text.unifyLineEnds text :=
    unifyLineEnds_append (.inl (by decide))
  rw [unifyLineEnds_append (.inl hlast)]
  exact congrArg _ hnewline

section

variable {start : Text} (hlast : start.getLast? ≠ some Byte.carriageReturn)

include hlast

/-- The lines of two texts are joined one by one if joining leaves none of the first that is
continued. -/
theorem spliced_append_newline
    (h : ∀ line ∈ Text.lines (spliced start), isContinued line = false) (text : Text) :
    spliced (start ++ Byte.newline :: text) = spliced start ++ Byte.newline :: spliced text := by
  simp only [spliced, splice_eq_spliceFrom] at h ⊢
  rw [unifyLineEnds_append_newline hlast, spliceFrom_append_newline h]

/-- Otherwise a line that follows is joined onto the first text, and an empty line is left of
it. -/
theorem exists_spliced_append_newline
    (h : ∃ line ∈ Text.lines (spliced start), isContinued line = true) {text : Text}
    (htext : Byte.newline ∉ text) :
    ∃ joined, spliced (start ++ Byte.newline :: text) = joined ++ [Byte.newline] := by
  simp only [spliced, splice_eq_spliceFrom] at h ⊢
  rw [unifyLineEnds_append_newline hlast, unifyLineEnds_of_notMem htext]
  exact exists_spliceFrom_append_newline h htext

variable {out : Text} (hout : normalize start = .ok out)
  (hmark : ∀ kept, strip (spliced start) = .ok kept → ¬ rawStringMark <:+: kept)

include hout hmark

theorem normalize_append_newline
    (h : ∀ line ∈ Text.lines (spliced start), isContinued line = false) (text : Text) :
    normalize (start ++ Byte.newline :: text) =
      ((normalize text).mapError (· + (newlines start + 1))).map (out ++ Byte.newline :: ·) := by
  rw [normalize, ← spliced] at hout
  rw [normalize, normalize, ← spliced, ← spliced, spliced_append_newline hlast h]
  cases hkept : strip (spliced start) with
  | error line =>
    rw [hkept] at hout
    cases hout
  | ok kept =>
    rw [hkept] at hout
    cases hout
    rw [strip_append_newline hkept (hmark kept hkept), newlines_spliced]
    cases strip (spliced text) with
    | error line => rfl
    | ok rest => exact congrArg Except.ok (coalesce_append_newline (hmark kept hkept) rest)

end

/-- Line for line includes the last line. -/
theorem LinesFrom.last {out source line line' : Text} (hline : Byte.newline ∉ line)
    (hline' : Byte.newline ∉ line')
    (h : LinesFrom (out ++ Byte.newline :: line) (source ++ Byte.newline :: line')) :
    LineFrom line line' := by
  have hlines {before last : Text} (hlast : Byte.newline ∉ last) :
      Text.lines (before ++ Byte.newline :: last) = Text.lines before ++ [last] := by
    rw [Text.lines, Text.splitOn_append_sep, Text.splitOn_of_notMem hlast]
    rfl
  rw [LinesFrom, hlines hline, hlines hline', ← List.forall₂_reverse_iff, List.reverse_concat,
    List.reverse_concat] at h
  cases h with
  | cons hlast _ => exact hlast

/-- A text that does not end in a carriage return, leaves no comment open and has no raw string once
its comments are removed is normalized by itself, whatever the lines after it are, exactly if
joining leaves no line of it that is continued. -/
theorem composes_iff {start out : Text} (hlast : start.getLast? ≠ some Byte.carriageReturn)
    (hout : normalize start = .ok out)
    (hmark : ∀ kept, strip (spliced start) = .ok kept → ¬ rawStringMark <:+: kept) :
    Composes start out ↔ ∀ line ∈ Text.lines (spliced start), isContinued line = false := by
  constructor
  · intro hcomposes line hline
    refine Bool.eq_false_iff.2 fun hcontinued => ?_
    -- A letter on the next line would come to stand on an earlier one.
    have hletter : normalize (ascii "b") = .ok (ascii "b") := by decide +kernel
    have hnewline : Byte.newline ∉ ascii "b" := by decide
    obtain ⟨joined, hjoined⟩ :=
      exists_spliced_append_newline hlast ⟨line, hline, hcontinued⟩ hnewline
    have hlines := (keepsPlaces_splice _).linesFrom _ (hcomposes.ok _ _ hletter)
    rw [← spliced, hjoined] at hlines
    exact absurd (hlines.last hnewline List.not_mem_nil) (by decide)
  · intro hsettled
    have happend := normalize_append_newline hlast hout hmark hsettled
    refine ⟨fun text rest hrest => ?_, fun text line hline => ?_⟩
    · rw [happend, hrest]
      rfl
    · rw [happend, hline, Nat.add_assoc, Nat.add_comm 1]
      rfl

/-- A text with an unbalanced quote, a block comment over two lines, a continued line and a line
comment. -/
def unevenText : Text := ascii "it's /* \n */ a \\\n b // c"

/-- What it is normalized to. -/
def unevenTextNormalized : Text := ascii "it's \na b \n"

/-- Nothing of this goes on to a text after it. -/
theorem composes_iff_unevenText :
    normalize unevenText = .ok unevenTextNormalized ∧
    Composes unevenText unevenTextNormalized := by
  have hout : normalize unevenText = .ok unevenTextNormalized := by decide +kernel
  have hstrip : strip (spliced unevenText) = .ok (ascii "it's \n a  b \n") := by decide +kernel
  have hmark : ∀ kept, strip (spliced unevenText) = .ok kept → ¬ rawStringMark <:+: kept := by
    intro kept hkept
    rw [hstrip] at hkept
    cases hkept
    decide +kernel
  exact ⟨hout, (composes_iff (by decide) hout hmark).2 (by decide +kernel)⟩

/-- In a text whose first line ends in two backslashes and whose second line is empty, joining
leaves a line that is continued, though the text does not end in a backslash. A letter on the next
line comes to stand on the first one. -/
theorem not_composes_doubleBackslash :
    (ascii "a\\\\\n").getLast? ≠ some Byte.backslash ∧
    (ascii "a\\\\\n").getLast? ≠ some Byte.carriageReturn ∧
    normalize (ascii "a\\\\\n") = .ok (ascii "a\\\n") ∧
    (∀ kept, strip (spliced (ascii "a\\\\\n")) = .ok kept → ¬ rawStringMark <:+: kept) ∧
    ¬ Composes (ascii "a\\\\\n") (ascii "a\\\n") := by
  have hstrip : strip (spliced (ascii "a\\\\\n")) = .ok (ascii "a\\\n") := by decide +kernel
  refine ⟨by decide, by decide, by decide +kernel, fun kept hkept => ?_, fun h => ?_⟩
  · rw [hstrip] at hkept
    cases hkept
    decide +kernel
  · have hletter : normalize (ascii "b") = .ok (ascii "b") := by decide +kernel
    have hjoined : normalize (ascii "a\\\\\n" ++ Byte.newline :: ascii "b") =
        .ok (ascii "ab\n\n") := by
      decide +kernel
    have hboth := h.ok _ _ hletter
    rw [hjoined] at hboth
    exact absurd hboth (by decide)

end HeaderMacros.Source
