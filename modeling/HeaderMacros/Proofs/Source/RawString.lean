import HeaderMacros.Proofs.Source.Continuation
import HeaderMacros.Proofs.Source.Placement
import HeaderMacros.Proofs.Source.Scanning

/-!
# Raw strings in a document

A raw string may have newlines in its body. Where both scans of a text recognize it, comments are
removed and white space is coalesced around it as if its body were any other one: the normalized
text is the one that comes of the text before it, the raw string, and one that comes of the text
after it (`normalize_of_standsAfter`).

The comments are scanned in the text with its continued lines joined, and the white space in the
text without its comments. That the first scan recognizes a raw string does not mean that the second
one does, since a raw string earlier in the text may open only after a comment was removed.
-/

namespace HeaderMacros.Source

theorem newlines_append (text text' : Text) :
    newlines (text ++ text') = newlines text + newlines text' := List.count_append

/-! ## Line ends -/

/-- Line ends are unified within parts of a text, unless one is cut in two. -/
theorem unifyLineEnds_append {start text : Text}
    (h : start.getLast? ≠ some Byte.carriageReturn ∨ text.head? ≠ some Byte.newline) :
    Text.unifyLineEnds (start ++ text) = Text.unifyLineEnds start ++ Text.unifyLineEnds text := by
  fun_induction Text.unifyLineEnds start with
  | case1 => rfl
  | case2 b =>
    cases text with
    | nil => rfl
    | cons c text =>
      have hcut : ¬ (b = Byte.carriageReturn ∧ c = Byte.newline) := by
        rintro ⟨rfl, rfl⟩
        rcases h with h | h <;> exact h rfl
      rw [List.singleton_append, Text.unifyLineEnds, if_neg hcut]
      rfl
  | case3 b c rest hend ih =>
    have hrest : rest.getLast? ≠ some Byte.carriageReturn ∨ text.head? ≠ some Byte.newline := by
      refine h.imp_left fun hlast hrest => hlast ?_
      rw [List.getLast?_cons_cons, List.getLast?_cons, hrest]
      rfl
    rw [List.cons_append, List.cons_append, Text.unifyLineEnds, if_pos hend, ih hrest]
    rfl
  | case4 b c rest hend ih =>
    rw [List.getLast?_cons_cons] at h
    rw [List.cons_append, List.cons_append, Text.unifyLineEnds, if_neg hend, ← List.cons_append,
      ih h]
    rfl

/-- There is no line end to be unified within a line. -/
theorem unifyLineEnds_of_notMem {text : Text} (h : Byte.newline ∉ text) :
    Text.unifyLineEnds text = text := by
  fun_induction Text.unifyLineEnds text with
  | case1 => rfl
  | case2 => rfl
  | case3 b c rest hend => exact absurd (by simp [hend.2]) h
  | case4 b c rest hend ih => rw [ih fun hmem => h (List.mem_cons_of_mem b hmem)]

/-! ## Raw strings -/

/-- What opens the body of a raw string. -/
def rawStringStart (delimiter : Text) : Text :=
  0x52 :: Byte.doubleQuote :: delimiter ++ [Byte.openParen]

/-- The raw string with a delimiter and a body. -/
def rawString (delimiter body : Text) : Text :=
  rawStringStart delimiter ++ (body ++ rawStringEnd delimiter)

/-- A raw string starts with an `R` and ends in a quote. -/
theorem exists_rawString_eq (delimiter body : Text) :
    ∃ middle, rawString delimiter body = 0x52 :: middle ++ [Byte.doubleQuote] :=
  ⟨Byte.doubleQuote :: delimiter ++ Byte.openParen :: (body ++ Byte.closeParen :: delimiter), by
    simp [rawString, rawStringStart, rawStringEnd]⟩

/-- A text that is recognized as a raw string has a delimiter that can be one. -/
theorem isDelimiter_of_literal? {before text delimiter body after : Text}
    (hdelimiter : Byte.openParen ∉ delimiter)
    (h : literal? before text = some (rawString delimiter body, after)) :
    IsDelimiter delimiter := by
  rcases literal?_eq_some_iff.1 h with ⟨quote, rest, close, hquote, -, -, hlit⟩ |
    ⟨rest, close, -, -, hclose, hlit⟩
  · -- An `R` is no quote.
    obtain ⟨rfl, -⟩ := List.cons.inj hlit
    exact absurd hquote (by decide)
  · obtain ⟨found, bodyOn, body', -, hfound, -, rfl⟩ := closeRawString?_eq_some_iff.1 hclose
    have hsame : delimiter ++ Byte.openParen :: (body ++ rawStringEnd delimiter) =
        found ++ Byte.openParen :: (body' ++ rawStringEnd found) := by
      simpa [rawString, rawStringStart] using hlit
    rw [(Text.eq_of_append_sep hdelimiter hfound.1 hsame).1]
    exact hfound

namespace IsDelimiter

variable {delimiter : Text}

theorem newline_notMem (h : IsDelimiter delimiter) : Byte.newline ∉ delimiter := by
  intro hmem
  exact h.2 (.inr (List.any_eq_true.2 ⟨Byte.newline, hmem, by decide⟩))

theorem newline_notMem_rawStringStart (h : IsDelimiter delimiter) :
    Byte.newline ∉ rawStringStart delimiter := by
  simp only [rawStringStart, List.mem_append, List.mem_cons, h.newline_notMem]
  decide

theorem newline_notMem_rawStringEnd (h : IsDelimiter delimiter) :
    Byte.newline ∉ rawStringEnd delimiter := by
  simp only [rawStringEnd, List.mem_append, List.mem_cons, h.newline_notMem]
  decide

/-- The newlines of a raw string are in its body. -/
theorem newlines_rawString (h : IsDelimiter delimiter) (body : Text) :
    newlines (rawString delimiter body) = newlines body := by
  have hstart : newlines (rawStringStart delimiter) = 0 :=
    List.count_eq_zero.2 h.newline_notMem_rawStringStart
  have hend : newlines (rawStringEnd delimiter) = 0 :=
    List.count_eq_zero.2 h.newline_notMem_rawStringEnd
  rw [rawString, newlines_append, newlines_append, hstart, hend, Nat.zero_add, Nat.add_zero]

end IsDelimiter

/-- Literals among the segments of a text are recognized. -/
theorem exists_literal?_of_mem_segmentsFrom {before text lit : Text}
    (h : .literal lit ∈ segmentsFrom before text) :
    ∃ before' text' after, literal? before' text' = some (lit, after) := by
  fun_induction segmentsFrom before text with
  | case1 => cases h
  | case2 before b text ih =>
    rcases List.mem_cons.1 h with h | h
    · unfold segment at h
      split at h
      · rename_i after hlit
        cases h
        exact ⟨before, b :: text, after, hlit⟩
      · repeat' split at h
        all_goals cases h
    · exact ih h

/-! ## Documents -/

/-- A text with its line ends unified and its continued lines joined. -/
def spliced (text : Text) : Text := splice (Text.unifyLineEnds text)

/-- A document with a raw string after `start` and before `after`. -/
def document (start delimiter body after : Text) : Text :=
  start ++ (rawString delimiter body ++ after)

theorem IsDelimiter.unifyLineEnds_document {delimiter : Text} (h : IsDelimiter delimiter)
    (start body after : Text) :
    Text.unifyLineEnds (document start delimiter body after) =
      document (Text.unifyLineEnds start) delimiter (Text.unifyLineEnds body)
        (Text.unifyLineEnds after) := by
  have hopen : (rawStringStart delimiter).getLast? ≠ some Byte.carriageReturn := by
    rw [rawStringStart, List.getLast?_concat]
    decide
  have hclose : (rawStringEnd delimiter).getLast? ≠ some Byte.carriageReturn := by
    rw [rawStringEnd, List.getLast?_concat]
    decide
  have hstartHead (text : Text) : (rawStringStart delimiter ++ text).head? ≠ some Byte.newline :=
    fun h => absurd (Option.some.inj h) (by decide)
  have hendHead (text : Text) : (rawStringEnd delimiter ++ text).head? ≠ some Byte.newline :=
    fun h => absurd (Option.some.inj h) (by decide)
  -- Every part starts with a byte that is no newline, or follows one that is no carriage return.
  rw [document, document, rawString, rawString, List.append_assoc, List.append_assoc,
    List.append_assoc, List.append_assoc, unifyLineEnds_append (.inr (hstartHead _)),
    unifyLineEnds_append (.inl hopen), unifyLineEnds_of_notMem h.newline_notMem_rawStringStart,
    unifyLineEnds_append (.inr (hendHead _)), unifyLineEnds_append (.inl hclose),
    unifyLineEnds_of_notMem h.newline_notMem_rawStringEnd]

/-- The scan for comments recognizes a raw string right after `start` in a document, where `before`
is what joining lines makes of `start` up to there. -/
structure ScannedAfter (start delimiter body after before : Text) : Prop where
  /-- The delimiter ends at the first parenthesis. -/
  openParen_notMem : Byte.openParen ∉ delimiter
  /-- Joining lines makes `before` of `start`, but for the lines that are left empty at its end. -/
  spliced_start : ∃ emptied, spliced start = before ++ List.replicate emptied Byte.newline
  /-- The raw string is recognized after `before`. -/
  comments : ∃ front rest, segments (spliced (document start delimiter body after)) =
      front ++ .literal (rawString delimiter (Text.unifyLineEnds body)) :: rest ∧
    front.flatMap Segment.source = before

/-- Both scans of a document recognize a raw string right after `start`. -/
structure StandsAfter (start delimiter body after before : Text) : Prop
    extends ScannedAfter start delimiter body after before where
  /-- The scan for white space recognizes the raw string after what is left of `before`. -/
  spaces : ∀ kept stripped, strip before = .ok kept →
    strip (spliced (document start delimiter body after)) = .ok stripped →
    ∃ front rest, stretches stripped =
        front ++ .literal (rawString delimiter (Text.unifyLineEnds body)) :: rest ∧
      front.flatMap Stretch.source = kept

namespace ScannedAfter

variable {start delimiter body after before : Text}

theorem isDelimiter (h : ScannedAfter start delimiter body after before) :
    IsDelimiter delimiter := by
  obtain ⟨front, rest, hsegments, -⟩ := h.comments
  obtain ⟨before', text', after', hlit⟩ := exists_literal?_of_mem_segmentsFrom
    (hsegments ▸ List.mem_append_right front List.mem_cons_self)
  exact isDelimiter_of_literal? h.openParen_notMem hlit

theorem newlines_rawString (h : ScannedAfter start delimiter body after before) :
    newlines (rawString delimiter (Text.unifyLineEnds body)) = newlines body := by
  rw [h.isDelimiter.newlines_rawString, newlines_unifyLineEnds]

/-- The joined text before and after the raw string does not depend on its body, but for whether
there is a newline in it. -/
theorem exists_spliced (start delimiter after : Text) : ∃ lead emptied, ∀ {body before : Text},
    ScannedAfter start delimiter body after before →
    before = lead ∧ spliced (document start delimiter body after) =
      document lead delimiter (Text.unifyLineEnds body)
        (spliceFrom (if newlines body = 0 then emptied else 0) (Text.unifyLineEnds after)) := by
  obtain ⟨lead, emptied, haround⟩ := splice_around (Text.unifyLineEnds start)
  refine ⟨lead, emptied, ?_⟩
  intro body before h
  obtain ⟨count, hstart⟩ := h.spliced_start
  obtain ⟨front, rest, hsegments, hfront⟩ := h.comments
  obtain ⟨middle, hmiddle⟩ := exists_rawString_eq delimiter (Text.unifyLineEnds body)
  have hdocument : spliced (document start delimiter body after) =
      document before delimiter (Text.unifyLineEnds body) (rest.flatMap Segment.source) := by
    rw [← source_segments (spliced _), hsegments, List.flatMap_append, List.flatMap_cons, hfront]
    rfl
  have hnewline : Byte.newline ∈ middle ↔ ¬ newlines body = 0 := by
    have hcount := h.newlines_rawString
    rw [hmiddle, newlines, List.cons_append,
      List.count_cons_of_ne (by decide), List.count_append, List.count_cons_of_ne (by decide),
      List.count_nil, Nat.add_zero] at hcount
    rw [← hcount, List.count_eq_zero, not_not]
  have hsplice : splice (Text.unifyLineEnds start ++ 0x52 :: middle ++
      Byte.doubleQuote :: Text.unifyLineEnds after) =
      before ++ 0x52 :: middle ++ Byte.doubleQuote :: rest.flatMap Segment.source := by
    rw [spliced, h.isDelimiter.unifyLineEnds_document, document, document, hmiddle] at hdocument
    simpa using hdocument
  obtain ⟨rfl, hrest⟩ := haround (by decide) (by decide) (by decide) (by decide) hstart hsplice
  refine ⟨rfl, ?_⟩
  rw [hdocument, hrest]
  simp only [hnewline, ite_not]

end ScannedAfter

/-! ## Around a raw string -/

theorem stripSegments_append (line : Nat) (front rest : List Segment) :
    stripSegments line (front ++ rest) = (stripSegments line front).bind fun kept =>
      (stripSegments (line + newlines (front.flatMap Segment.source)) rest).map (kept ++ ·) := by
  induction front generalizing line with
  | nil =>
    show _ = (stripSegments line rest).map ([] ++ ·)
    simp only [List.nil_append]
    cases stripSegments line rest <;> rfl
  | cons first front ih =>
    rw [List.cons_append, stripSegments, stripSegments]
    cases first.kept? with
    | none => rfl
    | some kept =>
      dsimp only
      rw [ih, List.flatMap_cons, newlines_append, ← Nat.add_assoc]
      cases stripSegments (line + newlines first.source) front with
      | error n => rfl
      | ok more =>
        show ((stripSegments _ rest).map (more ++ ·)).map (kept ++ ·) =
          (stripSegments _ rest).map (kept ++ more ++ ·)
        simp only [List.append_assoc]
        cases stripSegments (line + newlines first.source + newlines (front.flatMap Segment.source))
          rest <;> rfl

/-- Stretches are coalesced one after the other, and all that those before a place tell about the
rest is whether a line starts there. -/
theorem exists_coalesceStretches_append (atStart : Bool) (front : List Stretch) :
    ∃ atStart', ∀ rest, coalesceStretches atStart (front ++ rest) =
      coalesceStretches atStart front ++ coalesceStretches atStart' rest := by
  induction front generalizing atStart with
  | nil => exact ⟨atStart, fun rest => rfl⟩
  | cons first front ih =>
    cases first with
    | literal text =>
      obtain ⟨atStart', hrest⟩ := ih false
      refine ⟨atStart', fun rest => ?_⟩
      rw [List.cons_append, coalesceStretches, coalesceStretches, hrest, List.append_assoc]
    | newline =>
      obtain ⟨atStart', hrest⟩ := ih true
      exact ⟨atStart', fun rest => congrArg (Byte.newline :: ·) (hrest rest)⟩
    | gap run =>
      obtain ⟨atStart', hrest⟩ := ih atStart
      refine ⟨atStart', fun rest => ?_⟩
      rw [List.cons_append, coalesceStretches, coalesceStretches, hrest]
      split
      · rfl
      · rfl
    | plain byte =>
      obtain ⟨atStart', hrest⟩ := ih false
      exact ⟨atStart', fun rest => congrArg (byte :: ·) (hrest rest)⟩

/-- What comes of a text after a raw string, if its first line has the given number. -/
def normalizeAfter (line : Nat) (text : Text) : Except Nat Text :=
  (stripSegments line (segmentsFrom [Byte.doubleQuote] text)).map fun stripped =>
    coalesceStretches false (stretchesFrom [Byte.doubleQuote] stripped)

section

variable {start delimiter body after before rest : Text}

/-- Comments are removed around a raw string as around any other. -/
theorem strip_of_scannedAfter (h : ScannedAfter start delimiter body after before)
    (hspliced : spliced (document start delimiter body after) =
      document before delimiter (Text.unifyLineEnds body) rest) :
    strip (spliced (document start delimiter body after)) = (strip before).bind fun kept =>
      (stripSegments (1 + newlines before + newlines body)
        (segmentsFrom [Byte.doubleQuote] rest)).map
        (document kept delimiter (Text.unifyLineEnds body) ·) := by
  obtain ⟨front, found, hsegments, hfront⟩ := h.comments
  obtain ⟨middle, hmiddle⟩ := exists_rawString_eq delimiter (Text.unifyLineEnds body)
  have hscan : segmentsFrom []
      (before ++ ((Segment.literal (rawString delimiter (Text.unifyLineEnds body))).source ++
        rest)) =
      front ++ .literal (rawString delimiter (Text.unifyLineEnds body)) :: found := by
    rw [← hsegments, hspliced]
    rfl
  obtain ⟨hbefore, hrest⟩ := isScan_segmentsFrom.around hscan hfront hmiddle
  rw [strip, hsegments, stripSegments_append, hfront, hrest, hbefore]
  show (strip before).bind _ = _
  congr 1
  funext kept
  show ((stripSegments (1 + newlines before +
    newlines (rawString delimiter (Text.unifyLineEnds body))) _).map _).map (kept ++ ·) = _
  rw [h.newlines_rawString]
  cases stripSegments (1 + newlines before + newlines body)
    (segmentsFrom [Byte.doubleQuote] rest) <;> rfl

/-- White space is coalesced around a raw string as around any other. -/
theorem coalesce_of_standsAfter (h : StandsAfter start delimiter body after before)
    {kept stripped : Text} (hkept : strip before = .ok kept)
    (hstripped : strip (spliced (document start delimiter body after)) =
      .ok (document kept delimiter (Text.unifyLineEnds body) stripped)) :
    coalesce (document kept delimiter (Text.unifyLineEnds body) stripped) =
      document (coalesce kept) delimiter (Text.unifyLineEnds body)
        (coalesceStretches false (stretchesFrom [Byte.doubleQuote] stripped)) := by
  obtain ⟨front, found, hstretches, hfront⟩ := h.spaces _ _ hkept hstripped
  obtain ⟨middle, hmiddle⟩ := exists_rawString_eq delimiter (Text.unifyLineEnds body)
  have hscan : stretchesFrom []
      (kept ++ ((Stretch.literal (rawString delimiter (Text.unifyLineEnds body))).source ++
        stripped)) =
      front ++ .literal (rawString delimiter (Text.unifyLineEnds body)) :: found := hstretches
  obtain ⟨hbefore, hrest⟩ := isScan_stretchesFrom.around hscan hfront hmiddle
  obtain ⟨atStart, hcoalesce⟩ := exists_coalesceStretches_append true front
  rw [coalesce, hstretches, hcoalesce, hbefore, hrest]
  rfl

/-- What a document with a raw string is normalized to: its body stands between two texts that do
not depend on it. -/
theorem normalize_of_standsAfter (h : StandsAfter start delimiter body after before)
    (hspliced : spliced (document start delimiter body after) =
      document before delimiter (Text.unifyLineEnds body) rest) :
    normalize (document start delimiter body after) = (strip before).bind fun kept =>
      (normalizeAfter (1 + newlines before + newlines body) rest).map
        (document (coalesce kept) delimiter (Text.unifyLineEnds body) ·) := by
  have hstrip := strip_of_scannedAfter h.toScannedAfter hspliced
  rw [normalize, ← spliced, hstrip, normalizeAfter]
  cases hkept : strip before with
  | error line => rfl
  | ok kept =>
    rw [hkept] at hstrip
    show ((stripSegments _ _).map _).map coalesce = ((stripSegments _ _).map _).map _
    cases hafter : stripSegments (1 + newlines before + newlines body)
        (segmentsFrom [Byte.doubleQuote] rest) with
    | error line => rfl
    | ok stripped =>
      have hstripped : strip (spliced (document start delimiter body after)) =
          .ok (document kept delimiter (Text.unifyLineEnds body) stripped) := by
        rw [hstrip]
        show (stripSegments _ _).map _ = _
        rw [hafter]
        rfl
      exact congrArg Except.ok (coalesce_of_standsAfter h hkept hstripped)

end

end HeaderMacros.Source
