import HeaderMacros.Proofs.Source.Normal
import HeaderMacros.Proofs.Source.RawString

/-!
# Quoted literals in a document

A string or character literal that closes on its line is kept byte for byte, whatever looks like a
comment, like white space to coalesce or like the other quote in it. It is recognized twice, in the
text with its continued lines joined and in the text without its comments, and comes to both in one
piece:

- unifying line ends and joining lines have no part in it, since it has no newline and does not end
  in a backslash (`spliced_append_quoted`);
- no literal and no comment before it reaches into it, if the text before it has no start of any
  (`segmentsFrom_append_quoted`, `stretches_append_quoted`).

So what is made of a text up to the end of its first literal is known from the text up to there
(`isPrefix_of_normalize`).
-/

namespace HeaderMacros.Source

variable {quote : UInt8} {lead body part rest : Text}

/-- What may stand between two quotes: no newline, and the closing quote and a backslash only after
a backslash. -/
inductive QuotedBody (quote : UInt8) : Text → Prop where
  /-- Nothing. -/
  | nil : QuotedBody quote []
  /-- A byte that stands for itself. -/
  | byte {b : UInt8} {text : Text} (hnewline : b ≠ Byte.newline) (hbackslash : b ≠ Byte.backslash)
    (hquote : b ≠ quote) (h : QuotedBody quote text) : QuotedBody quote (b :: text)
  /-- A backslash with the byte that it protects. -/
  | escape {b : UInt8} {text : Text} (hnewline : b ≠ Byte.newline) (h : QuotedBody quote text) :
    QuotedBody quote (Byte.backslash :: b :: text)

/-- A quoted literal. -/
def quoted (quote : UInt8) (body : Text) : Text := quote :: (body ++ [quote])

/-- One of the bytes that quote a literal. -/
def IsQuote (b : UInt8) : Prop := b = Byte.doubleQuote ∨ b = Byte.singleQuote

instance (b : UInt8) : Decidable (IsQuote b) :=
  inferInstanceAs (Decidable (b = Byte.doubleQuote ∨ b = Byte.singleQuote))

/-- A text in which no literal and no comment starts and no line is continued. It does not end in an
`R`, which would make a quote after it that of a raw string. -/
structure IsLead (lead : Text) : Prop where
  /-- There is no quote. -/
  unquoted : Unquoted lead
  /-- There is no backslash. -/
  backslash : Byte.backslash ∉ lead
  /-- There is no carriage return. -/
  carriageReturn : Byte.carriageReturn ∉ lead
  /-- No line comment opens. -/
  lineComment : ¬ lineOpen <:+: lead
  /-- No block comment opens. -/
  blockComment : ¬ blockOpen <:+: lead
  /-- The last byte opens no raw string. -/
  last : lead.getLast? ≠ some 0x52

theorem IsLead.of_isSuffix (h : IsLead lead) (hpart : part <:+ lead) : IsLead part where
  unquoted := ⟨fun hmem => h.unquoted.1 (hpart.mem hmem), fun hmem => h.unquoted.2 (hpart.mem hmem)⟩
  backslash hmem := h.backslash (hpart.mem hmem)
  carriageReturn hmem := h.carriageReturn (hpart.mem hmem)
  lineComment hmark := h.lineComment (hmark.trans hpart.isInfix)
  blockComment hmark := h.blockComment (hmark.trans hpart.isInfix)
  last hlast := by
    obtain ⟨front, rfl⟩ := hpart
    refine h.last ?_
    rw [List.getLast?_append, hlast]
    rfl

theorem IsLead.tail {b : UInt8} (h : IsLead (b :: part)) : IsLead part :=
  h.of_isSuffix (List.suffix_cons b part)

/-! ## Line ends and continued lines -/

theorem QuotedBody.newline_notMem (h : QuotedBody quote body) : Byte.newline ∉ body := by
  induction h with
  | nil => exact List.not_mem_nil
  | byte hnewline _ _ _ ih => simpa using ⟨hnewline.symm, ih⟩
  | escape hnewline _ ih => simpa using ⟨by decide, hnewline.symm, ih⟩

theorem IsQuote.ne_newline (h : IsQuote quote) : quote ≠ Byte.newline := by
  rcases h with rfl | rfl <;> decide

theorem QuotedBody.newline_notMem_quoted (hquote : IsQuote quote) (h : QuotedBody quote body) :
    Byte.newline ∉ quoted quote body := by
  simp [quoted, h.newline_notMem, hquote.ne_newline.symm]

/-- Joining lines leaves a text without backslashes as it is, whatever follows. -/
theorem splice_append_of_notMem (h : Byte.backslash ∉ lead) (text : Text) :
    splice (lead ++ text) = lead ++ splice text := by
  have hended {line : Text} (hline : Byte.backslash ∉ line) : isContinued line = false := by
    refine Bool.eq_false_iff.2 fun hcontinued => hline ?_
    exact List.mem_of_getLast? (beq_iff_eq.1 hcontinued)
  rw [splice_eq_spliceFrom, splice_eq_spliceFrom]
  induction lead using line_induction with
  | last line hline => exact spliceFrom_append hline (hended h) 0 text
  | continued line rest hline hcontinued _ =>
    rw [hended fun hmem => h (List.mem_append_left _ hmem)] at hcontinued
    cases hcontinued
  | ended line rest hline hnot ih =>
    have hrest : Byte.backslash ∉ rest := fun hmem => h (by simp [hmem])
    rw [List.append_assoc, List.cons_append, spliceFrom_of_not_isContinued hline hnot, ih hrest]
    simp

/-- A quoted literal comes through the joining of lines as it is, and so does the text before it. -/
theorem spliced_append_quoted (hlead : IsLead lead) (hquote : IsQuote quote)
    (hbody : QuotedBody quote body) (rest : Text) :
    spliced (lead ++ (quoted quote body ++ rest)) =
      lead ++ (quoted quote body ++ spliced rest) := by
  have hline := hbody.newline_notMem_quoted hquote
  have hlast : (quoted quote body).getLast? = some quote := by
    rw [quoted, ← List.cons_append, List.getLast?_concat]
  have hends : (quoted quote body).getLast? ≠ some Byte.carriageReturn := by
    rw [hlast]
    rcases hquote with rfl | rfl <;> decide
  have hstarts : (quoted quote body ++ rest).head? ≠ some Byte.newline := fun h =>
    hquote.ne_newline (Option.some.inj h)
  have hended : isContinued (quoted quote body) = false := by
    rw [isContinued, hlast]
    rcases hquote with rfl | rfl <;> decide
  rw [spliced, unifyLineEnds_append (.inr hstarts), unifyLineEnds_eq_self hlead.carriageReturn,
    unifyLineEnds_append (.inl hends), unifyLineEnds_of_notMem hline,
    splice_append_of_notMem hlead.backslash, splice_eq_spliceFrom,
    spliceFrom_append hline hended, ← splice_eq_spliceFrom]
  rfl

/-! ## The two scans -/

/-- A quote is closed at the end of what may stand between quotes. -/
theorem QuotedBody.closeQuote? (hquote : IsQuote quote) (h : QuotedBody quote body) (rest : Text) :
    closeQuote? quote (body ++ quote :: rest) = some (body ++ [quote], rest) := by
  induction h with
  | nil =>
    have hbackslash : quote ≠ Byte.backslash := by
      rcases hquote with rfl | rfl <;> decide
    rw [List.nil_append, Source.closeQuote?.eq_def]
    dsimp only
    rw [if_neg hbackslash, if_neg hquote.ne_newline, if_pos rfl]
    rfl
  | byte hnewline hbackslash hother _ ih =>
    rw [List.cons_append, Source.closeQuote?.eq_def]
    dsimp only
    rw [if_neg hbackslash, if_neg hnewline, if_neg hother, ih]
    rfl
  | escape hnewline _ ih =>
    rw [List.cons_append, List.cons_append, Source.closeQuote?, if_pos rfl, if_neg hnewline, ih]
    rfl

theorem QuotedBody.literal? (hquote : IsQuote quote) (h : QuotedBody quote body)
    (before rest : Text) :
    literal? before (quoted quote body ++ rest) = some (quoted quote body, rest) := by
  refine literal?_eq_some_iff.2 (.inl ⟨quote, body ++ quote :: rest, body ++ [quote], hquote, ?_,
    h.closeQuote? hquote rest, rfl⟩)
  simp [quoted]

/-- No literal starts before the quote. -/
theorem IsLead.literal?_eq_none {b : UInt8} (h : IsLead (b :: part)) (before rest : Text) :
    literal? before (b :: (part ++ quote :: rest)) = none := by
  rw [Option.eq_none_iff_forall_ne_some]
  rintro ⟨lit, after⟩ hlit
  rcases literal?_eq_some_iff.1 hlit with ⟨opening, more, close, hopening, htext, -, -⟩ |
    ⟨more, close, -, htext, -, -⟩
  · obtain ⟨rfl, -⟩ := List.cons.inj htext
    rcases hopening with rfl | rfl
    · exact h.unquoted.1 List.mem_cons_self
    · exact h.unquoted.2 List.mem_cons_self
  · -- The quote of a raw string would be within the lead, or right after an `R` at its end.
    obtain ⟨rfl, hnext⟩ := List.cons.inj htext
    cases part with
    | nil => exact h.last rfl
    | cons c part =>
      obtain ⟨rfl, -⟩ := List.cons.inj hnext
      exact h.unquoted.1 (by simp)

/-- No comment starts before the quote. -/
theorem IsLead.segment_eq {b : UInt8} (h : IsLead (b :: part)) (hquote : IsQuote quote)
    (before rest : Text) :
    segment before b (part ++ quote :: rest) = (.plain b, part ++ quote :: rest) := by
  have hmark {x y : UInt8} (hy : ¬ IsQuote y) (hapart : ¬ [x, y] <:+: b :: part) :
      Text.dropPrefix? [x, y] (b :: (part ++ quote :: rest)) = none := by
    refine dropPrefix?_pair_eq_none fun c hc hpair => ?_
    obtain ⟨rfl, hcy⟩ := List.cons.inj hpair
    obtain ⟨rfl, -⟩ := List.cons.inj hcy
    cases part with
    | nil =>
      obtain rfl := Option.some.inj hc
      exact hy hquote
    | cons d part =>
      obtain rfl := Option.some.inj hc
      exact hapart ⟨[], part, rfl⟩
  have hblock : Text.dropPrefix? blockOpen (b :: (part ++ quote :: rest)) = none :=
    hmark (by decide) h.blockComment
  have hline : Text.dropPrefix? lineOpen (b :: (part ++ quote :: rest)) = none :=
    hmark (by decide) h.lineComment
  rw [segment, h.literal?_eq_none]
  simp only [hblock, hline]

/-- The segments of a text up to its first literal are its bytes. -/
theorem segmentsFrom_append_quoted (hlead : IsLead lead) (hquote : IsQuote quote)
    (hbody : QuotedBody quote body) (before rest : Text) :
    ∃ more, segmentsFrom before (lead ++ (quoted quote body ++ rest)) =
      lead.map .plain ++ .literal (quoted quote body) :: more := by
  induction lead generalizing before with
  | nil =>
    have hsegment : segment before quote (body ++ [quote] ++ rest) =
        (.literal (quoted quote body), rest) := by
      have hliteral := hbody.literal? hquote before rest
      rw [quoted, List.cons_append] at hliteral
      rw [segment, hliteral]
      rfl
    refine ⟨segmentsFrom ((quoted quote body).reverse ++ before) rest, ?_⟩
    rw [List.nil_append, quoted, List.cons_append, segmentsFrom, hsegment]
    rfl
  | cons b part ih =>
    obtain ⟨more, hmore⟩ := ih hlead.tail ([b].reverse ++ before)
    refine ⟨more, ?_⟩
    have hsegment : segment before b (part ++ (quoted quote body ++ rest)) =
        (.plain b, part ++ (quoted quote body ++ rest)) :=
      hlead.segment_eq hquote before (body ++ [quote] ++ rest)
    rw [List.cons_append, segmentsFrom, hsegment]
    exact congrArg (_ :: ·) hmore

/-- Removing comments keeps a text up to its first literal. -/
theorem exists_eq_append_of_strip (hlead : IsLead lead) (hquote : IsQuote quote)
    (hbody : QuotedBody quote body) {out : Text}
    (h : strip (lead ++ (quoted quote body ++ rest)) = .ok out) :
    ∃ kept, out = lead ++ (quoted quote body ++ kept) := by
  obtain ⟨more, hsegments⟩ := segmentsFrom_append_quoted hlead hquote hbody [] rest
  rw [strip, segments, hsegments, stripSegments_append, stripSegments_map_plain] at h
  simp only [Except.bind, stripSegments, Segment.kept?] at h
  cases hkept : stripSegments _ more with
  | error n =>
    rw [hkept] at h
    cases h
  | ok kept =>
    rw [hkept] at h
    exact ⟨kept, (Except.ok.inj h).symm⟩

/-- A stretch before the quote ends before it. -/
theorem IsLead.stretch_append {b : UInt8} (h : IsLead (b :: part)) (hquote : IsQuote quote)
    (before rest : Text) :
    stretch before b (part ++ quote :: rest) =
      ((stretch before b part).1, (stretch before b part).2 ++ quote :: rest) := by
  refine isScan_stretchesFrom.piece_append ?_
  have hstop : isLineSpace quote = false := by
    rcases hquote with rfl | rfl <;> decide
  have hdrop : ∃ after, (part ++ quote :: rest).dropWhile isLineSpace = after ++ quote :: rest := by
    rw [List.dropWhile_append]
    split_ifs
    · exact ⟨[], List.dropWhile_cons_of_neg (by simp [hstop])⟩
    · exact ⟨_, rfl⟩
  rw [stretch, h.literal?_eq_none]
  dsimp only
  split_ifs
  · exact ⟨part, rfl⟩
  · exact hdrop
  · exact ⟨part, rfl⟩

/-- The stretches of a text up to its first literal are those of the text before the literal. -/
theorem stretches_append_quoted (hlead : IsLead lead) (hquote : IsQuote quote)
    (hbody : QuotedBody quote body) (rest : Text) :
    ∃ more, stretches (lead ++ (quoted quote body ++ rest)) =
      stretches lead ++ .literal (quoted quote body) :: more := by
  have hfront : stretchesFrom [] (lead ++ (quoted quote body ++ rest)) =
      stretchesFrom [] lead ++ stretchesFrom (lead.reverse ++ []) (quoted quote body ++ rest) := by
    refine isScan_stretchesFrom.scan_text_append (P := fun _ text => IsLead text) ?_ ?_ hlead
    · intro before b part hpart
      exact hpart.stretch_append hquote before (body ++ [quote] ++ rest)
    · intro before b part hpart
      refine hpart.of_isSuffix ⟨_, (source_stretch before b part).symm⟩
  have hstretch : stretch (lead.reverse ++ []) quote (body ++ [quote] ++ rest) =
      (.literal (quoted quote body), rest) := by
    have hliteral := hbody.literal? hquote (lead.reverse ++ []) rest
    rw [quoted, List.cons_append] at hliteral
    rw [stretch, hliteral]
    rfl
  refine ⟨stretchesFrom ((quoted quote body).reverse ++ (lead.reverse ++ [])) rest, ?_⟩
  rw [stretches, hfront, quoted, List.cons_append,
    stretchesFrom.eq_def (lead.reverse ++ []) (quote :: (body ++ [quote] ++ rest))]
  dsimp only
  rw [hstretch]
  rfl

/-- Coalescing white space keeps a literal, and coalesces the text before it by itself. -/
theorem exists_coalesce_append_quoted (hlead : IsLead lead) (hquote : IsQuote quote)
    (hbody : QuotedBody quote body) (rest : Text) :
    ∃ after, coalesce (lead ++ (quoted quote body ++ rest)) =
      coalesce lead ++ (quoted quote body ++ after) := by
  obtain ⟨more, hstretches⟩ := stretches_append_quoted hlead hquote hbody rest
  obtain ⟨atStart, hcoalesce⟩ := exists_coalesceStretches_append true (stretches lead)
  refine ⟨coalesceStretches false more, ?_⟩
  rw [coalesce, hstretches, hcoalesce]
  rfl

/-- The first literal of a text is kept byte for byte. What comes before it in the normalized text
is the text before it with its white space coalesced, whatever follows it. -/
theorem isPrefix_of_normalize (hquote : IsQuote quote) (hlead : IsLead lead)
    (hbody : QuotedBody quote body) {out : Text}
    (h : normalize (lead ++ quote :: body ++ quote :: rest) = .ok out) :
    coalesce lead ++ quote :: body ++ [quote] <+: out := by
  have htext : lead ++ quote :: body ++ quote :: rest =
      lead ++ (quoted quote body ++ rest) := by simp [quoted]
  have hspliced := spliced_append_quoted hlead hquote hbody rest
  rw [spliced] at hspliced
  rw [htext, normalize, hspliced] at h
  cases hstrip : strip (lead ++ (quoted quote body ++ spliced rest)) with
  | error n =>
    rw [hstrip] at h
    cases h
  | ok stripped =>
    rw [hstrip] at h
    obtain ⟨kept, rfl⟩ := exists_eq_append_of_strip hlead hquote hbody hstrip
    obtain ⟨after, hafter⟩ := exists_coalesce_append_quoted hlead hquote hbody kept
    refine ⟨after, ?_⟩
    rw [← Except.ok.inj h, hafter]
    simp [quoted]

/-- Bytes of a string that would be something else outside: a quote, a comment, white space. -/
def markedBody : Text := ascii "\\\"/*'  "

theorem isPrefix_of_normalize_markedBody :
    IsLead (ascii " int  x =\t/") ∧ QuotedBody Byte.doubleQuote markedBody ∧
      normalize (ascii " int  x =\t/" ++ Byte.doubleQuote :: markedBody ++
        Byte.doubleQuote :: ascii "  /* */\\\n;") = .ok (ascii "int x = /\"\\\"/*'  \" ;\n") ∧
      ascii "int x = /\"\\\"/*'  \"" <+: ascii "int x = /\"\\\"/*'  \" ;\n" := by
  have hlead : IsLead (ascii " int  x =\t/") :=
    ⟨by decide, by decide, by decide, by decide +kernel, by decide +kernel, by decide⟩
  have hbody : QuotedBody Byte.doubleQuote markedBody := by
    refine .escape (by decide) ?_
    iterate 5 refine .byte (by decide) (by decide) (by decide) ?_
    exact .nil
  have hout : normalize (ascii " int  x =\t/" ++ Byte.doubleQuote :: markedBody ++
      Byte.doubleQuote :: ascii "  /* */\\\n;") =
        .ok (ascii "int x = /\"\\\"/*'  \" ;\n") := by
    decide +kernel
  have hcoalesce : coalesce (ascii " int  x =\t/") = ascii "int x = /" := by decide +kernel
  have hprefix := isPrefix_of_normalize (.inl rfl) hlead hbody hout
  rw [hcoalesce] at hprefix
  exact ⟨hlead, hbody, hout, hprefix⟩

end HeaderMacros.Source
