import HeaderMacros.Proofs.Source.Quoted

/-!
# Coalescing white space twice

Coalescing looks for literals first, and where a literal ends may depend on all that follows. With
less white space in a text, a quote that was never closed could be closed, or a raw string could get
a delimiter that is short enough, and a second round would keep what the first one changed. This
does not happen:

- `Squeezed` relates a text to the text with some of its white space coalesced. Where no literal
  starts in the first one, none starts in the second (`Squeezed.literal?_eq_none`).
- `stretches_coalesce`: a coalesced text has the stretches of the text that it comes from, but for
  the gaps that are shortened or dropped.
- `coalesce_coalesce`: the texts that stay as they are when their white space is coalesced are those
  in which every gap is a single space inside a line, and coalescing gives such a text.
-/

namespace HeaderMacros.Source

variable {atStart : Bool} {before before' source out text run : Text} {b quote : UInt8}

/-! ## White space inside a line -/

theorem isLineSpace_eq_true_iff :
    isLineSpace b = true ↔ b = 0x20 ∨ b = 0x09 ∨ b = 0x0B ∨ b = 0x0C ∨ b = 0x0D := by
  simp [isLineSpace, Byte.isHorizontalSpace, or_assoc]

theorem ne_of_isLineSpace {c : UInt8} (hb : isLineSpace b = true) (hc : isLineSpace c = false) :
    b ≠ c := by
  rintro rfl
  rw [hb] at hc
  cases hc

theorem isWordByte_of_isLineSpace (hb : isLineSpace b = true) : Byte.isWordByte b = false := by
  rcases isLineSpace_eq_true_iff.1 hb with rfl | rfl | rfl | rfl | rfl <;> rfl

theorem IsQuote.isLineSpace (h : IsQuote quote) : isLineSpace quote = false := by
  rcases h with rfl | rfl <;> rfl

/-! ## Squeezed texts -/

/-- The second text is the first one with some runs of white space squeezed: inside a line to one
space, and at the start of a line to nothing. The truth value says whether a line starts here. -/
inductive Squeezed : Bool → Text → Text → Prop where
  /-- Nothing comes of nothing. -/
  | nil {atStart : Bool} : Squeezed atStart [] []
  /-- A byte stays. -/
  | keep {atStart : Bool} {source out : Text} (b : UInt8)
    (h : Squeezed (b == Byte.newline) source out) : Squeezed atStart (b :: source) (b :: out)
  /-- A run inside a line becomes a space. -/
  | gap {run source out : Text} (hne : run ≠ []) (hrun : ∀ b ∈ run, isLineSpace b = true)
    (h : Squeezed false source out) : Squeezed false (run ++ source) (Byte.space :: out)
  /-- A run at the start of a line is dropped. -/
  | indent {run source out : Text} (hne : run ≠ []) (hrun : ∀ b ∈ run, isLineSpace b = true)
    (h : Squeezed true source out) : Squeezed true (run ++ source) out

namespace Squeezed

theorem keep_of_ne (hb : b ≠ Byte.newline) (h : Squeezed false source out) :
    Squeezed atStart (b :: source) (b :: out) := by
  rw [← beq_eq_false_iff_ne] at hb
  exact .keep b (hb.symm ▸ h)

/-- A part that does not end in a newline stays. -/
theorem keep_append (front : Text) (hb : b ≠ Byte.newline) (h : Squeezed false source out) :
    Squeezed atStart (front ++ [b] ++ source) (front ++ [b] ++ out) := by
  induction front generalizing atStart with
  | nil => exact keep_of_ne hb h
  | cons c front ih => exact .keep c ih

/-- A text that does not start with white space still does not. -/
theorem head?_eq (h : Squeezed atStart source out)
    (hsource : ∀ b ∈ source.head?, isLineSpace b = false) :
    ∀ b ∈ out.head?, isLineSpace b = false := by
  have hsolid {run source : Text} (hne : run ≠ []) (hrun : ∀ b ∈ run, isLineSpace b = true)
      (hhead : ∀ b ∈ (run ++ source).head?, isLineSpace b = false) : False := by
    obtain ⟨c, run, rfl⟩ := List.exists_cons_of_ne_nil hne
    exact ne_of_isLineSpace (hrun c List.mem_cons_self) (hhead c rfl) rfl
  cases h with
  | nil => exact hsource
  | keep => exact hsource
  | gap hne hrun => exact (hsolid hne hrun hsource).elim
  | indent hne hrun => exact (hsolid hne hrun hsource).elim

/-- A part without spaces and newlines comes from the same part of the source. -/
theorem of_append {part : Text} (hpart : ∀ b ∈ part, b ≠ Byte.newline ∧ b ≠ Byte.space)
    (h : Squeezed false source (part ++ out)) :
    ∃ rest, source = part ++ rest ∧ Squeezed false rest out := by
  induction part generalizing source with
  | nil => exact ⟨source, rfl, h⟩
  | cons b part ih =>
    obtain ⟨⟨hnewline, hspace⟩, hpart⟩ := List.forall_mem_cons.1 hpart
    rw [List.cons_append] at h
    cases h with
    | keep _ h =>
      rw [beq_eq_false_iff_ne.2 hnewline] at h
      obtain ⟨rest, rfl, hrest⟩ := ih hpart h
      exact ⟨rest, rfl, hrest⟩
    | gap => exact absurd rfl hspace

/-- A pattern without spaces and newlines that is found in a squeezed text is found in the source:
between two bytes of the pattern nothing was dropped. -/
theorem isInfix {pattern : Text} (hpattern : ∀ b ∈ pattern, b ≠ Byte.newline ∧ b ≠ Byte.space)
    (h : Squeezed atStart source out) (hfound : pattern <:+: out) : pattern <:+: source := by
  induction h with
  | nil => exact hfound
  | @keep atStart source out b h ih =>
    rcases List.infix_cons_iff.1 hfound with hhere | hlater
    · -- The pattern starts with the byte that stays, so the rest of it is inside the line.
      refine List.IsPrefix.isInfix ?_
      cases pattern with
      | nil => exact List.nil_prefix
      | cons c pattern =>
        obtain ⟨⟨hnewline, -⟩, hrest⟩ := List.forall_mem_cons.1 hpattern
        obtain ⟨rfl, more, rfl⟩ := List.cons_prefix_cons.1 hhere
        rw [beq_eq_false_iff_ne.2 hnewline] at h
        obtain ⟨after, rfl, -⟩ := h.of_append hrest
        exact ⟨after, rfl⟩
    · exact (ih hlater).trans (List.suffix_cons b source).isInfix
  | gap hne hrun h ih =>
    rcases List.infix_cons_iff.1 hfound with hhere | hlater
    · cases pattern with
      | nil => exact List.nil_infix
      | cons c pattern =>
        obtain ⟨rfl, -⟩ := List.cons_prefix_cons.1 hhere
        exact absurd rfl (hpattern _ List.mem_cons_self).2
    · exact (ih hlater).trans (List.suffix_append _ _).isInfix
  | indent hne hrun h ih => exact (ih hfound).trans (List.suffix_append _ _).isInfix

end Squeezed

/-! ## Literals in squeezed texts -/

theorem closeQuote?_cons_eq_none_iff (hb : b ≠ Byte.backslash) (hquote : b ≠ quote) :
    closeQuote? quote (b :: text) = none ↔ b = Byte.newline ∨ closeQuote? quote text = none := by
  rw [closeQuote?.eq_def]
  dsimp only
  rw [if_neg hb, if_neg hquote]
  split_ifs with hnewline
  · simp [hnewline]
  · simp [hnewline]

/-- A backslash protects any byte but a newline. -/
theorem closeQuote?_escape_eq_none_iff :
    closeQuote? quote (Byte.backslash :: b :: text) = none ↔
      b = Byte.newline ∨ closeQuote? quote text = none := by
  rw [closeQuote?, if_pos rfl]
  split_ifs with hnewline
  · simp [hnewline]
  · simp [hnewline]

theorem closeQuote?_run_append_eq_none_iff (hquote : IsQuote quote)
    (hrun : ∀ b ∈ run, isLineSpace b = true) :
    closeQuote? quote (run ++ text) = none ↔ closeQuote? quote text = none := by
  induction run with
  | nil => exact Iff.rfl
  | cons b run ih =>
    obtain ⟨hb, hrun⟩ := List.forall_mem_cons.1 hrun
    have hnewline : b ≠ Byte.newline := ne_of_isLineSpace hb (by decide)
    rw [List.cons_append, closeQuote?_cons_eq_none_iff (ne_of_isLineSpace hb (by decide))
      (ne_of_isLineSpace hb hquote.isLineSpace), ih hrun]
    simp [hnewline]

namespace Squeezed

/-- A quote that is not closed in a text is not closed in the squeezed text, also if a backslash
comes before both: the first byte of a run is protected, and then a space is. -/
theorem closeQuote?_eq_none (hquote : IsQuote quote) (h : Squeezed false source out) :
    (closeQuote? quote source = none → closeQuote? quote out = none) ∧
      (closeQuote? quote (Byte.backslash :: source) = none →
        closeQuote? quote (Byte.backslash :: out) = none) := by
  generalize hstart : false = atStart at h
  induction h with
  | nil => exact ⟨id, id⟩
  | @keep atStart source out b h ih =>
    by_cases hnewline : b = Byte.newline
    · -- No quote is closed beyond its line.
      subst hnewline
      have hended (text : Text) : closeQuote? quote (Byte.newline :: text) = none :=
        (closeQuote?_cons_eq_none_iff (by decide) hquote.ne_newline.symm).2 (.inl rfl)
      exact ⟨fun _ => hended out, fun _ => closeQuote?_escape_eq_none_iff.2 (.inl rfl)⟩
    obtain ⟨hplain, hescaped⟩ := ih (beq_eq_false_iff_ne.2 hnewline).symm
    refine ⟨?_, ?_⟩
    · -- Without a backslash before it, the byte may start an escape or close the quote.
      by_cases hb : b = Byte.backslash
      · subst hb
        exact hescaped
      by_cases hclose : b = quote
      · subst hclose
        intro hnone
        rw [closeQuote?.eq_def] at hnone
        simp [hb, hnewline] at hnone
      · rw [closeQuote?_cons_eq_none_iff hb hclose, closeQuote?_cons_eq_none_iff hb hclose]
        exact Or.imp_right hplain
    · rw [closeQuote?_escape_eq_none_iff, closeQuote?_escape_eq_none_iff]
      exact Or.imp_right hplain
  | @gap run source out hne hrun h ih =>
    obtain ⟨hplain, -⟩ := ih rfl
    refine ⟨?_, ?_⟩
    · -- A run is passed over in the source, and so is its space.
      rw [closeQuote?_run_append_eq_none_iff hquote hrun]
      intro hnone
      exact (closeQuote?_cons_eq_none_iff (by decide)
        (ne_of_isLineSpace (by decide) hquote.isLineSpace)).2 (.inr (hplain hnone))
    · -- The backslash protects the first byte of the run, and the space.
      obtain ⟨c, run, rfl⟩ := List.exists_cons_of_ne_nil hne
      obtain ⟨hc, hrun⟩ := List.forall_mem_cons.1 hrun
      have hnewline : c ≠ Byte.newline := ne_of_isLineSpace hc (by decide)
      rw [List.cons_append, closeQuote?_escape_eq_none_iff,
        closeQuote?_run_append_eq_none_iff hquote hrun, closeQuote?_escape_eq_none_iff]
      rintro (hc' | hnone)
      · exact absurd hc' hnewline
      · exact .inr (hplain hnone)
  | indent => cases hstart

end Squeezed

/-- A delimiter has no spaces and no newlines. -/
theorem IsDelimiter.solid {delimiter : Text} (h : IsDelimiter delimiter) :
    ∀ b ∈ delimiter, b ≠ Byte.newline ∧ b ≠ Byte.space := by
  intro b hb
  have hstop : isDelimiterStop b = false :=
    Bool.eq_false_iff.2 fun hstop => h.2 (.inr (List.any_eq_true.2 ⟨b, hb, hstop⟩))
  constructor <;>
    · rintro rfl
      exact absurd hstop (by decide)

namespace Squeezed

/-- Where a text does not go on as a raw string, the squeezed text does not. A delimiter in the
squeezed text has no space, so it is the delimiter in the source, and what would close the body is
found there too. -/
theorem closeRawString?_eq_none (h : Squeezed false source out)
    (hnone : closeRawString? source = none) : closeRawString? out = none := by
  rw [Option.eq_none_iff_forall_ne_some]
  rintro ⟨close, after⟩ hclose
  obtain ⟨delimiter, bodyOn, body, rfl, hdelimiter, hcut, -⟩ := closeRawString?_eq_some_iff.1 hclose
  have hstart : ∀ b ∈ delimiter ++ [Byte.openParen], b ≠ Byte.newline ∧ b ≠ Byte.space := by
    rw [List.forall_mem_append]
    exact ⟨hdelimiter.solid, List.forall_mem_singleton.2 (by decide)⟩
  -- What closes the body has no space either, so it is found in the source, too.
  have hend : ∀ b ∈ rawStringEnd delimiter, b ≠ Byte.newline ∧ b ≠ Byte.space := by
    rw [rawStringEnd, List.forall_mem_append, List.forall_mem_cons]
    exact ⟨⟨by decide, hdelimiter.solid⟩, List.forall_mem_singleton.2 (by decide)⟩
  rw [List.append_cons] at h
  obtain ⟨rest, rfl, hrest⟩ := h.of_append hstart
  have hclosed : rawStringEnd delimiter <:+: rest :=
    hrest.isInfix hend ⟨body, after, (Text.eq_append_of_cut? hcut).symm⟩
  cases hcut' : Text.cut? (rawStringEnd delimiter) rest with
  | none => exact Text.not_isInfix_of_cut? hcut' hclosed
  | some parts =>
    have hsome : closeRawString? (delimiter ++ Byte.openParen :: rest) = some (_, parts.2) :=
      closeRawString?_eq_some_iff.2 ⟨delimiter, rest, parts.1, rfl, hdelimiter, hcut', rfl⟩
    rw [List.append_cons, hnone] at hsome
    cases hsome

/-- Where no literal starts in a text, none starts in the squeezed text. -/
theorem literal?_eq_none (h : Squeezed false source out)
    (hopens : opensRawString before = opensRawString before')
    (hnone : literal? before (b :: source) = none) : literal? before' (b :: out) = none := by
  rw [← literal?_congr hopens, Option.eq_none_iff_forall_ne_some]
  rintro ⟨lit, after⟩ hlit
  rcases literal?_eq_some_iff.1 hlit with ⟨quote, rest, close, hquote, htext, hclose, -⟩ |
    ⟨rest, close, hraw, htext, hclose, -⟩
  · obtain ⟨rfl, rfl⟩ := List.cons.inj htext
    have hopen : closeQuote? b source = none := by
      rw [Option.eq_none_iff_forall_ne_some]
      rintro ⟨close', after'⟩ hclose'
      have hsome : literal? before (b :: source) = some (b :: close', after') :=
        literal?_eq_some_iff.2 (.inl ⟨b, source, close', hquote, rfl, hclose', rfl⟩)
      rw [hnone] at hsome
      cases hsome
    rw [(h.closeQuote?_eq_none hquote).1 hopen] at hclose
    cases hclose
  · obtain ⟨rfl, rfl⟩ := List.cons.inj htext
    obtain ⟨rest', rfl, hrest⟩ : ∃ rest', source = [Byte.doubleQuote] ++ rest' ∧
        Squeezed false rest' rest := h.of_append (List.forall_mem_singleton.2 (by decide))
    have hopen : closeRawString? rest' = none := by
      rw [Option.eq_none_iff_forall_ne_some]
      rintro ⟨close', after'⟩ hclose'
      have hsome : literal? before (0x52 :: ([Byte.doubleQuote] ++ rest')) =
          some (0x52 :: Byte.doubleQuote :: close', after') :=
        literal?_eq_some_iff.2 (.inr ⟨rest', close', hraw, rfl, hclose', rfl⟩)
      rw [hnone] at hsome
      cases hsome
    rw [hrest.closeRawString?_eq_none hopen] at hclose
    cases hclose

end Squeezed

/-- A quoted literal ends in its quote. -/
theorem exists_concat_of_closeQuote? {close after : Text}
    (h : closeQuote? quote text = some (close, after)) : ∃ front, close = front ++ [quote] := by
  fun_induction closeQuote? quote text generalizing close with
  | case1 => cases h
  | case2 => cases h
  | case3 => cases h
  | case4 c more hc ih =>
    obtain ⟨⟨close', after'⟩, hclose, heq⟩ := Option.map_eq_some_iff.1 h
    cases heq
    obtain ⟨front, rfl⟩ := ih hclose
    exact ⟨Byte.backslash :: c :: front, rfl⟩
  | case5 => cases h
  | case6 =>
    cases h
    exact ⟨[], rfl⟩
  | case7 b text _ _ _ ih =>
    obtain ⟨⟨close', after'⟩, hclose, heq⟩ := Option.map_eq_some_iff.1 h
    cases heq
    obtain ⟨front, rfl⟩ := ih hclose
    exact ⟨b :: front, rfl⟩

/-- A literal ends in a quote. -/
theorem exists_concat_of_literal? {lit after : Text}
    (h : literal? before text = some (lit, after)) :
    ∃ front quote, lit = front ++ [quote] ∧ IsQuote quote := by
  rcases literal?_eq_some_iff.1 h with ⟨quote, rest, close, hquote, -, hclose, rfl⟩ |
    ⟨rest, close, -, -, hclose, rfl⟩
  · obtain ⟨front, rfl⟩ := exists_concat_of_closeQuote? hclose
    exact ⟨quote :: front, quote, rfl, hquote⟩
  · obtain ⟨delimiter, bodyOn, body, -, -, -, rfl⟩ := closeRawString?_eq_some_iff.1 hclose
    refine ⟨0x52 :: Byte.doubleQuote :: (delimiter ++ Byte.openParen :: body ++
      Byte.closeParen :: delimiter), Byte.doubleQuote, ?_, .inl rfl⟩
    simp [rawStringEnd]

/-! ## The stretches of a coalesced text -/

/-- The sorts of a first stretch: a literal, a line end, a gap that goes on as far as it can, or
another byte. -/
theorem stretch_cases (before : Text) (b : UInt8) (text : Text) :
    (∃ lit after, literal? before (b :: text) = some (lit, after) ∧
      stretch before b text = (.literal lit, after)) ∨
    (b = Byte.newline ∧ stretch before b text = (.newline, text)) ∨
    (∃ run rest, run ≠ [] ∧ (∀ c ∈ run, isLineSpace c = true) ∧
      (∀ c ∈ rest.head?, isLineSpace c = false) ∧ b :: text = run ++ rest ∧
      stretch before b text = (.gap run, rest)) ∨
    (literal? before (b :: text) = none ∧ b ≠ Byte.newline ∧ isLineSpace b = false ∧
      stretch before b text = (.plain b, text)) := by
  cases hlit : literal? before (b :: text) with
  | some parts => exact .inl ⟨parts.1, parts.2, rfl, by rw [stretch, hlit]⟩
  | none =>
    refine .inr ?_
    have hstretch : stretch before b text = if b = Byte.newline then (.newline, text)
        else if isLineSpace b then
          (.gap (b :: text.takeWhile isLineSpace), text.dropWhile isLineSpace)
        else (.plain b, text) := by rw [stretch, hlit]
    rw [hstretch]
    split_ifs with hnewline hspace
    · exact .inl ⟨hnewline, rfl⟩
    · obtain ⟨run, rest, rfl, hrun, hrest⟩ := Text.exists_span isLineSpace text
      obtain ⟨htake, hdrop⟩ := Text.span_append hrun hrest
      refine .inr (.inl ⟨b :: run, rest, List.cons_ne_nil b run,
        List.forall_mem_cons.2 ⟨hspace, hrun⟩, hrest, rfl, ?_⟩)
      rw [htake, hdrop]
    · exact .inr (.inr ⟨rfl, hnewline, Bool.eq_false_iff.2 hspace, rfl⟩)

theorem stretchesFrom_of_stretch {found : Stretch} {rest : Text}
    (h : stretch before b text = (found, rest)) :
    stretchesFrom before (b :: text) =
      found :: stretchesFrom (found.source.reverse ++ before) rest := by
  rw [stretchesFrom, h]

/-- Coalescing squeezes a text. -/
theorem squeezed_coalesceStretches (atStart : Bool) (before text : Text) :
    Squeezed atStart text (coalesceStretches atStart (stretchesFrom before text)) := by
  fun_induction stretchesFrom before text generalizing atStart with
  | case1 => exact .nil
  | case2 before b text ih =>
    rcases stretch_cases before b text with ⟨lit, after, hlit, hstretch⟩ | ⟨rfl, hstretch⟩ |
      ⟨run, rest, hne, hrun, -, htext, hstretch⟩ | ⟨-, hnewline, -, hstretch⟩
    · obtain ⟨front, quote, rfl, hquote⟩ := exists_concat_of_literal? hlit
      rw [hstretch] at ih ⊢
      rw [(literal?_eq_append hlit).1]
      exact .keep_append front hquote.ne_newline (ih false)
    · rw [hstretch] at ih ⊢
      exact .keep _ (ih true)
    · rw [hstretch] at ih ⊢
      rw [htext, coalesceStretches]
      cases atStart with
      | true => exact .indent hne hrun (ih true)
      | false => exact .gap hne hrun (ih false)
    · rw [hstretch] at ih ⊢
      exact .keep_of_ne hnewline (ih false)

/-- Stretches with their gaps shortened to a space, or dropped at the start of a line. -/
def tidied (atStart : Bool) : List Stretch → List Stretch
  | [] => []
  | .literal text :: rest => .literal text :: tidied false rest
  | .newline :: rest => .newline :: tidied true rest
  | .gap _ :: rest =>
    if atStart then tidied atStart rest else .gap [Byte.space] :: tidied atStart rest
  | .plain byte :: rest => .plain byte :: tidied false rest

theorem source_tidied (atStart : Bool) (found : List Stretch) :
    (tidied atStart found).flatMap Stretch.source = coalesceStretches atStart found := by
  induction found generalizing atStart with
  | nil => rfl
  | cons first rest ih =>
    cases first with
    | gap run =>
      cases atStart with
      | true => exact ih true
      | false => exact congrArg (Byte.space :: ·) (ih false)
    | literal text => exact congrArg (text ++ ·) (ih false)
    | newline => exact congrArg (Byte.newline :: ·) (ih true)
    | plain byte => exact congrArg (byte :: ·) (ih false)

/-- The word that a text ends in. Both are in reverse. -/
def lastWord (before : Text) : Text := before.takeWhile Byte.isWordByte

theorem lastWord_cons_of_not (hb : Byte.isWordByte b = false) (before : Text) :
    lastWord (b :: before) = [] := List.takeWhile_cons_of_neg (Bool.eq_false_iff.1 hb)

theorem lastWord_append_congr (h : lastWord before = lastWord before') (text : Text) :
    lastWord (text ++ before) = lastWord (text ++ before') := by
  induction text with
  | nil => exact h
  | cons b text ih =>
    rw [lastWord, lastWord] at ih
    rw [lastWord, lastWord, List.cons_append, List.cons_append, List.takeWhile_cons,
      List.takeWhile_cons, ih]

/-- No word goes on to the end of a run of white space. -/
theorem lastWord_run_append (hne : run ≠ []) (hrun : ∀ b ∈ run, isLineSpace b = true)
    (before : Text) : lastWord (run.reverse ++ before) = [] := by
  obtain ⟨front, b, rfl⟩ := List.eq_nil_or_concat run |>.resolve_left hne
  rw [List.concat_eq_append, List.reverse_append, List.reverse_singleton, List.singleton_append,
    List.cons_append]
  exact lastWord_cons_of_not (isWordByte_of_isLineSpace (hrun b (by simp))) _

/-- Whether a raw string can start is told by the word before it. -/
theorem opensRawString_lastWord (before : Text) :
    opensRawString (lastWord before) = opensRawString before := by
  obtain ⟨word, rest, rfl, hword, hrest⟩ := Text.exists_span Byte.isWordByte before
  rw [lastWord, (Text.span_append hword hrest).1]
  cases rest with
  | nil => rw [List.append_nil]
  | cons b rest => rw [opensRawString_append (hrest b rfl)]

theorem stretch_newline (before text : Text) :
    stretch before Byte.newline text = (.newline, text) := rfl

/-- A space before other bytes is a gap by itself. -/
theorem stretch_space (htext : ∀ c ∈ text.head?, isLineSpace c = false) (before : Text) :
    stretch before Byte.space text = (.gap [Byte.space], text) := by
  obtain ⟨htake, hdrop⟩ : text.takeWhile isLineSpace = [] ∧ text.dropWhile isLineSpace = text :=
    Text.span_append (List.forall_mem_nil _) htext
  show (Stretch.gap (Byte.space :: text.takeWhile isLineSpace), text.dropWhile isLineSpace) = _
  rw [htake, hdrop]

/-- Coalescing changes the stretches of a text in their gaps only. What is read before the text and
before the coalesced text may differ in white space, but ends in the same word. -/
theorem stretchesFrom_coalesceStretches (hword : lastWord before = lastWord before')
    (hstart : atStart = true → lastWord before = []) :
    stretchesFrom before' (coalesceStretches atStart (stretchesFrom before text)) =
      tidied atStart (stretchesFrom before text) := by
  fun_induction stretchesFrom before text generalizing atStart before' with
  | case1 => rw [coalesceStretches, stretchesFrom, tidied]
  | case2 before b text ih =>
    have hopens : opensRawString before = opensRawString before' := by
      rw [← opensRawString_lastWord before, hword, opensRawString_lastWord]
    -- After anything but a newline the condition on the start of a line is empty.
    have hinside (seen : Text) : false = true → lastWord seen = [] :=
      fun h => absurd h Bool.false_ne_true
    rcases stretch_cases before b text with ⟨lit, after, hlit, hstretch⟩ | ⟨rfl, hstretch⟩ |
      ⟨run, rest, hne, hrun, hrest, -, hstretch⟩ | ⟨hnone, hnewline, hsolid, hstretch⟩
    all_goals
      rw [hstretch] at ih ⊢
      dsimp only at ih ⊢
    · -- A literal is recognized whatever follows it.
      obtain ⟨c, lit, rfl⟩ := List.exists_cons_of_ne_nil (literal?_eq_append hlit).2
      have hfirst (rest : Text) :
          stretch before' c (lit ++ rest) = (.literal (c :: lit), rest) := by
        rw [stretch, ← List.cons_append, ← literal?_congr hopens, literal?_append hlit]
      rw [coalesceStretches, tidied, List.cons_append, stretchesFrom_of_stretch (hfirst _),
        ih (lastWord_append_congr hword _) (hinside _)]
    · rw [coalesceStretches, tidied, stretchesFrom_of_stretch (stretch_newline before' _),
        ih (lastWord_append_congr hword _) fun _ => lastWord_cons_of_not (by decide) _]
    · have hnoWord := lastWord_run_append hne hrun before
      cases atStart with
      | true =>
        -- The run is dropped, and no word comes before the line.
        exact ih (hnoWord.trans ((hstart rfl).symm.trans hword)) fun _ => hnoWord
      | false =>
        have hfirst := stretch_space
          ((squeezed_coalesceStretches false (run.reverse ++ before) rest).head?_eq hrest) before'
        show stretchesFrom before' (Byte.space :: coalesceStretches false
          (stretchesFrom (run.reverse ++ before) rest)) = .gap [Byte.space] :: tidied false _
        rw [stretchesFrom_of_stretch hfirst]
        have hspace : lastWord (Byte.space :: before') = [] :=
          lastWord_cons_of_not (by decide) before'
        exact congrArg _ (ih (hnoWord.trans hspace.symm) (hinside _))
    · have hsqueezed := squeezed_coalesceStretches false (b :: before) text
      have hnone' := hsqueezed.literal?_eq_none hopens hnone
      have hfirst : stretch before' b (coalesceStretches false (stretchesFrom (b :: before) text)) =
          (.plain b, coalesceStretches false (stretchesFrom (b :: before) text)) := by
        rw [stretch, hnone']
        simp [hnewline, hsolid]
      show stretchesFrom before' (b :: coalesceStretches false (stretchesFrom (b :: before) text)) =
        .plain b :: tidied false _
      rw [stretchesFrom_of_stretch hfirst]
      exact congrArg _ (ih (lastWord_append_congr hword [b]) (hinside _))

theorem stretches_coalesce (text : Text) :
    stretches (coalesce text) = tidied true (stretches text) :=
  stretchesFrom_coalesceStretches rfl fun _ => rfl

/-! ## Coalesced texts -/

/-- Every gap is one space and has something before it on its line. If a line starts with the
stretches, the first one is no gap. -/
def IsTidy (atStart : Bool) (found : List Stretch) : Prop :=
  ∀ front run back, found = front ++ .gap run :: back →
    run = [Byte.space] ∧ (front = [] → atStart = false) ∧ front.getLast? ≠ some .newline

/-- Whether stretches are tidy is told by the first one and by whether it ends a line. -/
theorem isTidy_cons {first : Stretch} {rest : List Stretch} :
    IsTidy atStart (first :: rest) ↔
      (∀ run, first = .gap run → run = [Byte.space] ∧ atStart = false) ∧
        IsTidy (first = .newline) rest := by
  constructor
  · intro h
    refine ⟨?_, ?_⟩
    · rintro run rfl
      obtain ⟨hrun, hfirst, -⟩ := h [] run rest rfl
      exact ⟨hrun, hfirst rfl⟩
    · -- A gap further on is one of the whole, with the first stretch in front.
      rintro front run back rfl
      obtain ⟨hrun, -, hlast⟩ := h (first :: front) run back rfl
      refine ⟨hrun, ?_, ?_⟩
      · rintro rfl
        simpa using hlast
      · intro hnewline
        rw [List.getLast?_cons, hnewline] at hlast
        exact hlast rfl
  · rintro ⟨hfirst, hrest⟩ front run back h
    cases front with
    | nil =>
      obtain ⟨rfl, -⟩ := List.cons.inj h
      obtain ⟨hrun, hstart⟩ := hfirst run rfl
      exact ⟨hrun, fun _ => hstart, nofun⟩
    | cons other front =>
      obtain ⟨rfl, hfront⟩ := List.cons.inj h
      obtain ⟨hrun, hempty, hlast⟩ := hrest front run back hfront
      refine ⟨hrun, nofun, ?_⟩
      cases front with
      | nil => simpa using hempty rfl
      | cons => rwa [List.getLast?_cons_cons]

theorem isTidy_tidied (atStart : Bool) (found : List Stretch) :
    IsTidy atStart (tidied atStart found) := by
  induction found generalizing atStart with
  | nil => rintro (_ | _) run back ⟨⟩
  | cons first rest ih =>
    cases first with
    | literal text => exact isTidy_cons.2 ⟨nofun, ih false⟩
    | newline => exact isTidy_cons.2 ⟨nofun, ih true⟩
    | gap run =>
      cases atStart with
      | true => exact ih true
      | false =>
        refine isTidy_cons.2 ⟨?_, ih false⟩
        rintro run ⟨⟩
        exact ⟨rfl, rfl⟩
    | plain byte => exact isTidy_cons.2 ⟨nofun, ih false⟩

theorem tidied_of_isTidy {found : List Stretch} (h : IsTidy atStart found) :
    tidied atStart found = found := by
  induction found generalizing atStart with
  | nil => rfl
  | cons first rest ih =>
    obtain ⟨hfirst, hrest⟩ := isTidy_cons.1 h
    have hrest := ih hrest
    cases first with
    | literal text => exact congrArg (_ :: ·) hrest
    | newline => exact congrArg (_ :: ·) hrest
    | gap run =>
      obtain ⟨rfl, rfl⟩ := hfirst run rfl
      exact congrArg (_ :: ·) hrest
    | plain byte => exact congrArg (_ :: ·) hrest

/-- A text outside whose literals all white space inside a line is single spaces between other
bytes. A space may end a line. -/
def IsCoalesced (text : Text) : Prop := IsTidy true (stretches text)

theorem isCoalesced_coalesce (text : Text) : IsCoalesced (coalesce text) := by
  rw [IsCoalesced, stretches_coalesce]
  exact isTidy_tidied true (stretches text)

theorem coalesce_of_isCoalesced (h : IsCoalesced text) : coalesce text = text := by
  rw [coalesce, ← source_tidied, tidied_of_isTidy h, source_stretches]

/-- Coalescing makes a coalesced text of every text and leaves exactly those as they are, so doing
it twice is doing it once. -/
theorem coalesce_coalesce (text : Text) :
    coalesce (coalesce text) = coalesce text ∧ IsCoalesced (coalesce text) ∧
      (coalesce text = text ↔ IsCoalesced text) := by
  have hcoalesced := isCoalesced_coalesce text
  refine ⟨coalesce_of_isCoalesced hcoalesced, hcoalesced, ?_, coalesce_of_isCoalesced⟩
  intro h
  rwa [h] at hcoalesced

end HeaderMacros.Source
