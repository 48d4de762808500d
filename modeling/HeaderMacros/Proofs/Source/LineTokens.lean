import HeaderMacros.Proofs.Source.Coalesced
import HeaderMacros.Proofs.Source.Placement
import HeaderMacros.Proofs.Token.MaximalMunch

/-!
# The tokens of coalesced lines

Coalescing white space changes no token of a line but those of white space. No two tokens run
together, because white space between them is shortened and not dropped, and none falls apart,
because nothing is put in where there was no white space.

- `Token.withoutSpace_tokenize_append_cons`: a byte of white space parts the tokens of a line into
  those before it and those after it. All that is said here about tokens follows from this.
- `Squeezed.withoutSpace_tokenize`: a squeezed text has the tokens of its source, also with the same
  text before both. At the start of a line, where a run is dropped, there is no such text.
- `Squeezed.lines`: a text is squeezed line by line.
- `tokens_coalesce`: every line keeps its place and its tokens.
-/

namespace HeaderMacros

/-! ## White space between tokens -/

namespace Token

variable {t : Token} {b : UInt8} {more run : Text}

theorem isOther_of_isSpace (hb : Byte.isSpace b = true) : isOther b = false := by
  rw [isOther, hb]
  rfl

theorem isWordByte_of_isSpace (hb : Byte.isSpace b = true) : Byte.isWordByte b = false := by
  refine Bool.eq_false_iff.2 fun hword => ?_
  rw [Byte.isSpace_of_isWordByte hword] at hb
  cases hb

/-- A token that is not white space is as long as it can be also if white space comes after what
follows it. -/
theorem IsLongest.append_cons (h : t.IsLongest more) (ht : t.isSpace = false)
    (hb : Byte.isSpace b = true) (rest : Text) : t.IsLongest (more ++ b :: rest) := by
  -- What follows the token starts as before, or with the white space.
  have hhead {p : UInt8 → Bool} (hmore : ∀ c ∈ more.head?, p c = false) (hp : p b = false) :
      ∀ c ∈ (more ++ b :: rest).head?, p c = false := by
    cases more with
    | nil =>
      intro c hc
      rwa [← Option.some.inj hc]
    | cons c more => exact hmore
  obtain ⟨kind, text⟩ := t
  cases kind with
  | space => cases ht
  | word => exact hhead h (isWordByte_of_isSpace hb)
  | operator =>
    intro op hop hstarts
    rw [← List.append_assoc] at hstarts
    have hends : ∀ c ∈ (b :: rest).head?, isOther c = false :=
      fun c hc => Option.some.inj hc ▸ isOther_of_isSpace hb
    exact h op hop (isPrefix_of_isPrefix_append hop hends hstarts)
  | unknown =>
    obtain ⟨hbytes, hmore, hoperators⟩ := h
    exact ⟨hbytes, hhead hmore (isOther_of_isSpace hb), hoperators⟩

/-- A token that is not white space is cut off as before when white space and any text come after
what follows it. -/
theorem LexesBefore.append_cons (h : LexesBefore t more) (ht : t.isSpace = false)
    (hb : Byte.isSpace b = true) (rest : Text) : LexesBefore t (more ++ b :: rest) := by
  have hproper : t.Proper := by
    obtain ⟨c, tail, htext, hlex⟩ := h
    have hclassify := classify_text_lex c (tail ++ more)
    rw [hlex] at hclassify
    exact ⟨hclassify, by rw [htext]; exact List.cons_ne_nil c tail⟩
  exact (h.isLongest.append_cons ht hb rest).lexesBefore hproper

/-- White space in front of a line makes no other tokens. -/
theorem withoutSpace_tokenize_run_append (hrun : ∀ b ∈ run, Byte.isSpace b = true) (rest : Text) :
    Tokens.withoutSpace (tokenize (run ++ rest)) = Tokens.withoutSpace (tokenize rest) := by
  obtain ⟨blanks, line, rfl, hblanks, hline⟩ := Text.exists_span Byte.isSpace rest
  rw [withoutSpace_tokenize_append hblanks hline, ← List.append_assoc]
  exact withoutSpace_tokenize_append (List.forall_mem_append.2 ⟨hrun, hblanks⟩) hline

/-- White space parts the tokens of a line into those before it and those after it. -/
theorem withoutSpace_tokenize_append_cons (hb : Byte.isSpace b = true) (front rest : Text) :
    Tokens.withoutSpace (tokenize (front ++ b :: rest)) =
      Tokens.withoutSpace (tokenize front) ++ Tokens.withoutSpace (tokenize rest) := by
  fun_induction tokenize front with
  | case1 => exact withoutSpace_tokenize_run_append (List.forall_mem_singleton.2 hb) rest
  | case2 c text ih =>
    rw [← text_lex_append c text, List.append_assoc]
    cases hspace : (lex c text).1.isSpace with
    | true =>
      -- The run may go on with the byte, so its token need not be a token of the whole line.
      have hrun : ∀ d ∈ (lex c text).1.text, Byte.isSpace d = true := by
        rw [← classify_text_lex c text, isSpace_classify, Bool.and_eq_true] at hspace
        exact List.all_eq_true.1 hspace.2
      rw [withoutSpace_tokenize_run_append hrun, ih, Tokens.withoutSpace_cons_of_space hspace]
    | false =>
      have hlexes := (lexesBefore_lex c text).append_cons hspace hb rest
      rw [hlexes.tokenize, Tokens.withoutSpace_cons_of_solid hspace, ih,
        Tokens.withoutSpace_cons_of_solid hspace, List.cons_append]

end Token

namespace Source

variable {atStart : Bool} {source out run : Text} {b : UInt8}

open Token Tokens

theorem isSpace_of_isLineSpace (hb : isLineSpace b = true) : Byte.isSpace b = true := by
  rcases isLineSpace_eq_true_iff.1 hb with rfl | rfl | rfl | rfl | rfl <;> rfl

namespace Squeezed

/-! ## Squeezed texts -/

/-- Squeezing a text changes no token but those of white space. The induction carries the text of
the line that is already read; there is none where a line starts. -/
theorem withoutSpace_tokenize (h : Squeezed atStart source out) {front : Text}
    (hfront : atStart = true → front = []) :
    withoutSpace (tokenize (front ++ out)) = withoutSpace (tokenize (front ++ source)) := by
  induction h generalizing front with
  | nil => rfl
  | @keep atStart source out b h ih =>
    by_cases hb : b = Byte.newline
    · -- The next line has tokens of its own.
      subst hb
      rw [withoutSpace_tokenize_append_cons rfl, withoutSpace_tokenize_append_cons rfl]
      exact congrArg _ (ih fun _ => rfl)
    · have hinside : (b == Byte.newline) = true → front ++ [b] = [] :=
        fun h => absurd (beq_iff_eq.1 h) hb
      rw [List.append_cons, List.append_cons front b source]
      exact ih hinside
  | @gap run source out hne hrun h ih =>
    -- The run and the space part what is read from what follows in the same way.
    obtain ⟨c, run, rfl⟩ := List.exists_cons_of_ne_nil hne
    obtain ⟨hc, hrun⟩ := List.forall_mem_cons.1 hrun
    rw [List.cons_append, withoutSpace_tokenize_append_cons rfl,
      withoutSpace_tokenize_append_cons (isSpace_of_isLineSpace hc),
      withoutSpace_tokenize_run_append fun d hd => isSpace_of_isLineSpace (hrun d hd)]
    exact congrArg _ (ih fun _ => rfl)
  | @indent run source out hne hrun h ih =>
    obtain rfl := hfront rfl
    rw [List.nil_append, List.nil_append,
      withoutSpace_tokenize_run_append fun d hd => isSpace_of_isLineSpace (hrun d hd)]
    exact ih fun _ => rfl

/-! ## Lines -/

/-- A text is squeezed line by line: the first line from where the text starts, which may be inside
a line, and every other line from its own start. -/
theorem exists_lines (h : Squeezed atStart source out) :
    ∃ first others first' others', Text.lines source = first :: others ∧
      Text.lines out = first' :: others' ∧ Squeezed atStart first first' ∧
      List.Forall₂ (Squeezed true) others others' := by
  have hinside {run : Text} (hrun : ∀ b ∈ run, isLineSpace b = true) : Byte.newline ∉ run :=
    fun hmem => ne_of_isLineSpace (hrun _ hmem) (by decide) rfl
  induction h with
  | nil => exact ⟨[], [], [], [], rfl, rfl, .nil, .nil⟩
  | @keep atStart source out b h ih =>
    obtain ⟨first, others, first', others', hsource, hout, hfirst, hothers⟩ := ih
    by_cases hb : b = Byte.newline
    · subst hb
      refine ⟨[], first :: others, [], first' :: others', ?_, ?_, .nil, .cons hfirst hothers⟩
      · rw [← hsource, Text.lines, Text.splitOn, if_pos rfl, Text.lines]
      · rw [← hout, Text.lines, Text.splitOn, if_pos rfl, Text.lines]
    · exact ⟨b :: first, others, b :: first', others', Text.splitOn_cons_of_ne hb hsource,
        Text.splitOn_cons_of_ne hb hout, .keep b hfirst, hothers⟩
  | @gap run source out hne hrun h ih =>
    obtain ⟨first, others, first', others', hsource, hout, hfirst, hothers⟩ := ih
    exact ⟨run ++ first, others, Byte.space :: first', others',
      Text.splitOn_append_of_notMem (hinside hrun) hsource,
      Text.splitOn_cons_of_ne (by decide) hout, .gap hne hrun hfirst, hothers⟩
  | @indent run source out hne hrun h ih =>
    obtain ⟨first, others, first', others', hsource, hout, hfirst, hothers⟩ := ih
    exact ⟨run ++ first, others, first', others',
      Text.splitOn_append_of_notMem (hinside hrun) hsource, hout, .indent hne hrun hfirst, hothers⟩

theorem lines (h : Squeezed true source out) :
    List.Forall₂ (Squeezed true) (Text.lines source) (Text.lines out) := by
  obtain ⟨first, others, first', others', hsource, hout, hfirst, hothers⟩ := h.exists_lines
  rw [hsource, hout]
  exact .cons hfirst hothers

end Squeezed

/-- Coalescing white space keeps the number of lines, and every line keeps its tokens but for those
of white space. -/
theorem tokens_coalesce (text : Text) :
    newlines (coalesce text) = newlines text ∧
      ∀ k : Nat, ((Text.lines (coalesce text))[k]?).map (fun line => withoutSpace (tokenize line)) =
        ((Text.lines text)[k]?).map (fun line => withoutSpace (tokenize line)) := by
  refine ⟨(keeps_coalesce text).newlines_eq, fun k => ?_⟩
  have hlines : List.Forall₂ (Squeezed true) (Text.lines text) (Text.lines (coalesce text)) :=
    (squeezed_coalesceStretches true [] text).lines
  have htokens : (Text.lines text).map (fun line => withoutSpace (tokenize line)) =
      (Text.lines (coalesce text)).map (fun line => withoutSpace (tokenize line)) := by
    rw [← List.forall₂_eq_eq_eq, List.forall₂_map_left_iff, List.forall₂_map_right_iff]
    exact hlines.imp fun line out hline => (hline.withoutSpace_tokenize fun _ => rfl).symm
  rw [← List.getElem?_map, ← List.getElem?_map, htokens]

/-- White space after a raw string that ends inside a line is not at the start of the line. -/
example : Text.lines (coalesce (ascii "  a\tR\"(\n  )\"\t\tb\n\tc")) =
    [ascii "a R\"(", ascii "  )\" b", ascii "c"] := by decide +kernel

end Source

end HeaderMacros
