import HeaderMacros.Proofs.Token.Spacing

/-!
# Maximal munch

What the lexer makes of a line, told without the lexer: the tokens make up the line, each has the
kind of its text, and each takes as much of the line as its kind allows (`Munched`). A line is cut
in one such way only, which is the one that the lexer finds (`tokenize_eq_iff`).

- A run of white space or of bytes of words goes on as far as it can.
- Of the operators that a text starts with, the longest one is taken. The lexer takes the first one
  in its list; in the list no operator comes before a longer one.
- A run of anything else starts where no operator does, and does not stop at an operator inside it.

How much a token takes is told by what comes after it, and less text after it does not change that.
So consecutive tokens of a line are again the tokens of their text (`tokenize_of_slice`).
-/

namespace HeaderMacros.Token

variable {t : Token} {ts : List Token} {line text op rest : Text}

/-! ## Kinds and texts -/

theorem isSpace_classify (text : Text) :
    (classify text).isSpace = (!text.isEmpty && text.all Byte.isSpace) := by
  cases text with
  | nil => rfl
  | cons b text =>
    by_cases hspace : (b :: text).all Byte.isSpace = true
    · rw [classify_of_isSpace (List.cons_ne_nil b text) (List.all_eq_true.1 hspace), hspace]
      rfl
    · rw [classify, if_neg (List.cons_ne_nil b text), if_neg hspace, Bool.eq_false_iff.2 hspace]
      repeat' split
      all_goals rfl

/-- The operators are the operator characters and the operators of several characters. -/
theorem isOperatorText_eq_true_iff :
    isOperatorText op = true ↔ (∃ b ∈ singleCharOperators, op = [b]) ∨ op ∈ multiCharOperators := by
  have hlong (b : UInt8) : [b] ∉ multiCharOperators := by
    intro hmem
    have hlength : ∀ op ∈ multiCharOperators, op.length ≠ 1 := by decide +kernel
    exact hlength _ hmem rfl
  unfold isOperatorText
  split
  · rename_i b
    rw [List.contains_iff_mem]
    constructor
    · exact fun hb => .inl ⟨b, hb, rfl⟩
    · rintro (⟨c, hc, heq⟩ | hmem)
      · rwa [List.singleton_inj.1 heq]
      · exact absurd hmem (hlong b)
  · rename_i hsingle
    rw [List.contains_iff_mem]
    constructor
    · exact .inr
    · rintro (⟨b, -, rfl⟩ | hmem)
      · exact absurd rfl (hsingle b)
      · exact hmem

theorem isOperatorText_of_isOperator (h : (classify text).kind = .operator) :
    isOperatorText text = true := by
  unfold classify at h
  split_ifs at h with hnil hspace hword hop
  exact hop

/-! ## As much as a kind allows -/

/-- A token takes as much as its kind allows of a text that goes on with `rest` after it. -/
def IsLongest (t : Token) (rest : Text) : Prop :=
  match t.kind with
  | .space => ∀ b ∈ rest.head?, Byte.isSpace b = false
  | .word => ∀ b ∈ rest.head?, Byte.isWordByte b = false
  | .operator => ∀ op ∈ multiCharOperators, op <+: t.text ++ rest → op.length ≤ t.text.length
  | .unknown =>
    (∀ b ∈ t.text, isOther b = true) ∧ (∀ b ∈ rest.head?, isOther b = false) ∧
      ∀ op, isOperatorText op = true → ¬ op <+: t.text

/-- The first operator of several characters that is found is the longest one. -/
theorem length_le_of_multiCharOperator? (h : multiCharOperator? text = some (op, rest)) :
    ∀ other ∈ multiCharOperators, other <+: text → other.length ≤ op.length := by
  have hsorted : multiCharOperators.Pairwise fun op later => later.length ≤ op.length := by
    decide +kernel
  intro other hother hstarts
  obtain ⟨tried, found, untried, hall, hfound, hmissed⟩ := List.findSome?_eq_some_iff.1 h
  obtain ⟨after, -, heq⟩ := Option.map_eq_some_iff.1 hfound
  obtain ⟨rfl, -⟩ := Prod.mk.inj heq
  rw [hall, List.mem_append, List.mem_cons] at hother
  rcases hother with htried | rfl | huntried
  · -- An operator that is tried before does not start the text.
    obtain ⟨more, rfl⟩ := hstarts
    have hmissed := hmissed other htried
    rw [Text.dropPrefix?_eq_some_iff.2 rfl] at hmissed
    cases hmissed
  · exact Nat.le_refl _
  · rw [hall] at hsorted
    exact List.rel_of_pairwise_cons (List.pairwise_append.1 hsorted).2.1 huntried

/-- What the lexer takes off a text is as long as its kind allows. -/
theorem LexesBefore.isLongest (h : LexesBefore t rest) : t.IsLongest rest := by
  obtain ⟨b, tail, htext, hlex⟩ := h
  rcases lex_cases b (tail ++ rest) with hb | hb | ⟨hb, op, after, hop⟩ | ⟨hb, hnone, hsingle⟩ |
    ⟨hb, hnone, hsingle⟩
  · rw [lex_of_isSpace hb] at hlex
    obtain ⟨rfl, hrest⟩ := Prod.mk.inj hlex
    exact hrest ▸ head?_dropWhile
  · rw [lex_of_isWordByte hb] at hlex
    obtain ⟨rfl, hrest⟩ := Prod.mk.inj hlex
    exact hrest ▸ head?_dropWhile
  · -- Of the operators of several characters, the longest are tried first.
    rw [lex_of_multiCharOperator? hb hop] at hlex
    obtain ⟨rfl, rfl⟩ := Prod.mk.inj hlex
    intro other hother hstarts
    rw [htext, List.cons_append] at hstarts
    exact length_le_of_multiCharOperator? hop other hother hstarts
  · rw [lex_of_mem_singleCharOperators hb hnone hsingle] at hlex
    obtain ⟨rfl, hrest⟩ := Prod.mk.inj hlex
    intro other hother hstarts
    rw [← hrest] at hstarts
    exact absurd hstarts (multiCharOperator?_eq_none_iff.1 hnone other hother)
  · rw [lex_of_notMem_singleCharOperators hb hnone hsingle] at hlex
    obtain ⟨rfl, hrest⟩ := Prod.mk.inj hlex
    refine ⟨mem_cons_takeWhile hb, hrest ▸ head?_dropWhile, ?_⟩
    intro op hop hstarts
    rcases isOperatorText_eq_true_iff.1 hop with ⟨c, hc, rfl⟩ | hmem
    · obtain ⟨rfl, -⟩ := List.cons_prefix_cons.1 hstarts
      exact hsingle hc
    · -- An operator at the start of the run would be one at the start of the text.
      refine multiCharOperator?_eq_none_iff.1 hnone op hmem (hstarts.trans ?_)
      exact ⟨(tail ++ rest).dropWhile isOther,
        by rw [List.cons_append, List.takeWhile_append_dropWhile]⟩

/-- An operator of several characters is found before a text with which no longer one is. -/
theorem multiCharOperator?_of_longest (hop : op ∈ multiCharOperators)
    (hlongest : ∀ other ∈ multiCharOperators, other <+: op ++ rest → other.length ≤ op.length) :
    multiCharOperator? (op ++ rest) = some (op, rest) := by
  have hstarts : op <+: op ++ rest := ⟨rest, rfl⟩
  cases hfound : multiCharOperator? (op ++ rest) with
  | none => exact absurd hstarts (multiCharOperator?_eq_none_iff.1 hfound op hop)
  | some found =>
    -- What is found is not shorter, because it is the longest, and not longer.
    obtain ⟨hmem, htext⟩ := mem_of_multiCharOperator? hfound
    have hlength : op.length = found.1.length :=
      Nat.le_antisymm (length_le_of_multiCharOperator? hfound op hop hstarts)
        (hlongest found.1 hmem ⟨found.2, htext.symm⟩)
    obtain ⟨hsame, hrest⟩ := List.append_inj htext hlength
    rw [hsame, hrest]

theorem isOther_of_mem_multiCharOperators :
    ∀ op ∈ multiCharOperators, ∀ b ∈ op, isOther b = true := by decide +kernel

/-- An operator of several characters ends where bytes of another sort start. -/
theorem isPrefix_of_isPrefix_append (hop : op ∈ multiCharOperators)
    (hrest : ∀ b ∈ rest.head?, isOther b = false) (h : op <+: text ++ rest) : op <+: text := by
  rcases List.prefix_or_prefix_of_prefix h (List.prefix_append text rest) with h' | h'
  · exact h'
  · -- The operator would go on with the first byte after the text, which is of another sort.
    obtain ⟨more, rfl⟩ := h'
    cases more with
    | nil => exact ⟨[], by simp⟩
    | cons c more =>
      obtain ⟨after, rfl⟩ := (List.prefix_append_right_inj text).1 h
      have hc := isOther_of_mem_multiCharOperators _ hop c (by simp)
      rw [hrest c rfl] at hc
      cases hc

/-- No operator of several characters starts a run of anything else that none starts by itself. -/
theorem multiCharOperator?_run_append (hrest : ∀ b ∈ rest.head?, isOther b = false)
    (htext : ∀ op ∈ multiCharOperators, ¬ op <+: text) :
    multiCharOperator? (text ++ rest) = none :=
  multiCharOperator?_eq_none_iff.2 fun op hop hstarts =>
    htext op hop (isPrefix_of_isPrefix_append hop hrest hstarts)

/-- A token that has the kind of its text and is as long as its kind allows is taken off by the
lexer. -/
theorem IsLongest.lexesBefore (hproper : t.Proper) (h : t.IsLongest rest) : LexesBefore t rest := by
  obtain ⟨kind, text⟩ := t
  obtain ⟨hclassify, hne⟩ := hproper
  dsimp only at hclassify hne
  obtain ⟨b, tail, rfl⟩ := List.exists_cons_of_ne_nil hne
  refine ⟨b, tail, rfl, ?_⟩
  cases kind with
  | space =>
    have hspace : (classify (b :: tail)).isSpace = true := by
      rw [hclassify]
      rfl
    rw [isSpace_classify, List.isEmpty_cons, Bool.not_false, Bool.true_and, List.all_eq_true,
      List.forall_mem_cons] at hspace
    rw [lex_of_isSpace hspace.1, lexRun_append .space b hspace.2 h]
  | word =>
    have hword := isWordByte_of_isWord (t := ⟨.word, b :: tail⟩) hclassify rfl
    obtain ⟨hb, htail⟩ := List.forall_mem_cons.1 hword.2
    rw [lex_of_isWordByte hb, lexRun_append .word b htail h]
  | operator =>
    have hoperator := isOperatorText_of_isOperator (congrArg kind hclassify)
    rcases isOperatorText_eq_true_iff.1 hoperator with ⟨c, hc, hsingle⟩ | hmem
    · -- An operator of several characters would be longer.
      obtain ⟨rfl, rfl⟩ := List.cons.inj hsingle
      have hlong : ∀ op ∈ multiCharOperators, ¬ op.length ≤ 1 := by decide +kernel
      have hnone : multiCharOperator? (b :: rest) = none :=
        multiCharOperator?_eq_none_iff.2 fun op hop hstarts => hlong op hop (h op hop hstarts)
      exact lex_of_mem_singleCharOperators (isOther_of_mem_singleCharOperators b hc) hnone hc
    · exact lex_of_multiCharOperator?
        (isOther_of_mem_multiCharOperators _ hmem b List.mem_cons_self)
        (multiCharOperator?_of_longest hmem h)
  | unknown =>
    -- Nothing in the run is an operator, or the run would end before it.
    obtain ⟨hbytes, hrest, hoperators⟩ := h
    obtain ⟨hb, htail⟩ := List.forall_mem_cons.1 hbytes
    have hnone : multiCharOperator? (b :: tail ++ rest) = none :=
      multiCharOperator?_run_append hrest fun op hop =>
        hoperators op (isOperatorText_eq_true_iff.2 (.inr hop))
    rw [List.cons_append] at hnone
    have hsingle : b ∉ singleCharOperators := fun hb' =>
      hoperators [b] (isOperatorText_eq_true_iff.2 (.inl ⟨b, hb', rfl⟩)) ⟨tail, rfl⟩
    rw [lex_of_notMem_singleCharOperators hb hnone hsingle, lexRun_append .unknown b htail hrest]

/-! ## Lines -/

/-- Every token has the kind of its text and takes as much as its kind allows of what is left of the
line. -/
def Munched (ts : List Token) : Prop :=
  ∀ front t back, ts = front ++ t :: back → t.Proper ∧ t.IsLongest (Tokens.text back)

theorem munched_tokenize (line : Text) : Munched (tokenize line) := by
  intro front t back htokens
  have hsuffix : t :: back <:+ tokenize line := ⟨front, htokens.symm⟩
  have hlexes := (lexesBefore_of_tokenize_eq (tokenize_text_of_isSuffix hsuffix)).1
  exact ⟨eq_classify_of_mem_tokenize (hsuffix.mem List.mem_cons_self), hlexes.isLongest⟩

theorem Munched.tokenize_text (h : Munched ts) : tokenize (Tokens.text ts) = ts := by
  induction ts with
  | nil => rw [Tokens.text, List.flatMap_nil, tokenize]
  | cons t ts ih =>
    obtain ⟨hproper, hlongest⟩ := h [] t ts rfl
    have hrest : Munched ts := fun front u back hts => h (t :: front) u back (congrArg (t :: ·) hts)
    have hlexes := (hlongest.lexesBefore hproper).tokenize
    rwa [ih hrest] at hlexes

/-- The tokens of a line are the only ones that make up the line and take as much as they can. -/
theorem tokenize_eq_iff : tokenize line = ts ↔ Tokens.text ts = line ∧ Munched ts := by
  constructor
  · rintro rfl
    exact ⟨text_tokenize line, munched_tokenize line⟩
  · rintro ⟨rfl, h⟩
    exact h.tokenize_text

/-- The lexer loses nothing and makes no empty token, every token has the kind of its text, and
consecutive tokens are cut again from their texts as they were. With longest tokens there is no
other way to cut the line. -/
theorem tokenize_of_slice (line : Text) :
    Tokens.text (tokenize line) = line ∧
      (∀ t ∈ tokenize line, t.text ≠ [] ∧ t = classify t.text) ∧
      (∀ slice, slice <:+: tokenize line → tokenize (Tokens.text slice) = slice) ∧
      ∀ ts, tokenize line = ts ↔ Tokens.text ts = line ∧ Munched ts := by
  refine ⟨text_tokenize line, ?_, fun slice => tokenize_text_of_isInfix, fun ts => tokenize_eq_iff⟩
  intro t ht
  obtain ⟨hclassify, hne⟩ := eq_classify_of_mem_tokenize ht
  exact ⟨hne, hclassify.symm⟩

/-- A run of anything else that has an operator inside, and brackets that are an operator only side
by side. -/
def bracketLine : Text := ascii "a<<=$&&b [x] []"

/-- The middle of it is cut again as it was. -/
theorem tokenize_of_slice_bracketLine :
    tokenize bracketLine = [word "a", operator "<<=", ⟨.unknown, ascii "$&&"⟩, word "b", blank,
      ⟨.unknown, ascii "["⟩, word "x", ⟨.unknown, ascii "]"⟩, blank, operator "[]"] ∧
    tokenize (ascii "$&&b [") =
      [⟨.unknown, ascii "$&&"⟩, word "b", blank, ⟨.unknown, ascii "["⟩] := by
  have htokens : tokenize bracketLine = [word "a", operator "<<=", ⟨.unknown, ascii "$&&"⟩,
      word "b", blank, ⟨.unknown, ascii "["⟩, word "x", ⟨.unknown, ascii "]"⟩, blank,
      operator "[]"] := by decide +kernel
  have hslice : [⟨.unknown, ascii "$&&"⟩, word "b", blank, ⟨.unknown, ascii "["⟩] <:+:
      tokenize bracketLine :=
    ⟨[word "a", operator "<<="], [word "x", ⟨.unknown, ascii "]"⟩, blank, operator "[]"],
      htokens.symm⟩
  exact ⟨htokens, (tokenize_of_slice bracketLine).2.2.1 _ hslice⟩

end HeaderMacros.Token
