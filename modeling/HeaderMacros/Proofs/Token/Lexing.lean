import HeaderMacros.Proofs.Text.Lines
import HeaderMacros.Token.Lexer

/-!
# What the lexer produces

The lexer loses no byte of a line, gives every token the kind that belongs to its text, and cuts a
piece of a line as it cut the whole line:

- `text_tokenize`: the texts of the tokens make up the line;
- `eq_classify_of_mem_tokenize`: a token is the one that `Token.classify` makes of its text;
- `tokenize_text_of_isInfix`: consecutive tokens of a line, written next to each other, are cut into
  the same tokens again.

The last result rests on `LexesBefore`: where a token ends depends on the text after it, and a
shorter text after it changes nothing.
-/

namespace HeaderMacros

/-! ## Classes of bytes -/

theorem Byte.isSpace_of_isWordByte {b : UInt8} (h : isWordByte b = true) : isSpace b = false := by
  refine Bool.eq_false_iff.2 fun hspace => ?_
  simp only [Byte.isSpace, Bool.or_eq_true, beq_iff_eq, or_assoc] at hspace
  rcases hspace with rfl | rfl | rfl | rfl | rfl | rfl <;> exact absurd h (by decide)

namespace Token

/-! ## Kinds of tokens -/

theorem classify_of_isWordByte {text : Text} (hne : text ≠ [])
    (hword : ∀ b ∈ text, Byte.isWordByte b = true) : classify text = ⟨.word, text⟩ := by
  obtain ⟨b, rest, rfl⟩ := List.exists_cons_of_ne_nil hne
  have hb := Byte.isSpace_of_isWordByte (hword b List.mem_cons_self)
  have hspace : ¬ (b :: rest).all Byte.isSpace = true := fun h =>
    absurd (List.all_eq_true.1 h b List.mem_cons_self) (by rw [hb]; exact Bool.false_ne_true)
  rw [classify, if_neg hne, if_neg hspace, if_pos (List.all_eq_true.2 hword)]

/-- A text is a word exactly if it is not empty and has bytes of words only. -/
theorem isWord_classify (text : Text) :
    (classify text).isWord = (!text.isEmpty && text.all Byte.isWordByte) := by
  cases text with
  | nil => rfl
  | cons b text =>
    by_cases hword : (b :: text).all Byte.isWordByte = true
    · rw [classify_of_isWordByte (List.cons_ne_nil b text) (List.all_eq_true.1 hword), hword]
      rfl
    · rw [classify, if_neg (List.cons_ne_nil b text), if_neg hword, Bool.eq_false_iff.2 hword]
      repeat' split
      all_goals rfl

/-- A word token that has the kind of its text has bytes of words only. -/
theorem isWordByte_of_isWord {t : Token} (ht : classify t.text = t) (hword : t.isWord = true) :
    t.text ≠ [] ∧ ∀ b ∈ t.text, Byte.isWordByte b = true := by
  rw [← ht, isWord_classify, Bool.and_eq_true, Bool.not_eq_true', List.isEmpty_eq_false_iff,
    List.all_eq_true] at hword
  exact hword

theorem classify_of_isSpace {text : Text} (hne : text ≠ [])
    (hspace : ∀ b ∈ text, Byte.isSpace b = true) : classify text = ⟨.space, text⟩ := by
  rw [classify, if_neg hne, if_pos (List.all_eq_true.2 hspace)]

theorem isOther_eq_true_iff {b : UInt8} :
    isOther b = true ↔ Byte.isSpace b = false ∧ Byte.isWordByte b = false := by
  rw [isOther, Bool.and_eq_true, Bool.not_eq_true', Bool.not_eq_true']

/-- A text whose first byte is neither of a word nor white space is an operator or unknown. -/
theorem classify_of_isOther {b : UInt8} (hb : isOther b = true) (text : Text) :
    classify (b :: text) =
      ⟨if isOperatorText (b :: text) then .operator else .unknown, b :: text⟩ := by
  rw [isOther_eq_true_iff] at hb
  rw [classify, if_neg (List.cons_ne_nil b text), if_neg (by simp [hb.1]), if_neg (by simp [hb.2])]
  split <;> rfl

theorem classify_of_mem_multiCharOperators :
    ∀ op ∈ multiCharOperators, classify op = ⟨.operator, op⟩ := by decide +kernel

theorem classify_of_mem_singleCharOperators :
    ∀ b ∈ singleCharOperators, classify [b] = ⟨.operator, [b]⟩ := by decide +kernel

/-! ## One token -/

theorem mem_of_multiCharOperator? {text op rest : Text}
    (h : multiCharOperator? text = some (op, rest)) :
    op ∈ multiCharOperators ∧ text = op ++ rest := by
  obtain ⟨pattern, hmem, hsome⟩ := List.exists_of_findSome?_eq_some h
  obtain ⟨r, hr, heq⟩ := Option.map_eq_some_iff.1 hsome
  obtain ⟨rfl, rfl⟩ := Prod.mk.inj heq
  exact ⟨hmem, Text.eq_append_of_dropPrefix? hr⟩

/-- No operator of several characters is found exactly if the text starts with none. -/
theorem multiCharOperator?_eq_none_iff {text : Text} :
    multiCharOperator? text = none ↔ ∀ op ∈ multiCharOperators, ¬ op <+: text := by
  simp only [multiCharOperator?, List.findSome?_eq_none_iff, Option.map_eq_none_iff]
  refine forall₂_congr fun op _ => ?_
  rw [Option.eq_none_iff_forall_ne_some]
  refine ⟨fun h ⟨rest, hrest⟩ => h rest (Text.dropPrefix?_eq_some_iff.2 hrest.symm),
    fun h rest hrest => h ⟨rest, (Text.eq_append_of_dropPrefix? hrest).symm⟩⟩

theorem head?_dropWhile {α : Type} {p : α → Bool} {l : List α} :
    ∀ a ∈ (l.dropWhile p).head?, p a = false := by
  intro a ha
  have hnot := List.head?_dropWhile_not p l
  rw [Option.mem_def.1 ha] at hnot
  exact hnot

/-- Whether the lexer takes `t` off a text that is `t` with `rest` after it. -/
def LexesBefore (t : Token) (rest : Text) : Prop :=
  ∃ b tail, t.text = b :: tail ∧ lex b (tail ++ rest) = (t, rest)

/-- Such a token is the first one. -/
theorem LexesBefore.tokenize {t : Token} {rest : Text} (h : LexesBefore t rest) :
    tokenize (t.text ++ rest) = t :: tokenize rest := by
  obtain ⟨b, tail, htext, hlex⟩ := h
  rw [htext, List.cons_append, Token.tokenize, hlex]

theorem lex_of_isSpace {b : UInt8} (hb : Byte.isSpace b = true) (text : Text) :
    lex b text = lexRun .space Byte.isSpace b text := if_pos hb

theorem lex_of_isWordByte {b : UInt8} (hb : Byte.isWordByte b = true) (text : Text) :
    lex b text = lexRun .word Byte.isWordByte b text := by
  rw [lex, if_neg (Bool.eq_false_iff.1 (Byte.isSpace_of_isWordByte hb)), if_pos hb]

theorem lex_of_multiCharOperator? {b : UInt8} {text op rest : Text} (hb : isOther b = true)
    (hop : multiCharOperator? (b :: text) = some (op, rest)) :
    lex b text = (⟨.operator, op⟩, rest) := by
  obtain ⟨hspace, hword⟩ := isOther_eq_true_iff.1 hb
  rw [lex, hspace, hword, if_neg Bool.false_ne_true, if_neg Bool.false_ne_true, hop]

theorem lex_of_mem_singleCharOperators {b : UInt8} {text : Text} (hb : isOther b = true)
    (hnone : multiCharOperator? (b :: text) = none) (hsingle : b ∈ singleCharOperators) :
    lex b text = (⟨.operator, [b]⟩, text) := by
  obtain ⟨hspace, hword⟩ := isOther_eq_true_iff.1 hb
  rw [lex, hspace, hword, if_neg Bool.false_ne_true, if_neg Bool.false_ne_true, hnone]
  exact if_pos (List.contains_iff_mem.2 hsingle)

theorem lex_of_notMem_singleCharOperators {b : UInt8} {text : Text} (hb : isOther b = true)
    (hnone : multiCharOperator? (b :: text) = none) (hsingle : b ∉ singleCharOperators) :
    lex b text = lexRun .unknown isOther b text := by
  obtain ⟨hspace, hword⟩ := isOther_eq_true_iff.1 hb
  rw [lex, hspace, hword, if_neg Bool.false_ne_true, if_neg Bool.false_ne_true, hnone]
  exact if_neg (by rwa [List.contains_iff_mem])

/-- The shapes of a first token: white space, a word, an operator of several characters, an operator
character, or a run of anything else. -/
theorem lex_cases (b : UInt8) (text : Text) :
    Byte.isSpace b = true ∨
    Byte.isWordByte b = true ∨
    (isOther b = true ∧ ∃ op rest, multiCharOperator? (b :: text) = some (op, rest)) ∨
    (isOther b = true ∧ multiCharOperator? (b :: text) = none ∧ b ∈ singleCharOperators) ∨
    (isOther b = true ∧ multiCharOperator? (b :: text) = none ∧ b ∉ singleCharOperators) := by
  by_cases hspace : Byte.isSpace b = true
  · exact .inl hspace
  by_cases hword : Byte.isWordByte b = true
  · exact .inr (.inl hword)
  have hother : isOther b = true :=
    isOther_eq_true_iff.2 ⟨Bool.eq_false_iff.2 hspace, Bool.eq_false_iff.2 hword⟩
  refine .inr (.inr ?_)
  cases multiCharOperator? (b :: text) with
  | some found => exact .inl ⟨hother, found.1, found.2, rfl⟩
  | none =>
    by_cases hsingle : b ∈ singleCharOperators
    · exact .inr (.inl ⟨hother, rfl, hsingle⟩)
    · exact .inr (.inr ⟨hother, rfl, hsingle⟩)

theorem text_lex_append (b : UInt8) (text : Text) :
    (lex b text).1.text ++ (lex b text).2 = b :: text := by
  have hrun (kind : TokenKind) (p : UInt8 → Bool) :
      (lexRun kind p b text).1.text ++ (lexRun kind p b text).2 = b :: text := by
    rw [lexRun, List.cons_append, List.takeWhile_append_dropWhile]
  rcases lex_cases b text with hb | hb | ⟨hb, op, rest, hop⟩ | ⟨hb, hnone, hsingle⟩ |
    ⟨hb, hnone, hsingle⟩
  · rw [lex_of_isSpace hb, hrun]
  · rw [lex_of_isWordByte hb, hrun]
  · rw [lex_of_multiCharOperator? hb hop, (mem_of_multiCharOperator? hop).2]
  · rw [lex_of_mem_singleCharOperators hb hnone hsingle]
    rfl
  · rw [lex_of_notMem_singleCharOperators hb hnone hsingle, hrun]

theorem mem_cons_takeWhile {p : UInt8 → Bool} {b : UInt8} (hb : p b = true) {text : Text} :
    ∀ c ∈ b :: text.takeWhile p, p c = true := by
  intro c hc
  rcases List.mem_cons.1 hc with rfl | hc
  · exact hb
  · exact List.all_eq_true.1 List.all_takeWhile c hc

theorem classify_text_lex (b : UInt8) (text : Text) :
    classify (lex b text).1.text = (lex b text).1 := by
  rcases lex_cases b text with hb | hb | ⟨hb, op, rest, hop⟩ | ⟨hb, hnone, hsingle⟩ |
    ⟨hb, hnone, hsingle⟩
  · rw [lex_of_isSpace hb, lexRun,
      classify_of_isSpace (List.cons_ne_nil b _) (mem_cons_takeWhile hb)]
  · rw [lex_of_isWordByte hb, lexRun,
      classify_of_isWordByte (List.cons_ne_nil b _) (mem_cons_takeWhile hb)]
  · rw [lex_of_multiCharOperator? hb hop,
      classify_of_mem_multiCharOperators op (mem_of_multiCharOperator? hop).1]
  · rw [lex_of_mem_singleCharOperators hb hnone hsingle,
      classify_of_mem_singleCharOperators b hsingle]
  · -- Were the run an operator of several characters, it would have been found before the run.
    have hop : isOperatorText (b :: text.takeWhile isOther) = false := by
      refine Bool.eq_false_iff.2 fun htrue => ?_
      unfold isOperatorText at htrue
      split at htrue
      · rename_i c hrun
        rw [(List.cons.inj hrun).1] at hsingle
        exact hsingle (List.contains_iff_mem.1 htrue)
      · refine multiCharOperator?_eq_none_iff.1 hnone _ (List.contains_iff_mem.1 htrue) ?_
        exact ⟨text.dropWhile isOther, by rw [List.cons_append, List.takeWhile_append_dropWhile]⟩
    rw [lex_of_notMem_singleCharOperators hb hnone hsingle, lexRun, classify_of_isOther hb, hop]
    rfl

/-! ## Less text after a token -/

/-- The first token of a text is cut off before what follows it. -/
theorem lexesBefore_lex (b : UInt8) (text : Text) : LexesBefore (lex b text).1 (lex b text).2 := by
  have happend := text_lex_append b text
  cases htext : (lex b text).1.text with
  | nil =>
    have hlen := congrArg List.length happend
    have hle := length_rest_lex_le b text
    rw [htext, List.nil_append, List.length_cons] at hlen
    omega
  | cons c tail =>
    rw [htext, List.cons_append, List.cons.injEq] at happend
    obtain ⟨rfl, happend⟩ := happend
    exact ⟨c, tail, htext, by rw [happend]⟩

/-- A run ends before a text that does not go on with it. -/
theorem lexRun_append {p : UInt8 → Bool} {tail rest : Text} (kind : TokenKind) (b : UInt8)
    (htail : ∀ c ∈ tail, p c = true) (hrest : ∀ c ∈ rest.head?, p c = false) :
    lexRun kind p b (tail ++ rest) = (⟨kind, b :: tail⟩, rest) := by
  obtain ⟨htake, hdrop⟩ := Text.span_append htail hrest
  rw [lexRun, htake, hdrop]

/-- Finding no operator of several characters, none is found in less text. -/
theorem multiCharOperator?_eq_none_of_isPrefix {less more : Text} (hless : less <+: more)
    (h : multiCharOperator? more = none) : multiCharOperator? less = none := by
  rw [multiCharOperator?_eq_none_iff] at h ⊢
  exact fun op hop hstart => h op hop (hstart.trans hless)

/-- An operator of several characters is found again with less text after it. -/
theorem multiCharOperator?_append_of_isPrefix (op : Text) {less more : Text}
    (hless : less <+: more) (h : multiCharOperator? (op ++ more) = some (op, more)) :
    multiCharOperator? (op ++ less) = some (op, less) := by
  obtain ⟨tried, pattern, untried, hall, hfound, hmissed⟩ := List.findSome?_eq_some_iff.1 h
  obtain ⟨rest, -, heq⟩ := Option.map_eq_some_iff.1 hfound
  obtain ⟨rfl, -⟩ := Prod.mk.inj heq
  refine List.findSome?_eq_some_iff.2 ⟨tried, pattern, untried, hall, ?_, fun other hother => ?_⟩
  · rw [Text.dropPrefix?_eq_some_iff.2 rfl, Option.map_some]
  · -- An operator that is tried earlier and starts the shorter text would start the longer one.
    have hnone := hmissed other hother
    rw [Option.map_eq_none_iff, Option.eq_none_iff_forall_ne_some] at hnone ⊢
    obtain ⟨suffix, rfl⟩ := hless
    intro after hafter
    refine hnone (after ++ suffix) (Text.dropPrefix?_eq_some_iff.2 ?_)
    rw [← List.append_assoc, Text.eq_append_of_dropPrefix? hafter, List.append_assoc]

/-- A token is cut off as before when less text follows it. -/
theorem LexesBefore.of_isPrefix {t : Token} {less more : Text} (h : LexesBefore t more)
    (hless : less <+: more) : LexesBefore t less := by
  obtain ⟨b, tail, htext, hlex⟩ := h
  have hhead {p : UInt8 → Bool} (hmore : ∀ c ∈ more.head?, p c = false) :
      ∀ c ∈ less.head?, p c = false := by
    obtain ⟨suffix, rfl⟩ := hless
    cases less with
    | nil => exact fun c hc => absurd hc (by simp)
    | cons c less => exact hmore
  have hwhole : b :: (tail ++ less) <+: b :: (tail ++ more) := by
    obtain ⟨suffix, rfl⟩ := hless
    exact ⟨suffix, by simp⟩
  -- A run that is taken from the longer text is taken from the shorter one.
  have hrun {kind : TokenKind} {p : UInt8 → Bool}
      (h : lexRun kind p b (tail ++ more) = (t, more)) :
      lexRun kind p b (tail ++ less) = (t, less) := by
    obtain ⟨rfl, hmore⟩ := Prod.mk.inj h
    obtain ⟨-, htail⟩ := List.cons.inj htext
    have hall : ∀ c ∈ tail, p c = true := fun c hc =>
      List.all_eq_true.1 List.all_takeWhile c (htail ▸ hc)
    rw [lexRun_append kind b hall (hhead (hmore ▸ head?_dropWhile)), htail]
  refine ⟨b, tail, htext, ?_⟩
  rcases lex_cases b (tail ++ more) with hb | hb | ⟨hb, op, rest, hop⟩ | ⟨hb, hnone, hsingle⟩ |
    ⟨hb, hnone, hsingle⟩
  · rw [lex_of_isSpace hb] at hlex ⊢
    exact hrun hlex
  · rw [lex_of_isWordByte hb] at hlex ⊢
    exact hrun hlex
  · rw [lex_of_multiCharOperator? hb hop] at hlex
    obtain ⟨rfl, rfl⟩ := Prod.mk.inj hlex
    have htext : op = b :: tail := htext
    subst htext
    exact lex_of_multiCharOperator? hb
      (multiCharOperator?_append_of_isPrefix (b :: tail) hless hop)
  · rw [lex_of_mem_singleCharOperators hb hnone hsingle] at hlex
    obtain ⟨rfl, -⟩ := Prod.mk.inj hlex
    obtain ⟨-, rfl⟩ := List.cons.inj htext
    exact lex_of_mem_singleCharOperators hb (multiCharOperator?_eq_none_of_isPrefix hwhole hnone)
      hsingle
  · rw [lex_of_notMem_singleCharOperators hb hnone hsingle] at hlex
    rw [lex_of_notMem_singleCharOperators hb (multiCharOperator?_eq_none_of_isPrefix hwhole hnone)
      hsingle]
    exact hrun hlex

/-! ## Tokens without white space at their ends -/

theorem trimRight_isPrefix (ts : List Token) : Tokens.trimRight ts <+: ts := by
  have hdrop : ts.reverse.dropWhile isSpace <:+ ts.reverse := List.dropWhile_suffix isSpace
  rw [← List.reverse_prefix, List.reverse_reverse] at hdrop
  exact hdrop

/-- Removing white space at the ends takes nothing from the middle. -/
theorem trim_isInfix (ts : List Token) : Tokens.trim ts <:+: ts :=
  (trimRight_isPrefix _).isInfix.trans (List.dropWhile_suffix isSpace).isInfix

/-- After removing white space at the ends there is none. -/
theorem isSpace_ends_trim (ts : List Token) :
    (∀ t ∈ (Tokens.trim ts).head?, t.isSpace = false) ∧
      ∀ t ∈ (Tokens.trim ts).getLast?, t.isSpace = false := by
  refine ⟨fun t ht => ?_, fun t ht => ?_⟩
  · obtain ⟨after, hafter⟩ := trimRight_isPrefix (Tokens.trimLeft ts)
    refine head?_dropWhile (l := ts) t ?_
    change t ∈ (Tokens.trimLeft ts).head?
    have htrim : (Tokens.trimRight (Tokens.trimLeft ts)).head? = some t := ht
    rw [← hafter, List.head?_append, htrim]
    rfl
  · rw [Tokens.trim, Tokens.trimRight, List.getLast?_reverse] at ht
    exact head?_dropWhile t ht

/-- Tokens without white space at their ends stay as they are. -/
theorem trim_eq_self {ts : List Token} (hhead : ∀ t ∈ ts.head?, t.isSpace = false)
    (hlast : ∀ t ∈ ts.getLast?, t.isSpace = false) : Tokens.trim ts = ts := by
  have hdrop (l : List Token) (h : ∀ t ∈ l.head?, t.isSpace = false) : l.dropWhile isSpace = l := by
    cases l with
    | nil => rfl
    | cons t l => exact List.dropWhile_cons_of_neg (Bool.eq_false_iff.1 (h t rfl))
  rw [Tokens.trim, Tokens.trimLeft, hdrop ts hhead, Tokens.trimRight, hdrop ts.reverse,
    List.reverse_reverse]
  rwa [List.head?_reverse]

theorem trim_trim (ts : List Token) : Tokens.trim (Tokens.trim ts) = Tokens.trim ts :=
  trim_eq_self (isSpace_ends_trim ts).1 (isSpace_ends_trim ts).2

/-! ## Lines -/

/-- The tokens of a line have the texts that make up the line. -/
theorem text_tokenize (line : Text) : Tokens.text (tokenize line) = line := by
  fun_induction tokenize line with
  | case1 => rfl
  | case2 b text ih =>
    rw [Tokens.text, List.flatMap_cons, ← Tokens.text, ih, text_lex_append]

/-- A token of a line has the kind of its text, and its text is not empty. -/
theorem eq_classify_of_mem_tokenize {line : Text} {t : Token} (h : t ∈ tokenize line) :
    classify t.text = t ∧ t.text ≠ [] := by
  fun_induction tokenize line with
  | case1 => cases h
  | case2 b text ih =>
    rcases List.mem_cons.1 h with rfl | h
    · obtain ⟨c, tail, htext, -⟩ := lexesBefore_lex b text
      exact ⟨classify_text_lex b text, by rw [htext]; exact List.cons_ne_nil c tail⟩
    · exact ih h

/-- A token of a line is white space, a word, or has neither white space nor bytes of words. -/
theorem isSpace_or_isWord_or_isOther_of_mem_tokenize {line : Text} {t : Token}
    (h : t ∈ tokenize line) :
    t.isSpace = true ∨ t.isWord = true ∨ ∀ b ∈ t.text, isOther b = true := by
  fun_induction tokenize line with
  | case1 => cases h
  | case2 b text ih =>
    rcases List.mem_cons.1 h with rfl | h
    · rcases lex_cases b text with hb | hb | ⟨hb, op, rest, hop⟩ | ⟨hb, hnone, hsingle⟩ |
        ⟨hb, hnone, hsingle⟩
      · exact .inl (by rw [lex_of_isSpace hb]; rfl)
      · exact .inr (.inl (by rw [lex_of_isWordByte hb]; rfl))
      · rw [lex_of_multiCharOperator? hb hop]
        have hall : ∀ op ∈ multiCharOperators, ∀ b ∈ op, isOther b = true := by decide +kernel
        exact .inr (.inr (hall op (mem_of_multiCharOperator? hop).1))
      · rw [lex_of_mem_singleCharOperators hb hnone hsingle]
        exact .inr (.inr fun c hc => List.mem_singleton.1 hc ▸ hb)
      · rw [lex_of_notMem_singleCharOperators hb hnone hsingle]
        exact .inr (.inr (mem_cons_takeWhile hb))
    · exact ih h

/-- A token of a line that is not white space has no white space in it. -/
theorem isSpace_of_mem_text {line : Text} {t : Token} (h : t ∈ tokenize line)
    (hspace : t.isSpace = false) : ∀ b ∈ t.text, Byte.isSpace b = false := by
  intro b hb
  rcases isSpace_or_isWord_or_isOther_of_mem_tokenize h with h' | h' | h'
  · exact absurd h' (Bool.eq_false_iff.1 hspace)
  · have hbytes := (isWordByte_of_isWord (eq_classify_of_mem_tokenize h).1 h').2
    exact Byte.isSpace_of_isWordByte (hbytes b hb)
  · exact (isOther_eq_true_iff.1 (h' b hb)).1

/-- A line without white space has no token of white space. -/
theorem isSpace_of_mem_tokenize {line : Text} (hline : ∀ b ∈ line, Byte.isSpace b = false)
    {t : Token} (h : t ∈ tokenize line) : t.isSpace = false := by
  obtain ⟨hclassify, hne⟩ := eq_classify_of_mem_tokenize h
  obtain ⟨b, hb⟩ := List.exists_mem_of_ne_nil _ hne
  have hsolid : Byte.isSpace b = false := by
    refine hline b ?_
    rw [← text_tokenize line]
    exact List.mem_flatMap.2 ⟨t, h, hb⟩
  have hall : ¬ t.text.all Byte.isSpace = true := fun hall =>
    Bool.eq_false_iff.1 hsolid (List.all_eq_true.1 hall b hb)
  rw [← hclassify, classify, if_neg hne, if_neg hall]
  repeat' split
  all_goals rfl

/-- Each token of a line is cut off before the texts of the tokens after it. -/
theorem lexesBefore_of_tokenize_eq {line : Text} {t : Token} {ts : List Token}
    (h : tokenize line = t :: ts) :
    LexesBefore t (Tokens.text ts) ∧ tokenize (Tokens.text ts) = ts := by
  cases line with
  | nil => rw [tokenize] at h; cases h
  | cons b text =>
    rw [tokenize] at h
    obtain ⟨rfl, rfl⟩ := List.cons.inj h
    rw [text_tokenize]
    exact ⟨lexesBefore_lex b text, rfl⟩

/-- The tokens from somewhere on are cut again from their texts. -/
theorem tokenize_text_of_isSuffix {line : Text} {ts : List Token} (h : ts <:+ tokenize line) :
    tokenize (Tokens.text ts) = ts := by
  obtain ⟨before, h⟩ := h
  induction before generalizing line with
  | nil => rw [← List.nil_append ts, h, text_tokenize]
  | cons t before ih =>
    exact ih (lexesBefore_of_tokenize_eq h.symm).2.symm

/-- Consecutive tokens of a line are cut again from their texts. -/
theorem tokenize_text_of_isInfix {line : Text} {ts : List Token} (h : ts <:+: tokenize line) :
    tokenize (Tokens.text ts) = ts := by
  obtain ⟨before, after, h⟩ := h
  have hsuffix : tokenize (Tokens.text (ts ++ after)) = ts ++ after :=
    tokenize_text_of_isSuffix ⟨before, by rw [← h, List.append_assoc]⟩
  clear h
  induction ts with
  | nil => exact tokenize.eq_1
  | cons t ts ih =>
    obtain ⟨hfirst, hrest⟩ := lexesBefore_of_tokenize_eq hsuffix
    have hless : Tokens.text ts <+: Tokens.text (ts ++ after) :=
      ⟨Tokens.text after, by rw [Tokens.text, Tokens.text, Tokens.text, List.flatMap_append]⟩
    have hcut := (hfirst.of_isPrefix hless).tokenize
    rw [ih hrest] at hcut
    rwa [Tokens.text, List.flatMap_cons]

end Token

end HeaderMacros
