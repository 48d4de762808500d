import HeaderMacros.Proofs.Macro.Parsed
import HeaderMacros.Proofs.Macro.Spelling
import HeaderMacros.Proofs.Token.WithoutSpace

/-!
# Lines with white space between their tokens

Words and operator characters may be written with any white space between them. Where a word and an
operator character are next to each other none is needed, since neither can go on with the other.
The lexer gives back the tokens that a line was written with, and white space
(`withoutSpace_tokenize_of_spaced`).
-/

namespace HeaderMacros

namespace Token

/-- A word or an operator character. -/
def IsSimple (t : Token) : Prop :=
  t.Proper ∧ (t.isWord = true ∨ ∃ b ∈ singleCharOperators, t.text = [b])

/-- Lines that are made of tokens with white space after each of them. There is some between two
words and between two tokens that are no words. -/
inductive Spaced : List Token → Text → Prop where
  /-- The empty line. -/
  | nil : Spaced [] []
  /-- A token, white space, and more tokens. -/
  | cons {t : Token} {ts : List Token} (blanks : Text) {line : Text}
    (hblanks : ∀ b ∈ blanks, Byte.isSpace b = true)
    (happart : ∀ u ∈ ts.head?, u.isWord = t.isWord → blanks ≠ []) (h : Spaced ts line) :
    Spaced (t :: ts) (t.text ++ (blanks ++ line))

variable {t : Token} {ts : List Token} {blanks line rest : Text}

theorem isOther_of_mem_singleCharOperators :
    ∀ b ∈ singleCharOperators, isOther b = true := by decide +kernel

/-- The bytes of a simple token tell whether it is a word. -/
theorem IsSimple.of_mem_text (ht : t.IsSimple) {b : UInt8} (hb : b ∈ t.text) :
    Byte.isSpace b = false ∧ Byte.isWordByte b = t.isWord := by
  obtain ⟨hproper, hword | ⟨c, hc, htext⟩⟩ := ht
  · have hbytes := (isWordByte_of_isWord hproper.1 hword).2 b hb
    exact ⟨Byte.isSpace_of_isWordByte hbytes, hbytes.trans hword.symm⟩
  · rw [htext, List.mem_singleton] at hb
    obtain ⟨hspace, hword⟩ := isOther_eq_true_iff.1 (isOther_of_mem_singleCharOperators c hc)
    have hoperator : t.isWord = false := by
      rw [← hproper.1, htext, classify_of_mem_singleCharOperators c hc]
      rfl
    rw [hb, hspace, hword, hoperator]
    exact ⟨rfl, rfl⟩

theorem IsSimple.isSpace (ht : t.IsSimple) : t.isSpace = false := by
  obtain ⟨hproper, hword | ⟨b, hb, htext⟩⟩ := ht
  · have hkind : t.kind = .word := beq_iff_eq.1 hword
    simp [Token.isSpace, hkind]
  · rw [← hproper.1, htext, classify_of_mem_singleCharOperators b hb]
    rfl

/-! ## One token and white space -/

/-- An operator character is a token of its own before white space and before a word. -/
theorem tokenize_operator_append {b : UInt8} (hb : b ∈ singleCharOperators)
    (hrest : ∀ c ∈ rest.head?, isOther c = false) :
    tokenize (b :: rest) = ⟨.operator, [b]⟩ :: tokenize rest := by
  have hother : ∀ op ∈ multiCharOperators, ∀ c ∈ op.tail.head?, isOther c = true := by
    decide +kernel
  have hlong : ∀ op ∈ multiCharOperators, op.tail ≠ [] := by decide +kernel
  have hnone : multiCharOperator? (b :: rest) = none := by
    refine multiCharOperator?_eq_none_iff.2 fun op hop hprefix => ?_
    obtain ⟨c, after, htail⟩ := List.exists_cons_of_ne_nil (hlong op hop)
    have hc := hother op hop c (by rw [htail]; rfl)
    -- The second byte of an operator would be the first one after the character.
    obtain ⟨suffix, hsuffix⟩ := hprefix
    have hdrop := congrArg List.tail hsuffix
    rw [List.tail_append_of_ne_nil (fun hnil => hlong op hop (by rw [hnil]; rfl)), htail] at hdrop
    rw [hrest c (by rw [← show _ = rest from hdrop]; rfl)] at hc
    cases hc
  rw [tokenize,
    lex_of_mem_singleCharOperators (isOther_of_mem_singleCharOperators b hb) hnone hb]

/-- White space in front of a line makes a token of white space. -/
theorem withoutSpace_tokenize_append (hblanks : ∀ b ∈ blanks, Byte.isSpace b = true)
    (hrest : ∀ b ∈ rest.head?, Byte.isSpace b = false) :
    Tokens.withoutSpace (tokenize (blanks ++ rest)) = Tokens.withoutSpace (tokenize rest) := by
  cases blanks with
  | nil => rfl
  | cons b blanks =>
    obtain ⟨hb, hblanks⟩ := List.forall_mem_cons.1 hblanks
    have hlex : LexesBefore ⟨.space, b :: blanks⟩ rest := by
      refine ⟨b, blanks, rfl, ?_⟩
      rw [lex_of_isSpace hb, lexRun_append .space b hblanks hrest]
    rw [hlex.tokenize, Tokens.withoutSpace_cons_of_space rfl]

/-- A simple token is cut off before white space and before a token of the other sort. -/
theorem IsSimple.tokenize_append (ht : t.IsSimple)
    (hrest : ∀ b ∈ rest.head?, Byte.isSpace b = true ∨ Byte.isWordByte b = !t.isWord) :
    tokenize (t.text ++ rest) = t :: tokenize rest := by
  obtain ⟨hproper, hword | ⟨b, hb, htext⟩⟩ := ht
  · have hbytes := isWordByte_of_isWord hproper.1 hword
    have hends : ∀ b ∈ rest.head?, Byte.isWordByte b = false := by
      intro b hb
      rcases hrest b hb with hspace | hother
      · refine Bool.eq_false_iff.2 fun hbyte => ?_
        rw [Byte.isSpace_of_isWordByte hbyte] at hspace
        cases hspace
      · rw [hother, hword]
        rfl
    rw [tokenize_word_append hbytes hends, ← classify_of_isWordByte hbytes.1 hbytes.2, hproper.1]
  · have hoperator : t = ⟨.operator, [b]⟩ := by
      rw [← hproper.1, htext, classify_of_mem_singleCharOperators b hb]
    have hends : ∀ c ∈ rest.head?, isOther c = false := by
      intro c hc
      rw [← Bool.not_eq_true, isOther_eq_true_iff]
      rintro ⟨hspace, hword⟩
      rcases hrest c hc with h | h
      · rw [hspace] at h
        cases h
      · rw [hword, hoperator] at h
        cases h
    rw [hoperator]
    exact tokenize_operator_append hb hends

/-! ## Lines -/

/-- A line starts as its first token does. -/
theorem Spaced.head?_eq (h : Spaced ts line) (hts : ∀ t ∈ ts, t.IsSimple) :
    ∀ b ∈ line.head?, ∃ t ∈ ts.head?, b ∈ t.text := by
  intro b hb
  cases h with
  | nil => cases hb
  | @cons t ts blanks line =>
    refine ⟨t, rfl, ?_⟩
    obtain ⟨c, tail, htext⟩ := List.exists_cons_of_ne_nil (hts t List.mem_cons_self).1.2
    rw [htext, List.cons_append, List.head?_cons] at hb
    rw [htext, ← Option.some.inj hb]
    exact List.mem_cons_self

/-- The first token of a line is cut off as it was written. -/
theorem Spaced.tokenize_eq_cons {first : Token} (h : Spaced (first :: ts) line)
    (hts : ∀ t ∈ first :: ts, t.IsSimple) :
    ∃ blanks rest, line = first.text ++ (blanks ++ rest) ∧ Spaced ts rest ∧
      tokenize line = first :: tokenize (blanks ++ rest) ∧
      Tokens.withoutSpace (tokenize (blanks ++ rest)) = Tokens.withoutSpace (tokenize rest) := by
  obtain ⟨hfirst, hothers⟩ := List.forall_mem_cons.1 hts
  cases h with
  | @cons _ _ blanks rest hblanks happart h =>
    have hhead : ∀ b ∈ rest.head?, Byte.isSpace b = false := by
      intro b hb
      obtain ⟨u, hu, hmem⟩ := h.head?_eq hothers b hb
      exact ((hothers u (List.mem_of_mem_head? hu)).of_mem_text hmem).1
    have hnext : ∀ b ∈ (blanks ++ rest).head?,
        Byte.isSpace b = true ∨ Byte.isWordByte b = !first.isWord := by
      intro b hb
      cases blanks with
      | cons c blanks =>
        obtain rfl := Option.some.inj hb
        exact .inl (hblanks _ List.mem_cons_self)
      | nil =>
        -- Without white space the next token is of the other sort.
        obtain ⟨u, hu, hmem⟩ := h.head?_eq hothers b hb
        rw [((hothers u (List.mem_of_mem_head? hu)).of_mem_text hmem).2]
        refine .inr (Bool.eq_not.2 fun hsame => ?_)
        exact happart u hu hsame rfl
    exact ⟨blanks, rest, rfl, h, hfirst.tokenize_append hnext,
      withoutSpace_tokenize_append hblanks hhead⟩

/-- The lexer gives back the tokens that a line is made of. -/
theorem withoutSpace_tokenize_of_spaced (hts : ∀ t ∈ ts, t.IsSimple) (h : Spaced ts line) :
    Tokens.withoutSpace (tokenize line) = ts := by
  induction ts generalizing line with
  | nil =>
    cases h
    rw [tokenize]
    rfl
  | cons t ts ih =>
    obtain ⟨ht, hothers⟩ := List.forall_mem_cons.1 hts
    obtain ⟨blanks, rest, -, hrest, htokens, hblanks⟩ := h.tokenize_eq_cons hts
    rw [htokens, Tokens.withoutSpace_cons_of_solid ht.isSpace, hblanks, ih hothers hrest]

end Token

end HeaderMacros
