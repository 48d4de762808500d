import HeaderMacros.Proofs.Macro.Definition
import Mathlib.Tactic.TFAE

/-!
# The canonical spelling of a definition

`Macro.spelling` writes a macro the way a definition directive would: the name, the parameters in
parentheses right after it if it is function-like, one space, and the replacement. Whether a macro
is object-like or function-like shows in nothing but the byte after its name, so the space before
the replacement is needed even if there is none.

- `Macro.ofTokens_spelling`: a macro that can be defined is read back from its spelling.
- `Macro.definable_iff_spelled`: the macros that are read back from their spelling are those that
  can be defined, and those that some text defines.
-/

namespace HeaderMacros

/-! ## Tokens of a spelling -/

namespace Token

/-- A word ends before a byte of another sort. -/
theorem tokenize_word_append {word rest : Text} (hword : Text.IsWord word)
    (hrest : ∀ b ∈ rest.head?, Byte.isWordByte b = false) :
    tokenize (word ++ rest) = ⟨.word, word⟩ :: tokenize rest := by
  obtain ⟨hne, hbytes⟩ := hword
  obtain ⟨b, tail, rfl⟩ := List.exists_cons_of_ne_nil hne
  obtain ⟨hb, htail⟩ := List.forall_mem_cons.1 hbytes
  have hlex : LexesBefore ⟨.word, b :: tail⟩ rest := by
    refine ⟨b, tail, rfl, ?_⟩
    rw [lex_of_isWordByte hb, lexRun_append .word b htail hrest]
  exact hlex.tokenize

/-- An operator character that starts no longer operator is a token whatever follows. -/
theorem tokenize_cons_of_mem_singleCharOperators {b : UInt8} (hb : isOther b = true)
    (hsingle : b ∈ singleCharOperators) (hstart : ∀ op ∈ multiCharOperators, op.head? ≠ some b)
    (rest : Text) : tokenize (b :: rest) = ⟨.operator, [b]⟩ :: tokenize rest := by
  have hnone : multiCharOperator? (b :: rest) = none := by
    refine multiCharOperator?_eq_none_iff.2 fun op hop hprefix => ?_
    cases op with
    | nil => exact absurd hop (by decide)
    | cons c op =>
      rw [List.cons_prefix_cons] at hprefix
      exact hstart _ hop (congrArg some hprefix.1)
  rw [tokenize, lex_of_mem_singleCharOperators hb hnone hsingle]

theorem tokenize_openParen (rest : Text) :
    tokenize (Byte.openParen :: rest) = operator "(" :: tokenize rest :=
  tokenize_cons_of_mem_singleCharOperators (by decide) (by decide) (by decide) rest

theorem tokenize_closeParen (rest : Text) :
    tokenize (Byte.closeParen :: rest) = operator ")" :: tokenize rest :=
  tokenize_cons_of_mem_singleCharOperators (by decide) (by decide) (by decide) rest

theorem tokenize_comma (rest : Text) :
    tokenize (Byte.comma :: rest) = operator "," :: tokenize rest :=
  tokenize_cons_of_mem_singleCharOperators (by decide) (by decide) (by decide) rest

theorem tokenize_ellipsis (rest : Text) :
    tokenize (ellipsis ++ rest) = operator "..." :: tokenize rest := by
  have hlex : LexesBefore (operator "...") rest := ⟨Byte.dot, [Byte.dot, Byte.dot], rfl, rfl⟩
  exact hlex.tokenize

/-- A space before a text that does not start with white space is a token. -/
theorem tokenize_space {rest : Text} (hrest : ∀ b ∈ rest.head?, Byte.isSpace b = false) :
    tokenize (Byte.space :: rest) = blank :: tokenize rest := by
  have hlex : LexesBefore blank rest := by
    refine ⟨Byte.space, [], rfl, ?_⟩
    rw [lex_of_isSpace (by decide), lexRun_append .space Byte.space (by simp) hrest]
    rfl
  exact hlex.tokenize

/-- A text whose first token is not white space does not start with white space. -/
theorem isSpace_head?_of_tokenize {text : Text}
    (h : ∀ t ∈ (tokenize text).head?, t.isSpace = false) :
    ∀ b ∈ text.head?, Byte.isSpace b = false := by
  intro b hb
  cases text with
  | nil => cases hb
  | cons c rest =>
    obtain rfl : c = b := Option.some.inj hb
    refine Bool.eq_false_iff.2 fun hspace => ?_
    have hfirst := h (lex c rest).1 (by rw [tokenize]; rfl)
    rw [lex_of_isSpace hspace] at hfirst
    cases hfirst

end Token

namespace Macro

/-! ## Parameter lists -/

/-- A text that can be a parameter is one token before a byte that is no part of a word. -/
theorem tokenize_parameter_append {p rest : Text} (hp : Text.IsWord p ∨ p = ellipsis)
    (hrest : ∀ b ∈ rest.head?, Byte.isWordByte b = false) :
    Token.tokenize (p ++ rest) = Token.classify p :: Token.tokenize rest := by
  rcases hp with hword | rfl
  · rw [Token.tokenize_word_append hword hrest, Token.classify_of_isWordByte hword.1 hword.2]
  · have hclassify : Token.classify ellipsis = Token.operator "..." := by decide
    rw [Token.tokenize_ellipsis, hclassify]

/-- The tokens of a parameter list up to its closing parenthesis. -/
theorem tokenize_join_append {params : List Text}
    (h : ∀ p ∈ params, Text.IsWord p ∨ p = ellipsis) (rest : Text) :
    Token.tokenize (Text.join [Byte.comma] params ++ Byte.closeParen :: rest) =
      (params.map Token.classify).intersperse (.operator ",") ++
        .operator ")" :: Token.tokenize rest := by
  induction params with
  | nil => exact Token.tokenize_closeParen rest
  | cons p params ih =>
    obtain ⟨hp, hparams⟩ := List.forall_mem_cons.1 h
    cases params with
    | nil =>
      have hclose : ∀ b ∈ (Byte.closeParen :: rest).head?, Byte.isWordByte b = false := by
        rintro b ⟨⟩
        rfl
      show Token.tokenize (p ++ Byte.closeParen :: rest) = [Token.classify p] ++ _
      rw [tokenize_parameter_append hp hclose, Token.tokenize_closeParen, List.singleton_append]
    | cons next more =>
      have hcomma (text : Text) :
          ∀ b ∈ (Byte.comma :: text).head?, Byte.isWordByte b = false := by
        rintro b ⟨⟩
        rfl
      rw [Text.join_cons (List.cons_ne_nil next more), List.append_assoc, List.append_assoc,
        List.singleton_append, tokenize_parameter_append hp (hcomma _), Token.tokenize_comma,
        ih hparams]
      rfl

/-- The token of a parameter is neither white space nor one of the separators of the list. -/
theorem solid_of_parameter {p : Text} (hp : Text.IsWord p ∨ p = ellipsis) :
    (Token.classify p).isSpace = false ∧ (Token.classify p).is [Byte.comma] = false ∧
      (Token.classify p).is [Byte.closeParen] = false := by
  rcases hp with hword | rfl
  · have hne {b : UInt8} (hb : Byte.isWordByte b = false) : (p == [b]) = false := by
      refine beq_eq_false_iff_ne.2 ?_
      rintro rfl
      rw [hword.2 b List.mem_cons_self] at hb
      cases hb
    rw [Token.classify_of_isWordByte hword.1 hword.2]
    exact ⟨rfl, hne (by decide), hne (by decide)⟩
  · decide

theorem parameter?_classify {p : Text} (hp : Text.IsWord p ∨ p = ellipsis) :
    parameter? [Token.classify p] = some p := by
  rcases hp with hword | rfl
  · rw [Token.classify_of_isWordByte hword.1 hword.2]
    rfl
  · decide

/-- What holds of tokens and of a separator holds of the tokens with separators between them. -/
theorem forall_mem_intersperse {P : Token → Prop} {sep : Token} (hsep : P sep) {ts : List Token}
    (h : ∀ t ∈ ts, P t) : ∀ t ∈ ts.intersperse sep, P t := by
  induction ts with
  | nil => exact h
  | cons first rest ih =>
    obtain ⟨hfirst, hrest⟩ := List.forall_mem_cons.1 h
    cases rest with
    | nil => exact h
    | cons next more =>
      rw [List.intersperse_cons_cons, List.forall_mem_cons, List.forall_mem_cons]
      exact ⟨hfirst, hsep, ih hrest⟩

section

variable {params : List Text} (h : ∀ p ∈ params, Text.IsWord p ∨ p = ellipsis)

include h

/-- The names of a parameter list are read back from its tokens. -/
theorem parameters_intersperse :
    parameters ((params.map Token.classify).intersperse (.operator ",")) = .ok params := by
  rcases eq_or_ne params [] with rfl | hne
  · rfl
  have hsolid : ∀ t ∈ (params.map Token.classify).intersperse (.operator ","),
      t.isSpace = false := by
    refine forall_mem_intersperse (P := fun t => t.isSpace = false) rfl fun t ht => ?_
    obtain ⟨p, hp, rfl⟩ := List.mem_map.1 ht
    exact (solid_of_parameter (h p hp)).1
  have hcomma : ∀ t ∈ params.map Token.classify, t.is [Byte.comma] = false := by
    intro t ht
    obtain ⟨p, hp, rfl⟩ := List.mem_map.1 ht
    exact (solid_of_parameter (h p hp)).2.1
  have hmap : params.map Token.classify ≠ [] := by simpa using hne
  have htrim : Tokens.trim ((params.map Token.classify).intersperse (.operator ",")) ≠ [] := by
    rw [Token.trim_eq_self (fun t ht => hsolid t (List.mem_of_mem_head? ht))
      fun t ht => hsolid t (List.mem_of_mem_getLast? ht)]
    refine List.length_pos_iff.1 ?_
    rw [List.length_intersperse]
    have hpos := List.length_pos_iff.2 hmap
    omega
  have hnames : ((params.map Token.classify).map ([·])).mapM parameter? = some params := by
    clear hne hsolid hcomma hmap htrim
    induction params with
    | nil => rfl
    | cons p params ih =>
      obtain ⟨hp, hparams⟩ := List.forall_mem_cons.1 h
      rw [List.map_cons, List.map_cons, List.mapM_cons, parameter?_classify hp, ih hparams]
      rfl
  rw [parameters, if_neg htrim, Tokens.splitOnCommas_intersperse rfl hmap hcomma, hnames]

/-- A definition with a parameter list right after the name is function-like. -/
theorem ofTokens_functionLike (name : Text) (value : List Token) :
    ofTokens (⟨.word, name⟩ :: .operator "(" ::
        ((params.map Token.classify).intersperse (.operator ",") ++ .operator ")" :: value)) =
      .ok ⟨name, some params, Tokens.trim value⟩ := by
  have hinner : ∀ t ∈ (params.map Token.classify).intersperse (.operator ","),
      t.is [Byte.closeParen] = false := by
    refine forall_mem_intersperse (by decide) fun t ht => ?_
    obtain ⟨p, hp, rfl⟩ := List.mem_map.1 ht
    exact (solid_of_parameter (h p hp)).2.2
  rw [ofTokens]
  dsimp only
  rw [if_pos (by rfl), if_pos (by decide), Tokens.splitFirst?_append hinner (by decide)]
  dsimp only
  rw [parameters_intersperse h]
  rfl

end

/-! ## Definitions -/

/-- The parameters of a definition, right after its name. -/
def spelledParams : Option (List Text) → Text
  | none => []
  | some params => Byte.openParen :: Text.join [Byte.comma] params ++ [Byte.closeParen]

/-- The canonical spelling of a definition. -/
def spelling (m : Macro) : Text :=
  m.name ++ spelledParams m.params ++ Byte.space :: Tokens.text m.value

/-- A macro that can be defined is read back from its spelling. -/
theorem ofTokens_spelling {m : Macro} (h : m.Definable) :
    ofTokens (Token.tokenize m.spelling) = .ok m := by
  obtain ⟨name, params, value⟩ := m
  obtain ⟨hname, hparams, ⟨text, rfl⟩, hhead, hlast⟩ := h
  dsimp only at hname hparams hhead hlast
  have hvalue : Token.tokenize (Byte.space :: Tokens.text (Token.tokenize text)) =
      Token.blank :: Token.tokenize text := by
    rw [Token.text_tokenize]
    exact Token.tokenize_space (Token.isSpace_head?_of_tokenize hhead)
  have htrim : Tokens.trim (Token.blank :: Token.tokenize text) = Token.tokenize text :=
    Token.trim_eq_self hhead hlast
  have hends {b : UInt8} (hb : Byte.isWordByte b = false) (rest : Text) :
      ∀ c ∈ (b :: rest).head?, Byte.isWordByte c = false := by
    rintro c ⟨⟩
    exact hb
  rw [spelling]
  dsimp only
  cases params with
  | none =>
    -- The space after the name keeps the replacement from being taken for a parameter list.
    rw [spelledParams, List.append_nil, Token.tokenize_word_append hname (hends (by decide) _),
      hvalue]
    show Except.ok (⟨name, none, Tokens.trim (Token.blank :: Token.tokenize text)⟩ : Macro) = _
    rw [htrim]
  | some params =>
    rw [Option.getD_some] at hparams
    rw [spelledParams, List.append_assoc, List.cons_append, List.cons_append, List.append_assoc,
      List.singleton_append, Token.tokenize_word_append hname (hends (by decide) _),
      Token.tokenize_openParen, tokenize_join_append hparams, hvalue, ofTokens_functionLike hparams,
      htrim]

/-- The macros that can be defined are those that are read back from their spelling, and those that
some text defines. So what a text defines is read back from its spelling, whatever the text is. -/
theorem definable_iff_spelled (m : Macro) :
    List.TFAE [m.Definable, ofTokens (Token.tokenize m.spelling) = .ok m,
      ∃ text, ofTokens (Token.tokenize text) = .ok m] := by
  tfae_have 1 → 2 := ofTokens_spelling
  tfae_have 2 → 3 := fun h => ⟨m.spelling, h⟩
  tfae_have 3 → 1 := fun ⟨_, h⟩ => definable_of_ofTokens List.infix_rfl h
  tfae_finish

end Macro

end HeaderMacros
