import HeaderMacros.Directive
import HeaderMacros.Proofs.Report.RoundTrip
import HeaderMacros.Proofs.Token.Splitting

/-!
# What definitions define

Every macro that a definition directive or a command line option defines is recordable: its name and
its parameters are words of the line, and its replacement is a piece of the tokens of the line.

- `Macro.definable_of_ofTokens`: the shape of what the tokens of a text define, on however many
  lines it is.
- `Macro.recordable_of_ofTokens`: definition directives.
- `Macro.recordable_of_ofOption`: command line options.
-/

namespace HeaderMacros

/-- A text that is a word. -/
def Text.IsWord (text : Text) : Prop := text ≠ [] ∧ ∀ b ∈ text, Byte.isWordByte b = true

instance (text : Text) : Decidable (Text.IsWord text) := inferInstanceAs (Decidable (_ ∧ _))

/-! ## Pieces of the tokens of a line -/

theorem Tokens.mem_of_mem_text {line : Text} {ts : List Token}
    (h : ∀ t ∈ ts, t ∈ Token.tokenize line) {b : UInt8} (hb : b ∈ Tokens.text ts) : b ∈ line := by
  obtain ⟨t, ht, hb⟩ := List.mem_flatMap.1 hb
  rw [← Token.text_tokenize line]
  exact List.mem_flatMap.2 ⟨t, h t ht, hb⟩

/-- The parameters of a directive are consecutive tokens of its line. -/
theorem Directive.params_isInfix {ts : List Token} {d : Directive} (h : ofTokens? ts = some d) :
    d.params <:+: ts := by
  cases ts with
  | nil => cases h
  | cons first rest =>
    rw [ofTokens?] at h
    split at h
    · have htrim : Tokens.trimLeft rest <:+ rest := List.dropWhile_suffix Token.isSpace
      split at h
      · cases h
        exact List.nil_infix
      · rename_i name params heq
        cases h
        have hparams : params <:+ first :: rest := by
          rw [heq] at htrim
          exact ((List.suffix_cons name params).trans htrim).trans (List.suffix_cons first rest)
        exact (Token.trim_isInfix params).trans hparams.isInfix
    · cases h

namespace Macro

/-! ## Definition directives -/

/-- A parameter is the text of a token of its group, a word or the variadic marker. -/
theorem mem_of_parameter? {group : List Token} {p : Text} (h : parameter? group = some p) :
    ∃ t ∈ group, t.text = p ∧ (t.isWord = true ∨ t.text = ellipsis) := by
  unfold parameter? at h
  split at h
  · rename_i t htrim
    split at h
    · rename_i ht
      cases h
      have hmem : t ∈ Tokens.trim group := by rw [htrim]; exact List.mem_cons_self
      refine ⟨t, (Token.trim_isInfix group).mem hmem, rfl, ?_⟩
      rw [Bool.or_eq_true] at ht
      exact ht.imp_right beq_iff_eq.1
    · cases h
  · cases h

theorem mem_of_mapM_parameter? {groups : List (List Token)} {names : List Text}
    (h : groups.mapM parameter? = some names) :
    ∀ p ∈ names, ∃ group ∈ groups, parameter? group = some p := by
  induction groups generalizing names with
  | nil =>
    cases h
    exact fun p hp => absurd hp List.not_mem_nil
  | cons group groups ih =>
    rw [List.mapM_cons] at h
    obtain ⟨first, hfirst, h⟩ := Option.bind_eq_some_iff.1 h
    obtain ⟨others, hothers, h⟩ := Option.bind_eq_some_iff.1 h
    cases h
    intro p hp
    rcases List.mem_cons.1 hp with rfl | hp
    · exact ⟨group, List.mem_cons_self, hfirst⟩
    · obtain ⟨other, hother, hp⟩ := ih hothers p hp
      exact ⟨other, List.mem_cons_of_mem group hother, hp⟩

/-- Every name of a parameter list is a word or the variadic marker among the tokens of the list. -/
theorem mem_of_parameters {list : List Token} {names : List Text}
    (h : parameters list = .ok names) :
    ∀ p ∈ names, ∃ t ∈ list, t.text = p ∧ (t.isWord = true ∨ t.text = ellipsis) := by
  unfold parameters at h
  split at h
  · cases h
    exact fun p hp => absurd hp List.not_mem_nil
  split at h
  · rename_i found hfound
    cases h
    intro p hp
    obtain ⟨group, hgroup, hp⟩ := mem_of_mapM_parameter? hfound p hp
    obtain ⟨t, ht, hp⟩ := mem_of_parameter? hp
    exact ⟨t, Tokens.mem_of_mem_splitOnCommas hgroup ht, hp⟩
  · cases h

/-- The macro of a definition directive: the name is the first token and a word, the parameters are
words or variadic markers, and the replacement is what follows, without white space at its ends. -/
theorem ofTokens_eq_ok {params : List Token} {m : Macro} (h : ofTokens params = .ok m) :
    ∃ name rest value, params = name :: rest ∧ name.isWord = true ∧ m.name = name.text ∧
      (∀ p ∈ m.params.getD [], ∃ t ∈ rest, t.text = p ∧ (t.isWord = true ∨ t.text = ellipsis)) ∧
      value <:+ rest ∧ m.value = Tokens.trim value := by
  unfold ofTokens at h
  split at h
  · cases h
  rename_i name rest
  split at h
  · rename_i hword
    split at h
    · cases h
      exact ⟨name, [], [], rfl, hword, rfl, fun p hp => absurd hp List.not_mem_nil,
        List.suffix_rfl, rfl⟩
    · rename_i next list
      split at h
      · -- A parenthesis right after the name opens the parameter list, up to the closing one.
        split at h
        · cases h
        · rename_i inner value hsplit
          obtain ⟨t, rfl, -⟩ := Tokens.splitFirst?_eq_some_iff.1 hsplit
          cases hparams : parameters inner with
          | error c => rw [hparams] at h; cases h
          | ok names =>
            rw [hparams] at h
            cases h
            refine ⟨name, _, value, rfl, hword, rfl, fun p hp => ?_, ?_, rfl⟩
            · obtain ⟨u, hu, hp⟩ := mem_of_parameters hparams p hp
              exact ⟨u, List.mem_cons_of_mem next (List.mem_append_left _ hu), hp⟩
            · exact ⟨next :: (inner ++ [t]), by simp⟩
      · -- Without a parenthesis there is no list, and all that follows is the replacement.
        cases h
        exact ⟨name, _, _, rfl, hword, rfl, fun p hp => absurd hp List.not_mem_nil,
          List.suffix_rfl, rfl⟩
  · cases h

/-- What a definition can define: the name is a word, the parameters are words and variadic markers
in any order, and the replacement is made of the tokens of some text, without white space at its
ends. -/
structure Definable (m : Macro) : Prop where
  /-- The name is a word. -/
  name_word : Text.IsWord m.name
  /-- The parameters are words or the variadic marker. -/
  params_words : ∀ p ∈ m.params.getD [], Text.IsWord p ∨ p = ellipsis
  /-- The replacement is what the lexer makes of a text. -/
  value_tokens : ∃ text, Token.tokenize text = m.value
  /-- The replacement does not start with white space. -/
  value_head : ∀ t ∈ m.value.head?, t.isSpace = false
  /-- The replacement does not end in white space. -/
  value_last : ∀ t ∈ m.value.getLast?, t.isSpace = false

theorem value_isInfix_of_ofTokens {params : List Token} {m : Macro} (h : ofTokens params = .ok m) :
    m.value <:+: params := by
  obtain ⟨name, rest, value, rfl, -, -, -, hsuffix, hvalue⟩ := ofTokens_eq_ok h
  rw [hvalue]
  exact (Token.trim_isInfix value).trans (hsuffix.trans (List.suffix_cons name rest)).isInfix

/-- What consecutive tokens of a text define can be defined. -/
theorem definable_of_ofTokens {text : Text} {params : List Token}
    (hparams : params <:+: Token.tokenize text) {m : Macro} (h : ofTokens params = .ok m) :
    m.Definable := by
  have hvalue := (value_isInfix_of_ofTokens h).trans hparams
  obtain ⟨name, rest, value, rfl, hword, hname, hnames, -, htrim⟩ := ofTokens_eq_ok h
  have hisWord {t : Token} (ht : t ∈ name :: rest) (hword : t.isWord = true) :
      Text.IsWord t.text :=
    Token.isWordByte_of_isWord (Token.eq_classify_of_mem_tokenize (hparams.mem ht)).1 hword
  refine ⟨hname ▸ hisWord List.mem_cons_self hword, fun p hp => ?_,
    ⟨_, Token.tokenize_text_of_isInfix hvalue⟩, ?_, ?_⟩
  · obtain ⟨t, ht, rfl, htword | htext⟩ := hnames p hp
    · exact .inl (hisWord (List.mem_cons_of_mem name ht) htword)
    · exact .inr htext
  · rw [htrim]
    exact (Token.isSpace_ends_trim value).1
  · rw [htrim]
    exact (Token.isSpace_ends_trim value).2

/-- What can be defined can be recorded, if its replacement is on one line. -/
theorem Definable.recordable {m : Macro} (h : m.Definable)
    (hnewline : Byte.newline ∉ Tokens.text m.value) : m.Recordable where
  name_ne_nil := h.name_word.1
  name_bytes := h.name_word.2
  params_bytes p hp := by
    rcases h.params_words p hp with hword | rfl
    · exact ⟨hword.1, fun b hb => .inl (hword.2 b hb)⟩
    · have hdots : ellipsis = List.replicate 3 Byte.dot := by decide
      rw [hdots]
      exact ⟨List.cons_ne_nil _ _, fun b hb => .inr (List.eq_of_mem_replicate hb)⟩
  trim_value := Token.trim_eq_self h.value_head h.value_last
  tokenize_value := by
    obtain ⟨text, htext⟩ := h.value_tokens
    rw [← htext, Token.text_tokenize]
  newline_notMem_value := hnewline

/-- The macro that a line of a document defines is recordable. -/
theorem recordable_of_ofTokens {line : Text} {d : Directive} {m : Macro}
    (hline : Byte.newline ∉ line) (hd : Directive.ofTokens? (Token.tokenize line) = some d)
    (h : ofTokens d.params = .ok m) : m.Recordable := by
  have hparams := Directive.params_isInfix hd
  have hvalue := (value_isInfix_of_ofTokens h).trans hparams
  refine (definable_of_ofTokens hparams h).recordable fun hmem => hline ?_
  exact Tokens.mem_of_mem_text (fun t ht => hvalue.mem ht) hmem

/-! ## Command line options -/

/-- The macro of an option: the name is what stands before the equals sign and a word, there are no
parameters, and the replacement is what follows, or the default, without white space at its ends. -/
theorem ofOption_eq_ok {option : Text} {m : Macro} (h : ofOption option = .ok m) :
    ∃ value, (value = ascii "1" ∨ value <:+ option) ∧ m.params = none ∧
      m.value = Tokens.trim (Token.tokenize value) ∧ m.name ≠ [] ∧
      ∀ b ∈ m.name, Byte.isWordByte b = true := by
  unfold ofOption at h
  generalize hparts : (Text.cut? [Byte.equals] option).getD (option, ascii "1") = parts at h
  have hvalue : parts.2 = ascii "1" ∨ parts.2 <:+ option := by
    cases hcut : Text.cut? [Byte.equals] option with
    | none =>
      rw [hcut, Option.getD_none] at hparts
      rw [← hparts]
      exact .inl rfl
    | some found =>
      rw [hcut, Option.getD_some] at hparts
      subst hparts
      exact .inr ⟨_, (Text.eq_append_of_cut? hcut).symm⟩
  dsimp only at h
  split at h
  · rename_i name htokens
    split at h
    · -- The name is the only token before the equals sign, so it is all of that text.
      rename_i hident
      cases h
      have hname : name.text = parts.1 := by
        rw [← Token.text_tokenize parts.1, htokens]
        exact (List.append_nil _).symm
      have hlexed : name ∈ Token.tokenize parts.1 := by
        rw [htokens]
        exact List.mem_cons_self
      have hword : name.isWord = true := (Bool.and_eq_true_iff.1 hident).1
      obtain ⟨hne, hbytes⟩ :=
        Token.isWordByte_of_isWord (Token.eq_classify_of_mem_tokenize hlexed).1 hword
      rw [hname] at hne hbytes
      exact ⟨parts.2, hvalue, rfl, rfl, hne, hbytes⟩
    · cases h
  · cases h

/-- The macro that an option on one line defines is recordable. -/
theorem recordable_of_ofOption {option : Text} {m : Macro} (hoption : Byte.newline ∉ option)
    (h : ofOption option = .ok m) : m.Recordable := by
  obtain ⟨value, hsource, hparams, hvalue, hne, hbytes⟩ := ofOption_eq_ok h
  -- The replacement is what follows the equals sign, or the default, and no newline is in either.
  have hnewline : Byte.newline ∉ value := by
    rcases hsource with rfl | hsuffix
    · decide
    · exact fun hmem => hoption (hsuffix.mem hmem)
  have hpart : m.value <:+: Token.tokenize value := by
    rw [hvalue]
    exact Token.trim_isInfix _
  refine ⟨hne, hbytes, fun p hp => ?_, ?_, Token.tokenize_text_of_isInfix hpart, fun hmem => ?_⟩
  · rw [hparams] at hp
    exact absurd hp List.not_mem_nil
  · rw [hvalue, Token.trim_trim]
  · exact hnewline (Tokens.mem_of_mem_text (fun t ht => hpart.mem ht) hmem)

end Macro

end HeaderMacros
