import HeaderMacros.Proofs.Token.Spacing
import HeaderMacros.Run.Line

/-!
# Definitions from a command line

An option `NAME=VALUE` defines what the directive `#define NAME VALUE` defines, though the two are
read differently: the value of an option is cut into tokens by itself, that of a directive after the
name and a space, where white space at the start of the value becomes one token with the space.

- `Macro.trim_tokenize_space`: the space is lost with the white space around the value.
- `Macro.ofOption_eq`: what an option defines, told from its name and its value alone.
- `Macro.ofTokens_define`: what the tokens of the directive define. The space keeps a value that
  starts with a parenthesis from being taken for a parameter list.
- `Macro.ofOption_eq_define`: an option defines a macro exactly if its name is an identifier; then
  the directive defines the same macro, and following the directive first leads to the state of a
  run that has the macro defined beforehand.
-/

namespace HeaderMacros

/-! ## White space around tokens -/

namespace Tokens

/-- White space after some tokens is removed with that at their end. -/
theorem trim_append_of_isSpace (ts : List Token) {spaces : List Token}
    (hspaces : ∀ t ∈ spaces, t.isSpace = true) : trim (ts ++ spaces) = trim ts := by
  have hreverse : ∀ t ∈ spaces.reverse, t.isSpace = true := fun t ht =>
    hspaces t (List.mem_reverse.1 ht)
  have hnil : spaces.dropWhile Token.isSpace = [] := List.dropWhile_eq_nil_iff.2 hspaces
  rw [trim, trimLeft, List.dropWhile_append]
  split
  · -- All tokens are white space, and the scan from the start takes what comes after them too.
    rename_i hempty
    rw [hnil, trim, trimLeft, List.isEmpty_iff.1 hempty]
  · rw [trim, trimLeft, trimRight, List.reverse_append, List.dropWhile_append_of_pos hreverse]
    rfl

/-- White space in front of some tokens is removed with that at their start. -/
theorem trim_cons_of_isSpace {t : Token} (ht : t.isSpace = true) (ts : List Token) :
    trim (t :: ts) = trim ts := by
  rw [trim, trimLeft, List.dropWhile_cons_of_pos ht]
  rfl

/-- Tokens that start with no white space are trimmed at their end only. -/
theorem exists_trim_cons {t : Token} (ht : t.isSpace = false) (ts : List Token) :
    ∃ front spaces, ts = front ++ spaces ∧ (∀ u ∈ spaces, u.isSpace = true) ∧
      trim (t :: ts) = t :: front := by
  have hsolid : ¬ t.isSpace = true := Bool.eq_false_iff.1 ht
  have hall : ∀ u ∈ (ts.reverse.takeWhile Token.isSpace).reverse, u.isSpace = true := fun u hu =>
    List.all_eq_true.1 List.all_takeWhile u (List.mem_reverse.1 hu)
  have hwhole : ts = trimRight ts ++ (ts.reverse.takeWhile Token.isSpace).reverse := by
    rw [trimRight, ← List.reverse_append, List.takeWhile_append_dropWhile, List.reverse_reverse]
  refine ⟨trimRight ts, _, hwhole, hall, ?_⟩
  rw [trim, trimLeft, List.dropWhile_cons_of_neg hsolid, trimRight, List.reverse_cons,
    List.dropWhile_append]
  split
  · -- The scan from the end takes everything but the first token, and stops there.
    rename_i hempty
    rw [List.dropWhile_cons_of_neg hsolid, trimRight, List.isEmpty_iff.1 hempty]
    rfl
  · rw [List.reverse_append]
    rfl

end Tokens

namespace Macro

open Token (tokenize)

variable {name value option : Text} {m : Macro}

/-- A space in front of a text does not show in its tokens without white space at their ends. Where
the text starts with white space itself, the space makes the first token longer. -/
theorem trim_tokenize_space (text : Text) :
    Tokens.trim (tokenize (Byte.space :: text)) = Tokens.trim (tokenize text) := by
  obtain ⟨blanks, rest, rfl, hblanks, hrest⟩ := Text.exists_span Byte.isSpace text
  have hrun {b : UInt8} {more : Text} (hb : Byte.isSpace b = true)
      (hmore : ∀ c ∈ more, Byte.isSpace c = true) :
      Tokens.trim (tokenize (b :: (more ++ rest))) = Tokens.trim (tokenize rest) := by
    have hlex : Token.LexesBefore ⟨.space, b :: more⟩ rest := by
      refine ⟨b, more, rfl, ?_⟩
      rw [Token.lex_of_isSpace hb, Token.lexRun_append .space b hmore hrest]
    have htokens : tokenize (b :: (more ++ rest)) = ⟨.space, b :: more⟩ :: tokenize rest :=
      hlex.tokenize
    rw [htokens, Tokens.trim_cons_of_isSpace rfl]
  rw [hrun (by decide) hblanks]
  cases blanks with
  | nil => rfl
  | cons b blanks =>
    obtain ⟨hb, hblanks⟩ := List.forall_mem_cons.1 hblanks
    exact (hrun hb hblanks).symm

/-! ## The parts of an option -/

/-- The name of an option: what stands before its first equals sign. -/
def optionName (option : Text) : Text := option.takeWhile (· != Byte.equals)

/-- The value of an option: what stands after its first equals sign, or `1` if it has none. -/
def optionValue (option : Text) : Text :=
  match option.dropWhile (· != Byte.equals) with
  | [] => ascii "1"
  | _ :: value => value

/-- An option is cut into its name and its value. -/
theorem cut?_option (option : Text) :
    (Text.cut? [Byte.equals] option).getD (option, ascii "1") =
      (optionName option, optionValue option) := by
  by_cases hmem : Byte.equals ∈ option
  · obtain ⟨name, value, rfl, hname⟩ := List.eq_append_cons_of_mem hmem
    have hdiffers : ∀ b ∈ name, (b != Byte.equals) = true := fun b hb =>
      bne_iff_ne.2 fun heq => hname (heq ▸ hb)
    obtain ⟨htake, hdrop⟩ := Text.span_append (p := (· != Byte.equals)) hdiffers
      (show ∀ b ∈ (Byte.equals :: value).head?, (b != Byte.equals) = false by rintro b ⟨⟩; rfl)
    rw [Text.cut?_append_sep hname, optionName, optionValue, htake, hdrop]
    rfl
  · have hdiffers : ∀ b ∈ option, (b != Byte.equals) = true := fun b hb =>
      bne_iff_ne.2 fun heq => hmem (heq ▸ hb)
    have hnone : Text.cut? [Byte.equals] option = none := by
      refine Option.eq_none_iff_forall_ne_some.2 fun parts hcut => hmem ?_
      rw [(Text.cut?_sep_eq_some_iff.1 hcut).1]
      exact List.mem_append_right _ List.mem_cons_self
    rw [hnone, optionName, optionValue, List.takeWhile_eq_self_iff.2 hdiffers,
      List.dropWhile_eq_nil_iff.2 hdiffers]
    rfl

/-- A text that can name a macro on a command line: a word that does not start with a digit. -/
def IsIdentifier (name : Text) : Prop :=
  Text.IsWord name ∧ ∀ b ∈ name.head?, Byte.isDigit b = false

instance (name : Text) : Decidable (IsIdentifier name) :=
  decidable_of_iff (Text.IsWord name ∧ name.head?.all (fun b => !Byte.isDigit b) = true) <| by
    rw [IsIdentifier, Option.all_eq_true]
    simp only [Option.mem_def, Bool.not_eq_true']

/-- A text is an identifier exactly if it is lexed as one token that is an identifier. -/
theorem isIdentifier_iff :
    IsIdentifier name ↔ ∃ t, tokenize name = [t] ∧ t.isIdent = true := by
  constructor
  · rintro ⟨hword, hdigit⟩
    have htokens : tokenize (name ++ []) = ⟨.word, name⟩ :: tokenize [] :=
      Token.tokenize_word_append hword (by simp)
    rw [List.append_nil, tokenize] at htokens
    refine ⟨⟨.word, name⟩, htokens, ?_⟩
    obtain ⟨b, rest, rfl⟩ := List.exists_cons_of_ne_nil hword.1
    simp [Token.isIdent, hdigit b rfl]
  · rintro ⟨t, htokens, hident⟩
    have htext : t.text = name := by
      rw [← Token.text_tokenize name, htokens]
      exact (List.append_nil _).symm
    have hlexed : t ∈ tokenize name := by
      rw [htokens]
      exact List.mem_cons_self
    obtain ⟨hword, hdigit⟩ := Bool.and_eq_true_iff.1 hident
    have hbytes := Token.isWordByte_of_isWord (Token.eq_classify_of_mem_tokenize hlexed).1 hword
    rw [htext] at hbytes hdigit
    refine ⟨hbytes, ?_⟩
    rintro b hb
    cases name with
    | nil => cases hb
    | cons c rest =>
      obtain rfl : c = b := Option.some.inj hb
      exact Bool.eq_false_iff.2 (by simpa using hdigit)

/-- What an option defines. -/
theorem ofOption_eq (option : Text) :
    ofOption option =
      if IsIdentifier (optionName option) then
        .ok ⟨optionName option, none, Tokens.trim (tokenize (optionValue option))⟩
      else .error (.malformed .invalidName (optionName option)) := by
  rw [ofOption, cut?_option]
  dsimp only
  split
  · rename_i t htokens
    have hiff : IsIdentifier (optionName option) ↔ t.isIdent = true := by
      rw [isIdentifier_iff, htokens]
      simp
    rw [← htokens, Token.text_tokenize]
    simp only [hiff]
  · -- There is no token, or there are several.
    rename_i hmany
    rw [Token.text_tokenize, if_neg]
    rintro hname
    obtain ⟨t, htokens, -⟩ := isIdentifier_iff.1 hname
    exact hmany t htokens

/-! ## The directive -/

/-- A definition is object-like if no parenthesis follows the name at once. -/
theorem ofTokens_objectLike {rest : List Token}
    (h : ∀ t ∈ rest.head?, t.is [Byte.openParen] = false) :
    ofTokens (⟨.word, name⟩ :: rest) = .ok ⟨name, none, Tokens.trim rest⟩ := by
  cases rest with
  | nil => rfl
  | cons next rest =>
    rw [ofTokens]
    dsimp only
    rw [if_pos (by rfl), if_neg (Bool.eq_false_iff.1 (h next rfl))]

/-- White space after the tokens of an object-like definition does not matter. -/
theorem ofTokens_append_of_isSpace {rest spaces : List Token}
    (h : ∀ t ∈ (rest ++ spaces).head?, t.is [Byte.openParen] = false)
    (hspaces : ∀ t ∈ spaces, t.isSpace = true) :
    ofTokens (⟨.word, name⟩ :: (rest ++ spaces)) = ofTokens (⟨.word, name⟩ :: rest) := by
  have hrest : ∀ t ∈ rest.head?, t.is [Byte.openParen] = false := by
    intro t ht
    refine h t ?_
    rw [List.head?_append, Option.mem_def.1 ht]
    rfl
  rw [ofTokens_objectLike h, ofTokens_objectLike hrest, Tokens.trim_append_of_isSpace rest hspaces]

section

variable (hname : Text.IsWord name) (value : Text)

include hname

/-- A name and a space are cut off from the value. The space is part of the first token after the
name, and so that token is not a parenthesis. -/
theorem tokenize_define :
    tokenize (name ++ Byte.space :: value) =
        ⟨.word, name⟩ :: tokenize (Byte.space :: value) ∧
      ∀ t ∈ (tokenize (Byte.space :: value)).head?, t.is [Byte.openParen] = false := by
  constructor
  · refine Token.tokenize_word_append hname ?_
    rintro b ⟨⟩
    rfl
  · rw [tokenize, Token.lex_of_isSpace (by decide), Token.lexRun]
    rintro t ⟨⟩
    refine beq_eq_false_iff_ne.2 fun heq => ?_
    exact absurd (List.cons.inj heq).1 (by decide)

/-- What the directive defines as its name: the value as it is by itself. -/
theorem ofTokens_define :
    ofTokens (tokenize (name ++ Byte.space :: value)) =
      .ok ⟨name, none, Tokens.trim (tokenize value)⟩ := by
  obtain ⟨htokens, hhead⟩ := tokenize_define hname value
  rw [htokens, ofTokens_objectLike hhead, trim_tokenize_space]

/-- The line of a definition is a directive. White space at the end of the value is removed before
it is read. -/
theorem exists_ofTokens?_define :
    ∃ params, Directive.ofTokens? (tokenize (ascii "#define " ++ (name ++ Byte.space :: value))) =
        some ⟨ascii "define", params⟩ ∧
      ofTokens params = ofTokens (tokenize (name ++ Byte.space :: value)) := by
  obtain ⟨htokens, hhead⟩ := tokenize_define hname value
  obtain ⟨front, spaces, hwhole, hspaces, htrim⟩ :=
    Tokens.exists_trim_cons (t := ⟨.word, name⟩) rfl (tokenize (Byte.space :: value))
  have hsolid : ∀ b ∈ (name ++ Byte.space :: value).head?, Byte.isSpace b = false := by
    obtain ⟨b, rest, rfl⟩ := List.exists_cons_of_ne_nil hname.1
    rintro c ⟨⟩
    exact Byte.isSpace_of_isWordByte (hname.2 b List.mem_cons_self)
  have hline : tokenize (ascii "#define " ++ (name ++ Byte.space :: value)) =
      .operator "#" :: .word "define" :: .blank :: tokenize (name ++ Byte.space :: value) := by
    rw [show ascii "#define " ++ (name ++ Byte.space :: value) =
      Byte.hash :: (ascii "define" ++ Byte.space :: (name ++ Byte.space :: value)) from rfl,
      Token.tokenize_operator_append (by decide) (by rintro b ⟨⟩; rfl),
      Token.tokenize_word_append (by decide +kernel) (by rintro b ⟨⟩; rfl),
      Token.tokenize_space hsolid]
    rfl
  refine ⟨⟨.word, name⟩ :: front, ?_, ?_⟩
  · rw [hline, htokens]
    show some (⟨ascii "define", Tokens.trim (.blank :: ⟨.word, name⟩ :: tokenize _)⟩ : Directive) =
      _
    rw [Tokens.trim_cons_of_isSpace rfl, htrim]
  · -- The directive has lost the white space at its end, which would not get into the macro.
    rw [hwhole] at htokens hhead
    rw [htokens]
    exact (ofTokens_append_of_isSpace hhead hspaces).symm

end

/-! ## Definitions before a run -/

/-- Following a definition first is the same as having the macro defined beforehand. -/
theorem follow_define_initial {params : List Token} (h : ofTokens params = .ok m)
    (predefined : List Macro) :
    (RunState.initial predefined).follow ⟨ascii "define", params⟩ =
      .ok (.proceed (RunState.initial (predefined ++ [m]))) := by
  have hgroup : RunState.GroupDirective.ofName? (ascii "define") = none := by decide
  have htable : Table.ofList (predefined ++ [m]) = (Table.ofList predefined).define m := by
    rw [Table.ofList, List.foldl_append]
    rfl
  rw [RunState.follow]
  dsimp only
  rw [if_neg (by decide), hgroup]
  dsimp only
  rw [if_pos (by rfl), RunState.followActive, if_pos rfl, h, RunState.initial, RunState.initial,
    htable]
  rfl

/-- An option defines a macro exactly if its name is an identifier. That macro is what the tokens of
the name, a space and the value define, and following the definition directive with these tokens, or
the line that spells it, leads to the state in which the macro is defined beforehand. -/
theorem ofOption_eq_define (option : Text) :
    ((∃ m, ofOption option = .ok m) ↔ IsIdentifier (optionName option)) ∧
      ∀ m, ofOption option = .ok m →
        ofTokens (tokenize (optionName option ++ Byte.space :: optionValue option)) = .ok m ∧
          ∀ predefined,
            (RunState.initial predefined).follow ⟨ascii "define",
                tokenize (optionName option ++ Byte.space :: optionValue option)⟩ =
              .ok (.proceed (RunState.initial (predefined ++ [m]))) ∧
            (RunState.initial predefined).readLine
                (ascii "#define " ++ (optionName option ++ Byte.space :: optionValue option)) =
              .ok (.proceed (RunState.initial (predefined ++ [m]))) := by
  rw [ofOption_eq]
  split
  · rename_i hname
    refine ⟨⟨fun _ => hname, fun _ => ⟨_, rfl⟩⟩, ?_⟩
    rintro m ⟨⟩
    have hdefine := ofTokens_define hname.1 (optionValue option)
    obtain ⟨params, hline, hparams⟩ := exists_ofTokens?_define hname.1 (optionValue option)
    refine ⟨hdefine, fun predefined => ⟨follow_define_initial hdefine predefined, ?_⟩⟩
    -- The number sign is not blank, whatever comes after it.
    have hblank : Text.isBlank
        (ascii "#define " ++ (optionName option ++ Byte.space :: optionValue option)) = false := rfl
    rw [RunState.readLine, hblank, if_neg Bool.false_ne_true, hline]
    exact follow_define_initial (hparams.trans hdefine) predefined
  · rename_i hname
    refine ⟨⟨fun ⟨m, hm⟩ => ?_, fun h => absurd h hname⟩, fun m hm => ?_⟩
    all_goals cases hm

/-- An option whose value looks like a parameter list with an equals sign after it. -/
def listOption : Text := ascii "F= (x)=1\t"

/-- What it defines. -/
def listMacro : Macro :=
  ⟨ascii "F", none, [.operator "(", .word "x", .operator ")", .operator "=", .word "1"]⟩

/-- The list is part of the replacement, for the option and for the directive. -/
theorem ofOption_listOption :
    ofOption listOption = .ok listMacro ∧
    ofTokens (tokenize (ascii "F  (x)=1\t")) = .ok listMacro ∧
    (RunState.initial []).readLine (ascii "#define F  (x)=1\t") =
      .ok (.proceed (RunState.initial [listMacro])) := by
  have hoption : ofOption listOption = .ok listMacro := by
    have hvalue : Tokens.trim (tokenize (optionValue listOption)) = listMacro.value := by
      decide +kernel
    have hname : optionName listOption = ascii "F" := by decide
    rw [ofOption_eq, if_pos (by decide +kernel), hvalue, hname]
    rfl
  obtain ⟨hdefine, hrun⟩ := (ofOption_eq_define listOption).2 listMacro hoption
  exact ⟨hoption, hdefine, (hrun []).2⟩

end Macro

end HeaderMacros
