import HeaderMacros.Proofs.Condition.NameTest
import HeaderMacros.Proofs.Macro.History
import HeaderMacros.Proofs.Token.Spacing
import HeaderMacros.Run.Line

/-!
# Directives that test a name

A group can be opened by a directive of its own for the test of a name, or by a condition that is
such a test. The directive makes up the tokens of a condition, the condition comes from the line;
they are evaluated alike, whatever the macros of the run are (`Condition.evaluate_nameTest`).

`Tests` lists the lines that test a name. All lines that test one name for one outcome do the same
to a run: they open a group that is active exactly if the lines around it are and the test holds
(`readLine_tests`).
-/

namespace HeaderMacros.RunState

open Condition Token

/-- Lines that open a group on the test of a name: whether it has a meaning, or whether it has
none. -/
inductive Tests (name : Text) : Bool → Text → Prop where
  /-- The directive for names with a meaning. -/
  | ifdef {line : Text} (h : Spaced [operator "#", word "ifdef", classify name] line) :
    Tests name true line
  /-- The directive for names without meaning. -/
  | ifndef {line : Text} (h : Spaced [operator "#", word "ifndef", classify name] line) :
    Tests name false line
  /-- The directive for any condition, with a test as the condition. -/
  | opening {wanted : Bool} {condition : List Token} {line : Text}
    (hcondition : NameTest name wanted condition)
    (h : Spaced (operator "#" :: word "if" :: condition) line) : Tests name wanted line

variable {s : RunState} {name line : Text} {wanted : Bool} {params : List Token}

/-! ## Directives on spaced lines -/

/-- What a line with spaced tokens does is told by its first word and by the tokens after it. -/
theorem readLine_of_spaced {directive : Token} (hdirective : directive.IsSimple)
    (hparams : ∀ t ∈ params, t.IsSimple)
    (h : Spaced (operator "#" :: directive :: params) line) (s : RunState) :
    ∃ ts, s.readLine line = s.follow ⟨directive.text, ts⟩ ∧ (∀ t ∈ ts, t.Proper) ∧
      (∀ t ∈ ts.head?, t.isSpace = false) ∧ Tokens.withoutSpace ts = params := by
  have hhash : (operator "#").IsSimple := ⟨by decide, .inr ⟨Byte.hash, by decide, rfl⟩⟩
  have hall : ∀ t ∈ operator "#" :: directive :: params, t.IsSimple :=
    List.forall_mem_cons.2 ⟨hhash, List.forall_mem_cons.2 ⟨hdirective, hparams⟩⟩
  obtain ⟨blanks, rest, hline, hrest, htokens, hblanks⟩ := h.tokenize_eq_cons hall
  -- After the number sign the first token that is not white space is the directive.
  rw [withoutSpace_tokenize_of_spaced (List.forall_mem_cons.1 hall).2 hrest] at hblanks
  obtain ⟨spaces, after, hafter, hspaces, hsolid⟩ :=
    exists_of_withoutSpace_eq [] hblanks
  have htrim : Tokens.trimLeft (tokenize (blanks ++ rest)) = directive :: after := by
    have hnot : ¬directive.isSpace = true := by simp [hdirective.isSpace]
    rw [Tokens.trimLeft, hafter,
      List.dropWhile_append_of_pos (isSpace_of_withoutSpace_eq_nil hspaces),
      List.dropWhile_cons_of_neg hnot]
  have hread : s.readLine line = s.follow ⟨directive.text, Tokens.trim after⟩ := by
    have hblank : Text.isBlank line = false := by
      rw [hline]
      rfl
    rw [readLine, hblank, if_neg Bool.false_ne_true, htokens, Directive.ofTokens?,
      if_pos (by decide), htrim]
  refine ⟨Tokens.trim after, hread, ?_, (isSpace_ends_trim after).1, ?_⟩
  · intro t ht
    have hmem := (trim_isInfix after).mem ht
    refine eq_classify_of_mem_tokenize (?_ : t ∈ tokenize line)
    rw [htokens, hafter]
    simp [hmem]
  · rw [Tokens.withoutSpace_trim, hsolid]

/-- A group directive leads to what following it leads to. -/
theorem follow_of_followGroup {directive : Text} {g : GroupDirective} {next : RunState}
    (hdirective : GroupDirective.ofName? directive = some g)
    (h : s.followGroup g params = .ok next) :
    s.follow ⟨directive, params⟩ = .ok (.proceed next) := by
  have hne : directive ≠ [] := by
    rintro rfl
    cases hdirective
  rw [follow, if_neg hne, hdirective]
  show (s.followGroup g params).map Action.proceed = _
  rw [h]
  rfl

/-! ## The test of a name -/

theorem isSimple_classify (hname : (classify name).isIdent = true) : (classify name).IsSimple := by
  have hword : (classify name).isWord = true := by
    rw [isIdent, Bool.and_eq_true] at hname
    exact hname.1
  refine ⟨⟨by rw [text_classify], ?_⟩, .inl hword⟩
  intro hempty
  rw [text_classify] at hempty
  rw [hempty] at hname
  exact absurd hname (by decide)

theorem isSimple_of_nameTest (hname : (classify name).isIdent = true)
    (h : NameTest name wanted params) : ∀ t ∈ params, t.IsSimple := by
  have hoperator {b : UInt8} (hb : b ∈ singleCharOperators) :
      (⟨.operator, [b]⟩ : Token).IsSimple :=
    ⟨⟨classify_of_mem_singleCharOperators b hb, List.cons_ne_nil b []⟩, .inr ⟨b, hb, rfl⟩⟩
  have hword : (word "defined").IsSimple := ⟨by decide, .inl rfl⟩
  induction h with
  | bare => simpa using ⟨hword, isSimple_classify hname⟩
  | invoked =>
    simpa using ⟨hword, hoperator (b := Byte.openParen) (by decide), isSimple_classify hname,
      hoperator (b := Byte.closeParen) (by decide)⟩
  | negated _ ih => exact List.forall_mem_cons.2 ⟨hoperator (b := 33) (by decide), ih⟩

/-- A condition with a value opens a group with that value. Where lines are skipped the condition is
not looked at, but the value does not count there either. -/
theorem openGroup_of_evaluate {condition : List Token} {v : Bool}
    (h : s.evaluate condition = .ok v) :
    s.openGroup condition = .ok { s with groups := s.groups.push v s.position } := by
  rw [openGroup]
  split_ifs with hactive
  · rw [h]
    rfl
  · simp [Groups.push, hactive]

/-- Whether a test of a name holds with the macros of a run. -/
def holds (s : RunState) (name : Text) (wanted : Bool) : Bool :=
  (s.macros.lookup name != .undefined) == wanted

theorem openGroup_of_nameTest (hname : (classify name).isIdent = true)
    {condition : List Token} (hproper : ∀ t ∈ condition, t.Proper)
    (h : NameTest name wanted (Tokens.withoutSpace condition)) :
    s.openGroup condition =
      .ok { s with groups := s.groups.push (s.holds name wanted) s.position } := by
  have hoperator : s.macros.lookup definedName = .definedOperator := if_pos rfl
  exact openGroup_of_evaluate (evaluate_nameTest hoperator hname hproper h)

/-- The condition of a directive for names is a test of the name. -/
theorem nameTest_definedCondition (hname : (classify name).isIdent = true) :
    (∀ t ∈ definedCondition (classify name), t.Proper) ∧
      NameTest name true (Tokens.withoutSpace (definedCondition (classify name))) := by
  have hnamed := isSimple_classify hname
  constructor
  · simpa [definedCondition] using ⟨by decide, by decide, hnamed.1⟩
  · rw [definedCondition, Tokens.withoutSpace_cons_of_solid (by decide),
      Tokens.withoutSpace_cons_of_space (by decide),
      Tokens.withoutSpace_cons_of_solid hnamed.isSpace]
    exact .bare

/-- A line that tests a name opens a group. -/
theorem readLine_of_tests (hname : (classify name).isIdent = true) (h : Tests name wanted line) :
    s.readLine line =
      .ok (.proceed { s with groups := s.groups.push (s.holds name wanted) s.position }) := by
  have hnamed : ∀ t ∈ [classify name], t.IsSimple := by simpa using isSimple_classify hname
  obtain ⟨hproper, htest⟩ := nameTest_definedCondition hname
  -- The first parameter of a directive for names is the name.
  have hfirst {ts : List Token} (hhead : ∀ t ∈ ts.head?, t.isSpace = false)
      (hsolid : Tokens.withoutSpace ts = [classify name]) : ∃ rest, ts = classify name :: rest := by
    cases ts with
    | nil => cases hsolid
    | cons t rest =>
      rw [Tokens.withoutSpace_cons_of_solid (hhead t rfl)] at hsolid
      exact ⟨rest, by rw [(List.cons.inj hsolid).1]⟩
  cases h with
  | ifdef h =>
    obtain ⟨ts, hread, -, hhead, hsolid⟩ :=
      readLine_of_spaced ⟨by decide, .inl rfl⟩ hnamed h s
    obtain ⟨rest, rfl⟩ := hfirst hhead hsolid
    rw [hread]
    exact follow_of_followGroup (g := .ifdef) rfl (openGroup_of_nameTest hname hproper htest)
  | ifndef h =>
    obtain ⟨ts, hread, -, hhead, hsolid⟩ :=
      readLine_of_spaced ⟨by decide, .inl rfl⟩ hnamed h s
    obtain ⟨rest, rfl⟩ := hfirst hhead hsolid
    rw [hread]
    refine follow_of_followGroup (g := .ifndef) rfl (openGroup_of_nameTest hname ?_ ?_)
    · exact List.forall_mem_cons.2 ⟨by decide, List.forall_mem_cons.2 ⟨by decide, hproper⟩⟩
    · rw [Tokens.withoutSpace_cons_of_solid (by decide),
        Tokens.withoutSpace_cons_of_space (by decide)]
      exact .negated htest
  | opening hcondition h =>
    obtain ⟨ts, hread, hproper, -, rfl⟩ :=
      readLine_of_spaced ⟨by decide, .inl rfl⟩ (isSimple_of_nameTest hname hcondition) h s
    rw [hread]
    exact follow_of_followGroup (g := .opening) rfl (openGroup_of_nameTest hname hproper hcondition)

/-- A test for a meaning holds for the test operator and for the names of the macros. -/
theorem holds_eq_true_iff : s.holds name wanted = true ↔
    ((name = definedName ∨ ∃ m ∈ s.macros.macros, m.name = name) ↔ wanted = true) := by
  have hmeaning : s.macros.lookup name ≠ .undefined ↔
      name = definedName ∨ ∃ m ∈ s.macros.macros, m.name = name := by
    by_cases hoperator : name = definedName
    · have hlookup : s.macros.lookup name = .definedOperator := if_pos hoperator
      rw [hlookup]
      exact iff_of_true nofun (.inl hoperator)
    · rw [Ne, Table.lookup_eq_undefined_iff hoperator]
      simp [hoperator]
  rw [holds, beq_iff_eq, Bool.eq_iff_iff, bne_iff_ne, hmeaning]

/-- A line that tests a name opens a group and does nothing else. The group is active exactly if the
lines around it are and the test holds, where the test operator counts as a name with a meaning. It
makes no difference how the test is written. -/
theorem readLine_tests (s : RunState) {name : Text} (hname : (classify name).isIdent = true)
    {wanted : Bool} {line : Text} (h : Tests name wanted line) :
    (∃ active : Bool,
      s.readLine line =
        .ok (.proceed { s with groups := ⟨active, active, s.position⟩ :: s.groups }) ∧
      (active = true ↔ s.groups.active = true ∧
        ((name = definedName ∨ ∃ m ∈ s.macros.macros, m.name = name) ↔ wanted = true))) ∧
    ∀ other, Tests name wanted other → s.readLine other = s.readLine line := by
  refine ⟨⟨s.groups.active && s.holds name wanted, readLine_of_tests hname h, ?_⟩, ?_⟩
  · rw [Bool.and_eq_true, holds_eq_true_iff]
  · intro other hother
    rw [readLine_of_tests hname h, readLine_of_tests hname hother]

/-- A state with macros that have the name of the test operator and that of its parameter, and with
one that invokes itself. -/
def selfInvoking : RunState :=
  RunState.initial [⟨definedName, none, []⟩, ⟨ascii "arg", none, [word "X"]⟩,
    ⟨ascii "X", some [ascii "X"], tokenize (ascii "X(X)")⟩]

theorem readLine_tests_selfInvoking :
    Tests (ascii "X") true (ascii "#ifdef X") ∧
      Tests (ascii "X") true (ascii "# if \tdefined( X ) ") ∧
      selfInvoking.readLine (ascii "# if \tdefined( X ) ") =
        selfInvoking.readLine (ascii "#ifdef X") ∧
      selfInvoking.readLine (ascii "#ifdef X") =
        .ok (.proceed { selfInvoking with groups := [⟨true, true, selfInvoking.position⟩] }) := by
  have hifdef : Tests (ascii "X") true (ascii "#ifdef X") := by
    refine .ifdef (.cons [] (by decide +kernel) (by decide) ?_)
    refine .cons (ascii " ") (by decide +kernel) (by decide) ?_
    exact .cons [] (by decide +kernel) (by decide) .nil
  have hif : Tests (ascii "X") true (ascii "# if \tdefined( X ) ") := by
    refine .opening .invoked (.cons (ascii " ") (by decide +kernel) (by decide) ?_)
    refine .cons (ascii " \t") (by decide +kernel) (by decide) ?_
    refine .cons [] (by decide +kernel) (by decide) ?_
    refine .cons (ascii " ") (by decide +kernel) (by decide) ?_
    refine .cons (ascii " ") (by decide +kernel) (by decide) ?_
    exact .cons (ascii " ") (by decide +kernel) (by decide) .nil
  obtain ⟨⟨active, hread, hactive⟩, hsame⟩ := readLine_tests selfInvoking (by decide) hifdef
  have htrue : active = true := hactive.2 ⟨rfl, iff_of_true (.inr (by decide)) rfl⟩
  rw [htrue] at hread
  exact ⟨hifdef, hif, hsame _ hif, hread⟩

end HeaderMacros.RunState
