import HeaderMacros.Proofs.Condition.Invocation
import HeaderMacros.Proofs.Condition.Subexpression

/-!
# Testing a name

A condition may ask whether a name has a meaning: the test operator has the name after it, with or
without parentheses around the name. With parentheses it is an invocation, which becomes the form
without them in a step of its own; the parameter that stands for the name there is the operator's,
so no macro has a part in it. Without them the operator and the name give way to a truth value in
one step.

The name is not replaced on the way, so only whether it has a meaning counts, and not what it means
(`evaluate_nameTest`).
-/

namespace HeaderMacros.Condition

variable {lookup : Lookup} {front spaces inner rest ts : List Token}

open Tokens (withoutSpace)

/-- Conditions, white space aside, that hold exactly if a name has a meaning, or exactly if it has
none. -/
inductive NameTest (name : Text) : Bool → List Token → Prop where
  /-- The name stands after the operator. -/
  | bare : NameTest name true [Token.word "defined", Token.classify name]
  /-- The name stands in parentheses. -/
  | invoked : NameTest name true
      [Token.word "defined", Token.operator "(", Token.classify name, Token.operator ")"]
  /-- The test is negated. -/
  | negated {ts : List Token} (h : NameTest name true ts) :
      NameTest name false (Token.operator "!" :: ts)

/-- What stands before the operator in a test. -/
def testSign (wanted : Bool) : List Token := if wanted then [] else [Token.operator "!"]

/-- A test is its sign with one of the two forms after it. -/
theorem NameTest.eq_or_eq {name : Text} {wanted : Bool} (h : NameTest name wanted ts) :
    ts = testSign wanted ++ [Token.word "defined", Token.classify name] ∨
      ts = testSign wanted ++ [Token.word "defined", Token.operator "(", Token.classify name,
        Token.operator ")"] := by
  cases h with
  | bare => exact .inl rfl
  | invoked => exact .inr rfl
  | negated h =>
    cases h with
    | bare => exact .inl rfl
    | invoked => exact .inr rfl

/-! ## White space in a test -/

/-- A token that is not white space stands among the others as it does without white space. -/
theorem exists_of_withoutSpace_eq {t : Token} (before : List Token) {after : List Token}
    (h : withoutSpace ts = before ++ t :: after) :
    ∃ front back, ts = front ++ t :: back ∧ withoutSpace front = before ∧
      withoutSpace back = after := by
  obtain ⟨front, back, rfl, hfront, hback⟩ := List.filter_eq_append_iff.1 h
  obtain ⟨spaces, rest, rfl, hspaces, -, hrest⟩ := List.filter_eq_cons_iff.1 hback
  refine ⟨front ++ spaces, rest, by simp, ?_, hrest⟩
  have hblank : withoutSpace spaces = [] := List.filter_eq_nil_iff.2 hspaces
  rw [Tokens.withoutSpace_append, hblank, List.append_nil]
  exact hfront

theorem isSpace_of_withoutSpace_eq_nil (h : withoutSpace ts = []) : ∀ t ∈ ts, t.isSpace = true := by
  simpa [withoutSpace] using h

/-- White space among settled tokens is settled. -/
theorem isSettled_of_withoutSpace (hproper : ∀ t ∈ ts, t.Proper)
    (h : ∀ t ∈ withoutSpace ts, isSettled t = true) : ∀ t ∈ ts, isSettled t = true := by
  intro t ht
  cases hspace : t.isSpace with
  | false => exact h t (List.mem_filter.2 ⟨ht, by simp [hspace]⟩)
  | true =>
    refine isSettled_eq_true_iff.2 ⟨Token.isIdent_of_isSpace hspace, Bool.eq_false_iff.2 ?_⟩
    intro hopen
    rw [(hproper t ht).eq_classify hopen] at hspace
    exact absurd hspace (by decide)

/-! ## The steps of a test -/

theorem expandOnce_of_isSettled (lookup : Lookup) (h : ∀ t ∈ ts, isSettled t = true) :
    expandOnce lookup ts = .ok .finished := by
  have hempty : ∀ t ∈ ([] : List Token).head?, isSettled t = false := by simp
  have hstep := expandOnce_append lookup h hempty
  rw [List.append_nil] at hstep
  exact hstep

/-- An operator with a name after it gives way to a truth value. -/
theorem expandOnce_tested {tested : Token} (hlookup : lookup definedName = .definedOperator)
    (hfront : ∀ t ∈ front, isSettled t = true) (hspaces : withoutSpace spaces = [])
    (htested : tested.isIdent = true)
    (hopen : ∀ t ∈ spaces ++ tested :: rest, t.is [Byte.openParen] = false) :
    expandOnce lookup (front ++ Token.word "defined" :: (spaces ++ tested :: rest)) =
      .ok (.expanded (front ++ Token.ofBool (lookup tested.text != .undefined) :: rest)) := by
  have hafter : Tokens.trimLeft (spaces ++ tested :: rest) = tested :: rest := by
    have hsolid : tested.isSpace = false := Bool.eq_false_iff.2 fun hspace => by
      simp [Token.isIdent_of_isSpace hspace] at htested
    rw [Tokens.trimLeft, List.dropWhile_append_of_pos (isSpace_of_withoutSpace_eq_nil hspaces),
      List.dropWhile_cons_of_neg (by simp [hsolid])]
  have hreplace : replaceName lookup (Token.word "defined") (spaces ++ tested :: rest) =
      some (Token.ofBool (lookup tested.text != .undefined) :: rest) := by
    have hmeaning : lookup (Token.word "defined").text = .definedOperator := hlookup
    simp [replaceName, hmeaning, hafter, htested]
  have hnone : Tokens.splitLast? [Byte.openParen]
      (Token.word "defined" :: (spaces ++ tested :: rest)) = none :=
    Tokens.splitLast?_eq_none_iff.2 (List.forall_mem_cons.2 ⟨by decide, hopen⟩)
  have hoperator : ∀ t ∈ (Token.word "defined" :: (spaces ++ tested :: rest)).head?,
      isSettled t = false := by
    intro t ht
    rw [← Option.some.inj ht]
    decide
  rw [expandOnce_append lookup hfront hoperator, expandStep, hnone]
  simp [hreplace, Except.map, Progress.within]

/-- The operator, invoked, puts the tokens between the parentheses after itself. -/
theorem substitute_definedOperator {name : Text} (h : ∀ t ∈ inner, t.is [Byte.comma] = false) :
    substitute name Meaning.definedOperator.toMacro inner =
      .ok (Token.word "defined" :: Token.blank :: inner) := by
  have hargs : Tokens.splitOnCommas inner = [inner] := by
    induction inner with
    | nil => rfl
    | cons t inner ih =>
      obtain ⟨ht, hinner⟩ := List.forall_mem_cons.1 h
      rw [Tokens.splitOnCommas, ht, if_neg Bool.false_ne_true, ih hinner]
      rfl
  refine substitute_eq_ok_iff.2 ⟨[ascii "arg"], rfl, by decide, ?_, ?_⟩
  · have hplain : [ascii "arg"].getLast? ≠ some ellipsis := by decide
    rw [Accepts, if_neg (List.cons_ne_nil _ _), if_neg hplain, hargs]
    rfl
  · -- Only the last token of the replacement is a parameter.
    have hword : parameterIndex? [ascii "arg"] (Token.word "defined").text = none := by decide
    have hblank : parameterIndex? [ascii "arg"] Token.blank.text = none := by decide
    have harg : parameterIndex? [ascii "arg"] (Token.word "arg").text = some 0 := by decide
    simp [Meaning.toMacro, substituteToken, hword, hblank, harg, hargs]

/-- An operator with parentheses after it becomes one without them. -/
theorem expandOnce_invoked (hlookup : lookup definedName = .definedOperator)
    (hspaces : withoutSpace spaces = [])
    (hopen : ∀ t ∈ inner ++ Token.operator ")" :: rest, t.is [Byte.openParen] = false)
    (hclose : ∀ t ∈ inner, t.is [Byte.closeParen] = false)
    (hcomma : ∀ t ∈ inner, t.is [Byte.comma] = false) :
    expandOnce lookup (front ++ Token.word "defined" ::
        (spaces ++ Token.operator "(" :: (inner ++ Token.operator ")" :: rest))) =
      .ok (.expanded (front ++ Token.word "defined" :: ((Token.blank :: inner) ++ rest))) := by
  have hcallee : callee? (front ++ Token.word "defined" :: spaces).reverse =
      some (front.reverse, definedName) := by
    have hblank : ∀ t ∈ spaces.reverse, t.isSpace = true := fun t ht =>
      isSpace_of_withoutSpace_eq_nil hspaces t (List.mem_reverse.1 ht)
    have hreverse : (front ++ Token.word "defined" :: spaces).reverse =
        spaces.reverse ++ Token.word "defined" :: front.reverse := by simp
    rw [callee?, hreverse, Tokens.trimLeft, List.dropWhile_append_of_pos hblank]
    rfl
  have hwhole : front ++ Token.word "defined" ::
        (spaces ++ Token.operator "(" :: (inner ++ Token.operator ")" :: rest)) =
      (front ++ Token.word "defined" :: spaces) ++
        Token.operator "(" :: (inner ++ Token.operator ")" :: rest) := by simp
  rw [hwhole, expandOnce_of_closed (by decide) (by decide) hopen hclose, expandGroup, hcallee]
  simp only [hlookup, substitute_definedOperator hcomma, Except.map, List.reverse_reverse,
    List.cons_append]

/-! ## The value of a test -/

section Test

variable {name : Text} {wanted : Bool}

theorem isSettled_of_mem_testSign (wanted : Bool) : ∀ t ∈ testSign wanted, isSettled t = true := by
  cases wanted <;> decide

/-- A sign and a truth value come to whether the truth value is the one that the sign asks for. -/
theorem reduceSolid_testSign (wanted v : Bool) :
    (reduceSolid (testSign wanted ++ [Token.ofBool v])).map (fun n => n != 0) =
      .ok (v == wanted) := by
  revert wanted v
  decide +kernel

/-- A name is no operator. -/
theorem is_classify_of_isIdent (h : (Token.classify name).isIdent = true) {text : Text}
    (htext : (Token.classify text).isIdent = false) : (Token.classify name).is text = false := by
  refine Bool.eq_false_iff.2 fun hsame => ?_
  rw [Token.is, Token.text_classify, beq_iff_eq] at hsame
  rw [hsame, htext] at h
  cases h

/-- The form without parentheses comes to a truth value in the place of operator and name. -/
theorem expands_bare (steps : Nat) (hsteps : steps + 1 < maxSteps)
    (hlookup : lookup definedName = .definedOperator)
    (hname : (Token.classify name).isIdent = true) (hproper : ∀ t ∈ ts, t.Proper)
    (h : withoutSpace ts = testSign wanted ++ [Token.word "defined", Token.classify name]) :
    ∃ calls out n, Expands lookup steps ts calls ⟨.ok out, n⟩ ∧
      withoutSpace out = testSign wanted ++ [Token.ofBool (lookup name != .undefined)] := by
  obtain ⟨front, back, rfl, hfront, hback⟩ := exists_of_withoutSpace_eq (testSign wanted) h
  obtain ⟨spaces, rest, rfl, hspaces, hrest⟩ := exists_of_withoutSpace_eq [] hback
  have hfront' : ∀ t ∈ front, isSettled t = true := by
    refine isSettled_of_withoutSpace (fun t ht => hproper t (by simp [ht])) ?_
    rw [hfront]
    exact isSettled_of_mem_testSign wanted
  have hspaces' : ∀ t ∈ spaces, isSettled t = true :=
    isSettled_of_withoutSpace (fun t ht => hproper t (by simp [ht])) (by simp [hspaces])
  have hrest' : ∀ t ∈ rest, isSettled t = true :=
    isSettled_of_withoutSpace (fun t ht => hproper t (by simp [ht])) (by simp [hrest])
  have hopen : ∀ t ∈ spaces ++ Token.classify name :: rest, t.is [Byte.openParen] = false := by
    intro t ht
    rw [List.mem_append, List.mem_cons] at ht
    rcases ht with ht | rfl | ht
    · exact (isSettled_eq_true_iff.1 (hspaces' t ht)).2
    · exact is_classify_of_isIdent hname (by decide)
    · exact (isSettled_eq_true_iff.1 (hrest' t ht)).2
  have hstep := expandOnce_tested hlookup hfront' hspaces hname hopen
  rw [Token.text_classify] at hstep
  -- A truth value is no name, so nothing is left to expand.
  have hdone : ∀ t ∈ front ++ Token.ofBool (lookup name != .undefined) :: rest,
      isSettled t = true := by
    intro t ht
    rw [List.mem_append, List.mem_cons] at ht
    rcases ht with ht | rfl | ht
    · exact hfront' t ht
    · cases lookup name != .undefined <;> decide
    · exact hrest' t ht
  refine ⟨_, _, _, .expanded (Nat.lt_of_succ_lt hsteps) hstep
    (.finished hsteps (expandOnce_of_isSettled lookup hdone)), ?_⟩
  rw [Tokens.withoutSpace_append, Tokens.withoutSpace_cons_of_solid (Token.isSpace_ofBool _),
    hfront, hrest]

/-- The form with parentheses becomes the one without them. -/
theorem exists_expandOnce_invoked (hlookup : lookup definedName = .definedOperator)
    (hname : (Token.classify name).isIdent = true) (hproper : ∀ t ∈ ts, t.Proper)
    (h : withoutSpace ts = testSign wanted ++
      [Token.word "defined", Token.operator "(", Token.classify name, Token.operator ")"]) :
    ∃ next, expandOnce lookup ts = .ok (.expanded next) ∧ (∀ t ∈ next, t.Proper) ∧
      withoutSpace next = testSign wanted ++ [Token.word "defined", Token.classify name] := by
  obtain ⟨front, back, rfl, hfront, hback⟩ := exists_of_withoutSpace_eq (testSign wanted) h
  obtain ⟨spaces, args, rfl, hspaces, hargs⟩ := exists_of_withoutSpace_eq [] hback
  obtain ⟨inner, rest, rfl, hinner, hrest⟩ :=
    exists_of_withoutSpace_eq [Token.classify name] hargs
  -- Between and after the parentheses there is no operator, but white space and the name.
  have hnot {us : List Token} (hus : ∀ t ∈ us, t.Proper)
      (hsolid : ∀ t ∈ withoutSpace us, t = Token.classify name) {text : Text}
      (htext : (Token.classify text).isIdent = false ∧ (Token.classify text).isSpace = false) :
      ∀ t ∈ us, t.is text = false := by
    intro t ht
    cases hspace : t.isSpace with
    | false =>
      rw [hsolid t (List.mem_filter.2 ⟨ht, by simp [hspace]⟩)]
      exact is_classify_of_isIdent hname htext.1
    | true =>
      refine Bool.eq_false_iff.2 fun hsame => ?_
      rw [(hus t ht).eq_classify hsame, htext.2] at hspace
      cases hspace
  have hinner' := @hnot inner (fun t ht => hproper t (by simp [ht])) (by simp [hinner])
  have hrest' := @hnot rest (fun t ht => hproper t (by simp [ht])) (by simp [hrest])
  have hopen : ∀ t ∈ inner ++ Token.operator ")" :: rest, t.is [Byte.openParen] = false := by
    intro t ht
    rw [List.mem_append, List.mem_cons] at ht
    rcases ht with ht | rfl | ht
    · exact hinner' (by decide) t ht
    · decide
    · exact hrest' (by decide) t ht
  refine ⟨_, expandOnce_invoked hlookup hspaces hopen (hinner' (by decide)) (hinner' (by decide)),
    ?_, ?_⟩
  · intro t ht
    simp only [List.mem_append, List.mem_cons] at ht
    rcases ht with ht | rfl | (rfl | ht) | ht
    · exact hproper t (by simp [ht])
    · decide
    · decide
    · exact hproper t (by simp [ht])
    · exact hproper t (by simp [ht])
  · rw [Tokens.withoutSpace_append, Tokens.withoutSpace_cons_of_solid (by decide),
      Tokens.withoutSpace_append, Tokens.withoutSpace_cons_of_space (by decide), hfront, hinner,
      hrest]
    rfl

/-- A test comes to whether the name has a meaning, whatever the names of the condition mean. -/
theorem evaluate_nameTest (hlookup : lookup definedName = .definedOperator)
    (hname : (Token.classify name).isIdent = true) (hproper : ∀ t ∈ ts, t.Proper)
    (h : NameTest name wanted (withoutSpace ts)) :
    evaluate lookup ts = .ok ((lookup name != .undefined) == wanted) := by
  have hrun : ∃ calls out n, Expands lookup 0 ts calls ⟨.ok out, n⟩ ∧
      withoutSpace out = testSign wanted ++ [Token.ofBool (lookup name != .undefined)] := by
    rcases h.eq_or_eq with hsolid | hsolid
    · exact expands_bare 0 (by decide) hlookup hname hproper hsolid
    · obtain ⟨next, hstep, hnext, hsolid⟩ := exists_expandOnce_invoked hlookup hname hproper hsolid
      obtain ⟨calls, out, n, hrun, hout⟩ :=
        expands_bare 1 (by decide) hlookup hname hnext hsolid
      exact ⟨_, out, n, .expanded (by decide) hstep hrun, hout⟩
  obtain ⟨calls, out, n, hrun, hout⟩ := hrun
  rw [evaluate_eq hrun]
  show (reduceSolid (withoutSpace out)).map (fun n => n != 0) = _
  rw [hout]
  exact reduceSolid_testSign wanted _

end Test

end HeaderMacros.Condition
