import HeaderMacros.Condition.Expand
import HeaderMacros.Proofs.Token.Splitting

/-!
# One step of an expansion

`expandOnce` is one expansion step on all tokens of a condition; settled tokens are not kept apart.
It is what every step of an expansion does (`expandOnce_eq_expandStep`).

`StepsTo` says once and for all what a step can do, by the shape of the tokens it is made on
(`stepsTo_expandOnce`).
-/

namespace HeaderMacros.Condition

variable {lookup : Lookup}

/-! ## A step on all tokens -/

/-- The step at the last opening parenthesis, between the tokens before it, in reverse, and those
after the closing one. -/
def expandGroup (lookup : Lookup) (before inner after : List Token) : Except Cause Progress :=
  match callee? before with
  | some (front, name) =>
    (substitute name (lookup name).toMacro inner).map fun body =>
      .expanded (front.reverse ++ (body ++ after))
  | none => .ok (.nested before inner after)

/-- One expansion step on all tokens of a condition. -/
def expandOnce (lookup : Lookup) (ts : List Token) : Except Cause Progress :=
  match Tokens.splitLast? [Byte.openParen] ts with
  | none =>
    match ts.dropWhile fun t => !t.isIdent with
    | [] => .ok .finished
    | name :: after =>
      match replaceName lookup name after with
      | some next => .ok (.expanded ((ts.takeWhile fun t => !t.isIdent) ++ next))
      | none => .error (.malformed .definedWithoutName (Tokens.text ts))
  | some (before, rest) =>
    match Tokens.splitFirst? [Byte.closeParen] rest with
    | none => .error (.malformed .unmatchedParenthesis (Tokens.text ts))
    | some (inner, after) => expandGroup lookup before inner after

/-- A step at the last opening parenthesis, with the first closing one after it. -/
theorem expandOnce_of_closed {front inner : List Token} {opening closing : Token}
    {after : List Token} (hopening : opening.is [Byte.openParen] = true)
    (hclosing : closing.is [Byte.closeParen] = true)
    (hopen : ∀ t ∈ inner ++ closing :: after, t.is [Byte.openParen] = false)
    (hclose : ∀ t ∈ inner, t.is [Byte.closeParen] = false) :
    expandOnce lookup (front ++ opening :: (inner ++ closing :: after)) =
      expandGroup lookup front.reverse inner after := by
  simp only [expandOnce, Tokens.splitLast?_append hopening hopen,
    Tokens.splitFirst?_append hclose hclosing]

theorem expandOnce_of_unclosed {front back : List Token} {opening : Token}
    (hopening : opening.is [Byte.openParen] = true)
    (hopen : ∀ t ∈ back, t.is [Byte.openParen] = false)
    (hclose : ∀ t ∈ back, t.is [Byte.closeParen] = false) :
    expandOnce lookup (front ++ opening :: back) =
      .error (.malformed .unmatchedParenthesis (Tokens.text (front ++ opening :: back))) := by
  simp only [expandOnce, Tokens.splitLast?_append hopening hopen,
    Tokens.splitFirst?_eq_none_iff.2 hclose]

/-- The progress of some tokens is that of more tokens around them. -/
def Progress.within (front back : List Token) : Progress → Progress
  | .finished => .finished
  | .expanded next => .expanded (front ++ (next ++ back))
  | .nested before inner after => .nested (before ++ front.reverse) inner (after ++ back)

theorem callee?_append {back : List Token} (h : callee? back = none) (before : List Token) :
    callee? (before ++ back) = (callee? before).map fun found => (found.1 ++ back, found.2) := by
  induction before with
  | nil =>
    rw [List.nil_append, h]
    rfl
  | cons t before ih =>
    by_cases hspace : t.isSpace = true
    · simpa [callee?, Tokens.trimLeft, hspace] using ih
    · by_cases hident : t.isIdent = true <;>
        simp [callee?, Tokens.trimLeft, hspace, hident]

/-- A step at a parenthesis does not depend on what stands around the tokens, if that neither lends
a name to the parenthesis nor has parentheses to open. -/
theorem expandGroup_within (lookup : Lookup) {front : List Token} (h : callee? front.reverse = none)
    (before inner after back : List Token) :
    expandGroup lookup (before ++ front.reverse) inner (after ++ back) =
      (expandGroup lookup before inner after).map (Progress.within front back) := by
  rw [expandGroup, expandGroup, callee?_append h]
  cases callee? before with
  | none => rfl
  | some found =>
    simp only [Option.map_some]
    cases substitute found.2 (lookup found.2).toMacro inner with
    | error cause => rfl
    | ok body => simp [Except.map, Progress.within]

theorem isSettled_eq_true_iff {t : Token} :
    isSettled t = true ↔ t.isIdent = false ∧ t.is [Byte.openParen] = false := by
  simp [isSettled]

theorem callee?_of_settled {ts : List Token} (h : ∀ t ∈ ts, isSettled t = true) :
    callee? ts = none := by
  rw [callee?]
  split
  · rfl
  · rename_i t front htrim
    have ht : t ∈ ts := (List.dropWhile_sublist _).mem (htrim ▸ List.mem_cons_self)
    simp [(isSettled_eq_true_iff.1 (h t ht)).1]

/-- Keeping settled tokens apart makes no difference to a step. -/
theorem expandOnce_append (lookup : Lookup) {front rest : List Token}
    (hfront : ∀ t ∈ front, isSettled t = true) (hrest : ∀ t ∈ rest.head?, isSettled t = false) :
    expandOnce lookup (front ++ rest) =
      (expandStep lookup front.reverse rest).map (Progress.within front []) := by
  have hopen : ∀ t ∈ front, t.is [Byte.openParen] = false := fun t ht =>
    (isSettled_eq_true_iff.1 (hfront t ht)).2
  have hident : ∀ t ∈ front, (!t.isIdent) = true := fun t ht => by
    rw [(isSettled_eq_true_iff.1 (hfront t ht)).1]
    rfl
  rw [expandOnce, expandStep.eq_def, List.reverse_reverse]
  cases hsplit : Tokens.splitLast? [Byte.openParen] rest with
  | none =>
    have hnone := Tokens.splitLast?_eq_none_iff.1 hsplit
    have hwhole : Tokens.splitLast? [Byte.openParen] (front ++ rest) = none := by
      rw [Tokens.splitLast?_eq_none_iff]
      intro t ht
      rcases List.mem_append.1 ht with ht | ht
      · exact hopen t ht
      · exact hnone t ht
    rw [hwhole]
    cases rest with
    | nil =>
      simp only [List.append_nil, List.dropWhile_eq_nil_iff.2 hident]
      rfl
    | cons name after =>
      -- The first token that is not settled and no parenthesis is a name.
      have hname : name.isIdent = true := by
        have hopen := hnone name List.mem_cons_self
        have hsettled := hrest name rfl
        simpa [isSettled, hopen] using hsettled
      simp only [List.dropWhile_append_of_pos hident, List.takeWhile_append_of_pos hident,
        List.dropWhile_cons, List.takeWhile_cons, hname, Bool.not_true, Bool.false_eq_true,
        if_false, List.append_nil]
      cases replaceName lookup name after with
      | none => rfl
      | some next => simp [Except.map, Progress.within]
  | some found =>
    obtain ⟨before, back⟩ := found
    -- The last opening parenthesis of the rest is the last one of all, and a settled token in front
    -- is no name for it.
    obtain ⟨t, rfl, ht, hback⟩ := Tokens.splitLast?_eq_some_iff.1 hsplit
    have hwhole := Tokens.splitLast?_append ht hback (front ++ before.reverse)
    rw [List.append_assoc] at hwhole
    rw [hwhole]
    simp only [List.reverse_append, List.reverse_reverse]
    cases Tokens.splitFirst? [Byte.closeParen] back with
    | none => rfl
    | some parts =>
      have hcallee : callee? front.reverse = none :=
        callee?_of_settled fun t ht => hfront t (List.mem_reverse.1 ht)
      have hgroup := expandGroup_within lookup hcallee before parts.1 parts.2 []
      rw [List.append_nil] at hgroup
      exact hgroup

theorem isSettled_of_mem_append {done : List Token} (hdone : ∀ t ∈ done, isSettled t = true)
    (ts : List Token) : ∀ t ∈ (ts.takeWhile isSettled).reverse ++ done, isSettled t = true := by
  intro t ht
  rcases List.mem_append.1 ht with ht | ht
  · exact List.mem_takeWhile_imp (List.mem_reverse.1 ht)
  · exact hdone t ht

/-- A step on all tokens is one on the tokens after the settled ones. -/
theorem expandOnce_eq_expandStep (lookup : Lookup) {done : List Token}
    (hdone : ∀ t ∈ done, isSettled t = true) (ts : List Token) :
    expandOnce lookup (done.reverse ++ ts) =
      (expandStep lookup ((ts.takeWhile isSettled).reverse ++ done) (ts.dropWhile isSettled)).map
        (Progress.within ((ts.takeWhile isSettled).reverse ++ done).reverse []) := by
  have hsettled := isSettled_of_mem_append hdone ts
  have hhead : ∀ t ∈ (ts.dropWhile isSettled).head?, isSettled t = false := by
    intro t ht
    have hstop := List.head?_dropWhile_not isSettled ts
    rw [Option.mem_def.1 ht] at hstop
    simpa using hstop
  have hwhole : done.reverse ++ ts =
      ((ts.takeWhile isSettled).reverse ++ done).reverse ++ ts.dropWhile isSettled := by
    rw [List.reverse_append, List.reverse_reverse, List.append_assoc,
      List.takeWhile_append_dropWhile]
  rw [hwhole, expandOnce_append lookup (fun t ht => hsettled t (List.mem_reverse.1 ht)) hhead,
    List.reverse_reverse]

/-! ## What a step can do -/

/-- What a step on tokens of a given shape comes to. -/
inductive StepsTo (lookup : Lookup) : List Token → Except Cause Progress → Prop where
  /-- All tokens are settled. -/
  | finished {ts : List Token} (h : ∀ t ∈ ts, isSettled t = true) :
    StepsTo lookup ts (.ok .finished)
  /-- The first name is replaced. -/
  | replaced {front after : List Token} {name : Token} (hname : name.isIdent = true)
    (hmeaning : lookup name.text ≠ .definedOperator)
    (hopen : ∀ t ∈ front ++ name :: after, t.is [Byte.openParen] = false) :
    StepsTo lookup (front ++ name :: after)
      (.ok (.expanded (front ++ ((lookup name.text).toMacro.value ++ after))))
  /-- The test operator gives way to a truth value, together with the name after it. -/
  | tested {front spaces rest : List Token} {name tested : Token} (hname : name.isIdent = true)
    (hmeaning : lookup name.text = .definedOperator)
    (hspaces : ∀ t ∈ spaces, t.isSpace = true) (htested : tested.isIdent = true)
    (hopen : ∀ t ∈ front ++ name :: (spaces ++ tested :: rest), t.is [Byte.openParen] = false) :
    StepsTo lookup (front ++ name :: (spaces ++ tested :: rest))
      (.ok (.expanded (front ++ Token.ofBool (lookup tested.text != .undefined) :: rest)))
  /-- The test operator has no name after it. -/
  | untested {front after : List Token} {name : Token} (hname : name.isIdent = true)
    (hmeaning : lookup name.text = .definedOperator)
    (hafter : ∀ t ∈ (Tokens.trimLeft after).head?, t.isIdent = false)
    (hopen : ∀ t ∈ front ++ name :: after, t.is [Byte.openParen] = false) :
    StepsTo lookup (front ++ name :: after)
      (.error (.malformed .definedWithoutName (Tokens.text (front ++ name :: after))))
  /-- The last opening parenthesis is not closed. -/
  | unclosed {front back : List Token} {opening : Token}
    (hopening : opening.is [Byte.openParen] = true)
    (hopen : ∀ t ∈ back, t.is [Byte.openParen] = false)
    (hclose : ∀ t ∈ back, t.is [Byte.closeParen] = false) :
    StepsTo lookup (front ++ opening :: back)
      (.error (.malformed .unmatchedParenthesis (Tokens.text (front ++ opening :: back))))
  /-- A macro is invoked. -/
  | invoked {front spaces inner after : List Token} {name opening closing : Token}
    (hname : name.isIdent = true) (hspaces : ∀ t ∈ spaces, t.isSpace = true)
    (hopening : opening.is [Byte.openParen] = true)
    (hclosing : closing.is [Byte.closeParen] = true)
    (hopen : ∀ t ∈ inner ++ closing :: after, t.is [Byte.openParen] = false)
    (hclose : ∀ t ∈ inner, t.is [Byte.closeParen] = false) :
    StepsTo lookup (front ++ name :: (spaces ++ opening :: (inner ++ closing :: after)))
      ((substitute name.text (lookup name.text).toMacro inner).map fun body =>
        .expanded (front ++ (body ++ after)))
  /-- There is a condition of its own between the parentheses. -/
  | nested {front inner after : List Token} {opening closing : Token}
    (hcallee : callee? front.reverse = none) (hopening : opening.is [Byte.openParen] = true)
    (hclosing : closing.is [Byte.closeParen] = true)
    (hopen : ∀ t ∈ inner ++ closing :: after, t.is [Byte.openParen] = false)
    (hclose : ∀ t ∈ inner, t.is [Byte.closeParen] = false) :
    StepsTo lookup (front ++ opening :: (inner ++ closing :: after))
      (.ok (.nested front.reverse inner after))

theorem dropWhile_eq_cons {p : Token → Bool} {ts rest : List Token} {t : Token}
    (h : ts.dropWhile p = t :: rest) :
    ∃ front, ts.takeWhile p = front ∧ ts = front ++ t :: rest ∧ (∀ u ∈ front, p u = true) ∧
      p t = false := by
  refine ⟨_, rfl, ?_, fun u hu => List.mem_takeWhile_imp hu, ?_⟩
  · rw [← h, List.takeWhile_append_dropWhile]
  · have hstop := List.head?_dropWhile_not p ts
    rw [h] at hstop
    simpa using hstop

/-- The tokens before an opening parenthesis that has a name before it. -/
theorem callee?_eq_some {front : List Token} {others : List Token} {text : Text}
    (h : callee? front.reverse = some (others, text)) :
    ∃ name spaces, front = others.reverse ++ name :: spaces ∧ name.isIdent = true ∧
      name.text = text ∧ ∀ t ∈ spaces, t.isSpace = true := by
  unfold callee? at h
  split at h
  · cases h
  · rename_i name before htrim
    split at h
    · rename_i hident
      cases h
      obtain ⟨spaces, -, hfront, hspaces, -⟩ := dropWhile_eq_cons htrim
      refine ⟨name, spaces.reverse, ?_, hident, rfl, by simpa using hspaces⟩
      simpa using congrArg List.reverse hfront
    · cases h

theorem stepsTo_replaceName {front after : List Token} {name : Token} (hname : name.isIdent = true)
    (hopen : ∀ t ∈ front ++ name :: after, t.is [Byte.openParen] = false) :
    StepsTo lookup (front ++ name :: after)
      (match replaceName lookup name after with
      | some next => .ok (.expanded (front ++ next))
      | none => .error (.malformed .definedWithoutName (Tokens.text (front ++ name :: after)))) := by
  by_cases hmeaning : lookup name.text = .definedOperator
  · simp only [replaceName, hmeaning]
    cases htrim : Tokens.trimLeft after with
    | nil => exact .untested hname hmeaning (by simp [htrim]) hopen
    | cons tested rest =>
      obtain ⟨spaces, -, rfl, hspaces, -⟩ := dropWhile_eq_cons htrim
      by_cases htested : tested.isIdent = true
      · simpa [htested] using StepsTo.tested hname hmeaning hspaces htested hopen
      · have hafter : ∀ t ∈ (Tokens.trimLeft (spaces ++ tested :: rest)).head?,
            t.isIdent = false := by simpa [htrim] using htested
        simpa [htested] using StepsTo.untested hname hmeaning hafter hopen
  · have hvalue : replaceName lookup name after =
        some ((lookup name.text).toMacro.value ++ after) := by
      unfold replaceName
      split
      · contradiction
      · rfl
    rw [hvalue]
    exact .replaced hname hmeaning hopen

/-- A step does what the shape of its tokens says. -/
theorem stepsTo_expandOnce (lookup : Lookup) (ts : List Token) :
    StepsTo lookup ts (expandOnce lookup ts) := by
  rcases Tokens.forall_or_exists_last [Byte.openParen] ts with
    hopen | ⟨front, opening, back, rfl, hopening, hback⟩
  · -- Without an opening parenthesis the first name is replaced.
    rw [expandOnce, Tokens.splitLast?_eq_none_iff.2 hopen]
    cases hdrop : ts.dropWhile fun t => !t.isIdent with
    | nil =>
      refine .finished fun t ht => isSettled_eq_true_iff.2 ⟨?_, hopen t ht⟩
      simpa using List.dropWhile_eq_nil_iff.1 hdrop t ht
    | cons name after =>
      obtain ⟨front, hfront, rfl, -, hname⟩ := dropWhile_eq_cons hdrop
      simp only [hfront]
      exact stepsTo_replaceName (by simpa using hname) hopen
  rcases Tokens.forall_or_exists_first [Byte.closeParen] back with
    hclose | ⟨inner, closing, after, rfl, hclosing, hinner⟩
  · rw [expandOnce_of_unclosed hopening hback hclose]
    exact .unclosed hopening hback hclose
  · rw [expandOnce_of_closed hopening hclosing hback hinner, expandGroup]
    cases hcallee : callee? front.reverse with
    | none => exact .nested hcallee hopening hclosing hback hinner
    | some found =>
      obtain ⟨others, text⟩ := found
      obtain ⟨name, spaces, rfl, hname, rfl, hspaces⟩ := callee?_eq_some hcallee
      simpa using StepsTo.invoked hname hspaces hopening hclosing hback hinner

/-- Nothing is left to expand only if all tokens are settled. -/
theorem isSettled_of_finished {ts : List Token} (h : expandOnce lookup ts = .ok .finished) :
    ∀ t ∈ ts, isSettled t = true := by
  have hshape := stepsTo_expandOnce lookup ts
  generalize expandOnce lookup ts = progress at h hshape
  cases hshape with
  | finished hsettled => exact hsettled
  | replaced | tested | untested | unclosed | nested => cases h
  | @invoked _ _ inner _ name =>
    cases hbody : substitute name.text (lookup name.text).toMacro inner <;>
      simp [hbody, Except.map] at h

/-! ## Invocations -/

/-- An invocation that succeeds puts arguments in the places of parameters. -/
theorem substitute_eq_ok {name : Text} {m : Macro} {argTokens body : List Token}
    (h : substitute name m argTokens = .ok body) :
    ∃ params, m.params = some params ∧
      body = m.value.flatMap (substituteToken params (Tokens.splitOnCommas argTokens)) := by
  unfold substitute at h
  split at h
  · cases h
  · rename_i params hparams
    simp only [bind, Except.bind] at h
    split at h
    · cases h
    · split_ifs at h
      cases h
      exact ⟨params, hparams, rfl⟩

theorem mem_substituteToken {params : List Text} {argTokens : List Token} {t u : Token}
    (h : u ∈ substituteToken params (Tokens.splitOnCommas argTokens) t) :
    u = t ∨ u ∈ argTokens := by
  unfold substituteToken at h
  split at h
  · rename_i i _
    cases hget : (Tokens.splitOnCommas argTokens)[i]? with
    | none => simp [hget] at h
    | some arg =>
      rw [hget] at h
      exact .inr (Tokens.mem_of_mem_splitOnCommas (List.mem_of_getElem? hget) h)
  · exact .inl (List.mem_singleton.1 h)

theorem malformed_of_substitute {name : Text} {m : Macro} {argTokens : List Token}
    {cause : Cause} (h : substitute name m argTokens = .error cause) :
    ∃ defect near, cause = .malformed defect near ∧ defect ≠ .recursiveInvocation := by
  unfold substitute checkArguments at h
  split at h
  · cases h
    exact ⟨_, _, rfl, by simp⟩
  · simp only [bind, Except.bind] at h
    split at h
    · rename_i hcheck
      cases h
      split_ifs at hcheck
      all_goals
        cases hcheck
        exact ⟨_, _, rfl, by simp⟩
    · split_ifs at h
      cases h
      exact ⟨_, _, rfl, by simp⟩

/-- A step that fails finds its tokens malformed. It does not fail for want of steps. -/
theorem malformed_of_expandOnce {ts : List Token} {cause : Cause}
    (h : expandOnce lookup ts = .error cause) :
    ∃ defect near, cause = .malformed defect near ∧ defect ≠ .recursiveInvocation := by
  have hshape := stepsTo_expandOnce lookup ts
  generalize expandOnce lookup ts = progress at h hshape
  cases hshape with
  | finished | replaced | tested | nested => cases h
  | untested | unclosed =>
    cases h
    exact ⟨_, _, rfl, by simp⟩
  | @invoked _ _ inner _ name =>
    cases hbody : substitute name.text (lookup name.text).toMacro inner with
    | error _ =>
      rw [hbody] at h
      cases h
      exact malformed_of_substitute hbody
    | ok body => simp [hbody, Except.map] at h

/-! ## Where tokens come from -/

/-- All tokens that a step hands on have a property. -/
def Progress.Forall (P : Token → Prop) : Progress → Prop
  | .finished => True
  | .expanded next => ∀ t ∈ next, P t
  | .nested before inner after => ∀ t ∈ before ++ (inner ++ after), P t

theorem Progress.Forall.of_nested {P : Token → Prop} {before inner after : List Token}
    (h : (Progress.nested before inner after).Forall P) {v : Bool} (hv : P (Token.ofBool v)) :
    ∀ t ∈ before.reverse ++ Token.ofBool v :: after, P t := by
  intro t ht
  simp only [List.mem_append, List.mem_reverse, List.mem_cons] at ht
  rcases ht with ht | rfl | ht
  · exact h t (by simp [ht])
  · exact hv
  · exact h t (by simp [ht])

/-- A step takes tokens from the condition and from replacements, and truth values. -/
theorem forall_of_expandOnce {P : Token → Prop}
    (hvalue : ∀ name, ∀ t ∈ (lookup name).toMacro.value, P t)
    (hbool : ∀ v, P (Token.ofBool v)) {ts : List Token} {progress : Progress}
    (hts : ∀ t ∈ ts, P t) (h : expandOnce lookup ts = .ok progress) : progress.Forall P := by
  have hshape := stepsTo_expandOnce lookup ts
  generalize hresult : expandOnce lookup ts = result at h hshape
  cases hshape with
  | finished =>
    cases h
    trivial
  | replaced =>
    -- The replacement of the macro stands where its name stood.
    cases h
    intro t ht
    simp only [List.mem_append] at ht
    rcases ht with ht | ht | ht
    · exact hts t (by simp [ht])
    · exact hvalue _ t ht
    · exact hts t (by simp [ht])
  | tested =>
    cases h
    intro t ht
    simp only [List.mem_append, List.mem_cons] at ht
    rcases ht with ht | rfl | ht
    · exact hts t (by simp [ht])
    · exact hbool _
    · exact hts t (by simp [ht])
  | untested | unclosed => cases h
  | @invoked front spaces inner after name =>
    cases hbody : substitute name.text (lookup name.text).toMacro inner with
    | error cause => simp [hbody, Except.map] at h
    | ok body =>
      simp only [hbody, Except.map, Except.ok.injEq] at h
      subst h
      -- What stands in the place of the call comes from the replacement and the arguments.
      obtain ⟨params, -, rfl⟩ := substitute_eq_ok hbody
      intro t ht
      simp only [List.mem_append, List.mem_flatMap] at ht
      rcases ht with ht | ⟨u, hu, ht⟩ | ht
      · exact hts t (by simp [ht])
      · -- A token of the replacement stays, or gives way to tokens of an argument.
        rcases mem_substituteToken ht with rfl | ht
        · exact hvalue _ t hu
        · exact hts t (by simp [ht])
      · exact hts t (by simp [ht])
  | nested =>
    cases h
    intro t ht
    simp only [List.mem_append, List.mem_reverse] at ht
    rcases ht with ht | ht | ht <;> exact hts t (by simp [ht])

end HeaderMacros.Condition
