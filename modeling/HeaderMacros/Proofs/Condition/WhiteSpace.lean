import HeaderMacros.Proofs.Condition.Expansion
import HeaderMacros.Proofs.Macro.Parsed
import HeaderMacros.Proofs.Token.WithoutSpace

/-!
# White space in conditions

White space tokens stay among the tokens of a condition through all steps of its expansion, and are
passed over wherever a step looks for something: a name before a parenthesis, a name after the test
operator, the arguments of an invocation. So they make no difference to what a step does, apart from
the white space that it hands on and the text that a failure quotes (`expandOnce_withoutSpace`).

Two conditions that are the same but for white space are therefore expanded in the same number of
steps and come to the same truth value or the same failure (`evaluate_ignores_space`).
-/

namespace HeaderMacros

/-- A cause without the text that it quotes. -/
def Cause.unquoted : Cause → Cause
  | .malformed defect _ => .malformed defect []
  | .valueless defect _ => .valueless defect []
  | .unresolved request failure => .unresolved request failure
  | .nestedTooDeeply => .nestedTooDeeply

namespace Condition

variable {lookup : Lookup} {ts ts' : List Token}

open Tokens (withoutSpace)

/-! ## Up to white space -/

/-- What tokens lead to, by a function that takes away white space, and without quoted text. -/
def solidly {α : Type} (f : α → α) (x : Except Cause α) : Except Cause α :=
  (x.map f).mapError Cause.unquoted

theorem solidly_eq_error {α : Type} {f : α → α} {x : Except Cause α} {cause : Cause}
    (h : solidly f x = solidly f (.error cause)) :
    ∃ cause', x = .error cause' ∧ cause'.unquoted = cause.unquoted := by
  cases x with
  | error cause' => exact ⟨cause', rfl, Except.error.inj h⟩
  | ok a => cases h

theorem solidly_eq_ok {α : Type} {f : α → α} {x : Except Cause α} {a : α}
    (h : solidly f x = solidly f (.ok a)) : ∃ b, x = .ok b ∧ f b = f a := by
  cases x with
  | error cause => cases h
  | ok b => exact ⟨b, rfl, Except.ok.inj h⟩

/-- The progress of an expansion without white space. -/
def Progress.solid : Progress → Progress
  | .finished => .finished
  | .expanded next => .expanded (withoutSpace next)
  | .nested before inner after =>
    .nested (withoutSpace before) (withoutSpace inner) (withoutSpace after)

/-! ## Invocations -/

theorem callee?_withoutSpace (before : List Token) :
    callee? (withoutSpace before) =
      (callee? before).map fun found => (withoutSpace found.1, found.2) := by
  rw [callee?, callee?, Tokens.trimLeft_withoutSpace, ← Tokens.withoutSpace_trimLeft]
  cases hbefore : Tokens.trimLeft before with
  | nil => rfl
  | cons t front =>
    rw [Tokens.withoutSpace_cons_of_solid (Tokens.isSpace_of_trimLeft hbefore)]
    dsimp only
    split_ifs <;> rfl

theorem checkArguments_withoutSpace (name : Text) (m : Macro) (params : List Text)
    (argTokens : List Token) (args : List (List Token)) :
    solidly id (checkArguments name m params (withoutSpace argTokens) (args.map withoutSpace)) =
      solidly id (checkArguments name m params argTokens args) := by
  have htrim : Tokens.trim (withoutSpace argTokens) = [] ↔ Tokens.trim argTokens = [] := by
    rw [Tokens.trim_eq_nil_iff, Tokens.trim_eq_nil_iff, Tokens.withoutSpace_withoutSpace]
  unfold checkArguments
  simp only [htrim, List.length_map]
  split_ifs <;> rfl

/-- Arguments may lose their white space before they are put in. -/
theorem withoutSpace_substituteToken (params : List Text) (args : List (List Token)) (t : Token) :
    withoutSpace (substituteToken params (args.map withoutSpace) t) =
      withoutSpace (substituteToken params args t) := by
  unfold substituteToken
  cases parameterIndex? params t.text with
  | none => rfl
  | some i =>
    dsimp only
    rw [List.getElem?_map]
    cases args[i]? with
    | none => rfl
    | some arg => exact Tokens.withoutSpace_withoutSpace arg

theorem withoutSpace_flatMap {f g : Token → List Token}
    (h : ∀ t, withoutSpace (f t) = withoutSpace (g t)) (ts : List Token) :
    withoutSpace (ts.flatMap f) = withoutSpace (ts.flatMap g) := by
  induction ts with
  | nil => rfl
  | cons t ts ih =>
    rw [List.flatMap_cons, List.flatMap_cons, Tokens.withoutSpace_append,
      Tokens.withoutSpace_append, h, ih]

/-- An invocation comes to the same up to white space with and without white space. -/
theorem substitute_withoutSpace (name : Text) (m : Macro) {argTokens : List Token}
    (h : ∀ t ∈ argTokens, t.Proper) :
    solidly withoutSpace (substitute name m (withoutSpace argTokens)) =
      solidly withoutSpace (substitute name m argTokens) := by
  have hcomma : ∀ t ∈ argTokens, t.is [Byte.comma] = true → t.isSpace = false := by
    intro t ht hcomma
    rw [(h t ht).eq_classify hcomma]
    decide
  unfold substitute
  cases m.params with
  | none => rfl
  | some params =>
    dsimp only
    rw [Tokens.splitOnCommas_withoutSpace hcomma]
    have hcheck :=
      checkArguments_withoutSpace name m params argTokens (Tokens.splitOnCommas argTokens)
    cases hargs : checkArguments name m params argTokens (Tokens.splitOnCommas argTokens) with
    | error cause =>
      -- The arguments are refused with and without white space.
      rw [hargs] at hcheck
      obtain ⟨cause', hargs', hcause⟩ := solidly_eq_error hcheck
      rw [hargs']
      exact congrArg Except.error hcause
    | ok accepted =>
      rw [hargs] at hcheck
      obtain ⟨accepted', hargs', -⟩ := solidly_eq_ok hcheck
      rw [hargs']
      show solidly withoutSpace (if _ then _ else _) = solidly withoutSpace (if _ then _ else _)
      split_ifs
      · rfl
      · exact congrArg Except.ok
          (withoutSpace_flatMap (withoutSpace_substituteToken params _) m.value)

/-! ## One step -/

theorem expandGroup_withoutSpace (lookup : Lookup) (before : List Token) {inner : List Token}
    (h : ∀ t ∈ inner, t.Proper) (after : List Token) :
    solidly Progress.solid
        (expandGroup lookup (withoutSpace before) (withoutSpace inner) (withoutSpace after)) =
      solidly Progress.solid (expandGroup lookup before inner after) := by
  rw [expandGroup, expandGroup, callee?_withoutSpace]
  cases callee? before with
  | none => simp [solidly, Except.map, Progress.solid]
  | some found =>
    obtain ⟨front, name⟩ := found
    have hbody := substitute_withoutSpace name (lookup name).toMacro h
    dsimp only [Option.map_some]
    cases hargs : substitute name (lookup name).toMacro inner with
    | error cause =>
      rw [hargs] at hbody
      obtain ⟨cause', hargs', hcause⟩ := solidly_eq_error hbody
      rw [hargs']
      exact congrArg Except.error hcause
    | ok body =>
      rw [hargs] at hbody
      obtain ⟨body', hargs', hsame⟩ := solidly_eq_ok hbody
      rw [hargs']
      simp [solidly, Except.map, Progress.solid, Tokens.withoutSpace_append,
        Tokens.withoutSpace_reverse, hsame]

theorem replaceName_withoutSpace (lookup : Lookup) (name : Token) (after : List Token) :
    (replaceName lookup name (withoutSpace after)).map withoutSpace =
      (replaceName lookup name after).map withoutSpace := by
  unfold replaceName
  cases lookup name.text with
  | defined m | undefined => simp [Tokens.withoutSpace_append]
  | definedOperator =>
    dsimp only
    rw [Tokens.trimLeft_withoutSpace, ← Tokens.withoutSpace_trimLeft]
    cases hafter : Tokens.trimLeft after with
    | nil => rfl
    | cons tested rest =>
      rw [Tokens.withoutSpace_cons_of_solid (Tokens.isSpace_of_trimLeft hafter)]
      dsimp only
      split_ifs
      · simp [Tokens.withoutSpace_cons_of_solid (Token.isSpace_ofBool _)]
      · rfl

/-- Where no parenthesis opens, white space makes no difference to a step. -/
theorem expandOnce_withoutSpace_of_not_open (lookup : Lookup)
    (h : ∀ t ∈ ts, t.is [Byte.openParen] = false) :
    solidly Progress.solid (expandOnce lookup (withoutSpace ts)) =
      solidly Progress.solid (expandOnce lookup ts) := by
  have hspace : ∀ t ∈ ts, t.isSpace = true → (!t.isIdent) = true := by
    intro t _ ht
    simp [Token.isIdent_of_isSpace ht]
  rw [expandOnce, expandOnce, Tokens.splitLast?_eq_none_iff.2 h, Tokens.splitLast?_eq_none_iff.2
    fun t ht => h t (Tokens.mem_of_mem_withoutSpace ht), Tokens.dropWhile_withoutSpace hspace,
    Tokens.takeWhile_withoutSpace hspace]
  cases hdrop : ts.dropWhile fun t => !t.isIdent with
  | nil => rfl
  | cons name after =>
    -- The first name is the same, and so is what becomes of it up to white space.
    have hname : name.isSpace = false := by
      obtain ⟨_, -, -, -, hident⟩ := dropWhile_eq_cons hdrop
      rw [← Bool.not_eq_true]
      intro hname
      rw [Token.isIdent_of_isSpace hname] at hident
      cases hident
    have hreplace := replaceName_withoutSpace lookup name after
    rw [Tokens.withoutSpace_cons_of_solid hname]
    dsimp only
    cases hnext : replaceName lookup name after with
    | none =>
      rw [hnext, Option.map_none, Option.map_eq_none_iff] at hreplace
      rw [hreplace]
      rfl
    | some next =>
      rw [hnext, Option.map_some, Option.map_eq_some_iff] at hreplace
      obtain ⟨next', hnext', hsame⟩ := hreplace
      rw [hnext']
      simp [solidly, Except.map, Progress.solid, Tokens.withoutSpace_append, hsame]

/-- White space makes no difference to a step. -/
theorem expandOnce_withoutSpace (lookup : Lookup) (h : ∀ t ∈ ts, t.Proper) :
    solidly Progress.solid (expandOnce lookup (withoutSpace ts)) =
      solidly Progress.solid (expandOnce lookup ts) := by
  have hsolid {t : Token} (ht : t ∈ ts) {text : Text} (hclass : (Token.classify text).isSpace = false)
      (htext : t.is text = true) : t.isSpace = false := by
    rw [(h t ht).eq_classify htext, hclass]
  rcases Tokens.forall_or_exists_last [Byte.openParen] ts with
    hopen | ⟨front, opening, back, rfl, hopening, hback⟩
  · exact expandOnce_withoutSpace_of_not_open lookup hopen
  have hopening' := hsolid (by simp) (by decide) hopening
  have hback' : ∀ t ∈ withoutSpace back, t.is [Byte.openParen] = false := fun t ht =>
    hback t (Tokens.mem_of_mem_withoutSpace ht)
  rw [Tokens.withoutSpace_append, Tokens.withoutSpace_cons_of_solid hopening']
  rcases Tokens.forall_or_exists_first [Byte.closeParen] back with
    hclose | ⟨inner, closing, after, rfl, hclosing, hinner⟩
  · rw [expandOnce_of_unclosed hopening hback hclose, expandOnce_of_unclosed hopening hback'
      fun t ht => hclose t (Tokens.mem_of_mem_withoutSpace ht)]
    rfl
  · have hclosing' := hsolid (by simp) (by decide) hclosing
    rw [Tokens.withoutSpace_append, Tokens.withoutSpace_cons_of_solid hclosing'] at hback' ⊢
    rw [expandOnce_of_closed hopening hclosing hback hinner, expandOnce_of_closed hopening hclosing
      hback' fun t ht => hinner t (Tokens.mem_of_mem_withoutSpace ht), ← Tokens.withoutSpace_reverse]
    exact expandGroup_withoutSpace lookup front.reverse (fun t ht => h t (by simp [ht])) after

/-! ## Two conditions -/

/-- Proper tokens that are the same but for white space. -/
structure SameButSpace (ts ts' : List Token) : Prop where
  /-- The first tokens are proper. -/
  proper : ∀ t ∈ ts, t.Proper
  /-- The second tokens are proper. -/
  proper' : ∀ t ∈ ts', t.Proper
  /-- Without white space they are the same. -/
  solid : withoutSpace ts = withoutSpace ts'

namespace SameButSpace

theorem expandOnce_eq (h : SameButSpace ts ts') (lookup : Lookup) :
    solidly Progress.solid (expandOnce lookup ts') =
      solidly Progress.solid (expandOnce lookup ts) := by
  rw [← expandOnce_withoutSpace lookup h.proper', ← h.solid,
    expandOnce_withoutSpace lookup h.proper]

/-- A step fails on both conditions. -/
theorem of_failed (h : SameButSpace ts ts') {cause : Cause}
    (hstep : expandOnce lookup ts = .error cause) :
    ∃ cause', expandOnce lookup ts' = .error cause' ∧ cause'.unquoted = cause.unquoted := by
  have hstep' := h.expandOnce_eq lookup
  rw [hstep] at hstep'
  exact solidly_eq_error hstep'

/-- There is nothing left to expand in both conditions. -/
theorem of_finished (h : SameButSpace ts ts') (hstep : expandOnce lookup ts = .ok .finished) :
    expandOnce lookup ts' = .ok .finished := by
  have hstep' := h.expandOnce_eq lookup
  rw [hstep] at hstep'
  obtain ⟨progress', hprogress, hsolid⟩ := solidly_eq_ok hstep'
  cases progress' with
  | finished => exact hprogress
  | expanded | nested => cases hsolid

variable (hvalue : ∀ name, ∀ t ∈ (lookup name).toMacro.value, t.Proper)
include hvalue

/-- A step leads from both conditions to tokens that are the same but for white space. -/
theorem of_expanded (h : SameButSpace ts ts') {next : List Token}
    (hstep : expandOnce lookup ts = .ok (.expanded next)) :
    ∃ next', expandOnce lookup ts' = .ok (.expanded next') ∧ SameButSpace next next' := by
  have hstep' := h.expandOnce_eq lookup
  rw [hstep] at hstep'
  obtain ⟨progress', hprogress, hsolid⟩ := solidly_eq_ok hstep'
  cases progress' with
  | expanded next' =>
    refine ⟨next', hprogress, ?_, ?_, (Progress.expanded.inj hsolid).symm⟩
    · exact forall_of_expandOnce hvalue Token.proper_ofBool h.proper hstep
    · exact forall_of_expandOnce hvalue Token.proper_ofBool h.proper' hprogress
  | finished | nested => cases hsolid

/-- Both conditions have an inner one at the same place, and go on alike with its truth value. -/
theorem of_nested (h : SameButSpace ts ts') {before inner after : List Token}
    (hstep : expandOnce lookup ts = .ok (.nested before inner after)) :
    ∃ before' inner' after', expandOnce lookup ts' = .ok (.nested before' inner' after') ∧
      SameButSpace inner inner' ∧ ∀ v, SameButSpace (before.reverse ++ Token.ofBool v :: after)
        (before'.reverse ++ Token.ofBool v :: after') := by
  have hstep' := h.expandOnce_eq lookup
  rw [hstep] at hstep'
  obtain ⟨progress', hprogress, hsolid⟩ := solidly_eq_ok hstep'
  cases progress' with
  | nested before' inner' after' =>
    obtain ⟨hbefore, hinner, hafter⟩ := Progress.nested.inj hsolid
    have hproper := forall_of_expandOnce hvalue Token.proper_ofBool h.proper hstep
    have hproper' := forall_of_expandOnce hvalue Token.proper_ofBool h.proper' hprogress
    refine ⟨before', inner', after', hprogress, ⟨?_, ?_, hinner.symm⟩, fun v => ⟨?_, ?_, ?_⟩⟩
    · exact fun t ht => hproper t (by simp [ht])
    · exact fun t ht => hproper' t (by simp [ht])
    · exact hproper.of_nested (Token.proper_ofBool v)
    · exact hproper'.of_nested (Token.proper_ofBool v)
    · rw [Tokens.withoutSpace_append, Tokens.withoutSpace_append, Tokens.withoutSpace_reverse,
        Tokens.withoutSpace_reverse, Tokens.withoutSpace_cons_of_solid (Token.isSpace_ofBool v),
        Tokens.withoutSpace_cons_of_solid (Token.isSpace_ofBool v), hbefore, hafter]
  | finished | expanded => cases hsolid

end SameButSpace

/-- The value of what an expansion comes to does not depend on white space. -/
theorem bind_reduce_solidly {x y : Except Cause (List Token)}
    (h : solidly withoutSpace x = solidly withoutSpace y) :
    solidly id (x.bind reduce) = solidly id (y.bind reduce) := by
  cases y with
  | error cause =>
    obtain ⟨cause', rfl, hcause⟩ := solidly_eq_error h
    exact congrArg Except.error hcause
  | ok us =>
    obtain ⟨us', rfl, hus⟩ := solidly_eq_ok h
    simp only [Except.bind, reduce, hus]

/-- Tokens that are the same but for white space are expanded in as many steps, and to the same up
to white space. -/
theorem Expands.ignores_space (hvalue : ∀ name, ∀ t ∈ (lookup name).toMacro.value, t.Proper)
    {steps : Nat} {calls calls' : List (List Token)} {out out' : Counted (List Token)}
    (h : Expands lookup steps ts calls out) (h' : Expands lookup steps ts' calls' out')
    (hts : SameButSpace ts ts') :
    out'.steps = out.steps ∧
      solidly withoutSpace out'.outcome = solidly withoutSpace out.outcome := by
  induction h generalizing ts' calls' out' with
  | exhausted hlimit =>
    obtain ⟨-, rfl⟩ := h'.of_exhausted hlimit
    exact ⟨rfl, rfl⟩
  | failed hsteps hstep =>
    obtain ⟨cause', hstep', hcause⟩ := hts.of_failed hstep
    have hinv := h'.inversion hsteps
    rw [hstep'] at hinv
    obtain ⟨-, rfl⟩ := hinv
    exact ⟨rfl, congrArg Except.error hcause⟩
  | finished hsteps hstep =>
    have hinv := h'.inversion hsteps
    rw [hts.of_finished hstep] at hinv
    obtain ⟨-, rfl⟩ := hinv
    exact ⟨rfl, congrArg Except.ok hts.solid.symm⟩
  | expanded hsteps hstep hnext ih =>
    obtain ⟨next', hstep', hsame⟩ := hts.of_expanded hvalue hstep
    have hinv := h'.inversion hsteps
    rw [hstep'] at hinv
    obtain ⟨more', -, hnext'⟩ := hinv
    exact ih hnext' hsame
  | nestedFailed hsteps hstep hinner hsub ih =>
    obtain ⟨before', inner', after', hstep', hsame, -⟩ := hts.of_nested hvalue hstep
    obtain ⟨within', sub', hinner', -, hinv⟩ := h'.of_nested hsteps hstep'
    obtain ⟨hcount, hvalue'⟩ := ih hinner' hsame
    have hvalue' := bind_reduce_solidly hvalue'
    rw [hsub] at hvalue'
    obtain ⟨cause', hcause', hcause⟩ := solidly_eq_error hvalue'
    rcases hinv with ⟨cause'', hvalue'', rfl⟩ | ⟨n, more', hvalue'', -⟩
    · rw [hcause'] at hvalue''
      cases hvalue''
      exact ⟨hcount, congrArg Except.error hcause⟩
    · rw [hcause'] at hvalue''
      cases hvalue''
  | nested hsteps hstep hinner hsub hnext ihinner ihnext =>
    obtain ⟨before', inner', after', hstep', hsame, hput⟩ := hts.of_nested hvalue hstep
    obtain ⟨within', sub', hinner', -, hinv⟩ := h'.of_nested hsteps hstep'
    obtain ⟨hcount, hvalue'⟩ := ihinner hinner' hsame
    have hvalue' := bind_reduce_solidly hvalue'
    rw [hsub] at hvalue'
    obtain ⟨n', hn', hn⟩ := solidly_eq_ok hvalue'
    obtain rfl : n' = _ := hn
    rcases hinv with ⟨cause', hvalue'', -⟩ | ⟨n'', more', hvalue'', hnext'⟩
    · rw [hn'] at hvalue''
      cases hvalue''
    · rw [hn'] at hvalue''
      cases hvalue''
      -- The counters agree after the inner conditions, so both go on from the same one.
      rw [hcount] at hnext'
      exact ihnext hnext' (hput _)

/-- White space between the tokens of a condition changes neither its truth value nor the failure
to have one, except for the text that is quoted, nor the number of steps of its expansion. -/
theorem evaluate_ignores_space {table : Table} (htable : table.Parsed)
    (hts : ∀ t ∈ ts, ∃ line, t ∈ Token.tokenize line)
    (hts' : ∀ t ∈ ts', ∃ line, t ∈ Token.tokenize line)
    (hsolid : withoutSpace ts = withoutSpace ts') :
    (evaluateCounted table.lookup ts').steps = (evaluateCounted table.lookup ts).steps ∧
      (evaluate table.lookup ts').mapError Cause.unquoted =
        (evaluate table.lookup ts).mapError Cause.unquoted := by
  have hvalue (name : Text) : ∀ t ∈ (table.lookup name).toMacro.value, t.Proper :=
    (Table.regular_toMacro_lookup (fun m hm => (htable m hm).regular) name).proper
  have hproper {ts : List Token} (hts : ∀ t ∈ ts, ∃ line, t ∈ Token.tokenize line) :
      ∀ t ∈ ts, t.Proper := by
    intro t ht
    obtain ⟨line, hline⟩ := hts t ht
    exact Token.eq_classify_of_mem_tokenize hline
  -- Both expansions go the same way, step by step.
  obtain ⟨calls, hrun⟩ := expands_expand table.lookup ts
  obtain ⟨calls', hrun'⟩ := expands_expand table.lookup ts'
  obtain ⟨hsteps, houtcome⟩ :=
    hrun.ignores_space hvalue hrun' ⟨hproper hts, hproper hts', hsolid⟩
  refine ⟨hsteps, ?_⟩
  -- Reducing looks at the tokens without white space only.
  have hvalues := bind_reduce_solidly houtcome
  rw [evaluate, evaluate, evaluateCounted, evaluateCounted]
  dsimp only
  cases hn : (expand table.lookup ts).outcome.bind reduce with
  | error cause =>
    rw [hn] at hvalues
    obtain ⟨cause', hn', hcause⟩ := solidly_eq_error hvalues
    rw [hn']
    exact congrArg Except.error hcause
  | ok n =>
    rw [hn] at hvalues
    obtain ⟨n', hn', rfl⟩ := solidly_eq_ok hvalues
    rw [hn']
    rfl

/-- A macro with two parameters. -/
def pairMacro : Macro :=
  ⟨ascii "BOTH", some [ascii "x", ascii "y"],
    [.word "x", .blank, .operator "&&", .blank, .word "y"]⟩

/-- The table of this macro. -/
def pairTable : Table := Table.ofList [pairMacro]

/-- An invocation with little white space and one with much. -/
theorem evaluate_ignores_space_pairTable :
    pairTable.Parsed ∧
      (evaluate pairTable.lookup (Token.tokenize (ascii "BOTH(1,defined BOTH)"))) = .ok true ∧
      (evaluate pairTable.lookup
        (Token.tokenize (ascii " BOTH ( 1 ,\tdefined  BOTH )"))).mapError Cause.unquoted =
          .ok true ∧
      (evaluateCounted pairTable.lookup
        (Token.tokenize (ascii " BOTH ( 1 ,\tdefined  BOTH )"))).steps =
          (evaluateCounted pairTable.lookup (Token.tokenize (ascii "BOTH(1,defined BOTH)"))).steps := by
  have hparsed : pairTable.Parsed := by
    have hmacros : pairTable.macros = [pairMacro] := by decide +kernel
    intro m hm
    rw [hmacros, List.mem_singleton] at hm
    exact .inl ⟨ascii "BOTH(x, y) x && y", by rw [hm]; decide +kernel⟩
  have hvalue : evaluate pairTable.lookup (Token.tokenize (ascii "BOTH(1,defined BOTH)")) =
      .ok true := by decide +kernel
  have hsolid : withoutSpace (Token.tokenize (ascii "BOTH(1,defined BOTH)")) =
      withoutSpace (Token.tokenize (ascii " BOTH ( 1 ,\tdefined  BOTH )")) := by decide +kernel
  obtain ⟨hsteps, hsame⟩ := evaluate_ignores_space hparsed (fun t ht => ⟨_, ht⟩)
    (fun t ht => ⟨_, ht⟩) hsolid
  rw [hvalue] at hsame
  exact ⟨hparsed, hvalue, hsame, hsteps⟩

end Condition

end HeaderMacros
