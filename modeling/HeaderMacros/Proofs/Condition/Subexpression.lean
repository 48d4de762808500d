import HeaderMacros.Proofs.Condition.Expansion
import HeaderMacros.Proofs.Condition.Parentheses

/-!
# Subexpressions in contexts

A subexpression in parentheses may give way to its truth value, whatever stands around it. Expansion
works on one flat list of tokens from the last opening parenthesis, so three stretches of a run are
compared:

1. What follows the subexpression is expanded first, until it opens no parenthesis any more. That
   goes the same way with the truth value in the place of the subexpression.
2. The subexpression is expanded, as on its own, until it opens no parenthesis any more. It is then
   an inner condition and gives way to its truth value.
3. From here on the tokens are the same, only the counter is ahead.

The first two are cases of `Expands.transfer`: tokens in a hole are expanded in one context as in
another one. The result is `evaluate_fill_parenthesized`.
-/

namespace HeaderMacros.Condition

variable {lookup : Lookup}

/-- Tokens with a hole between them. -/
structure Context where
  /-- The tokens before the hole. -/
  front : List Token
  /-- The tokens after the hole. -/
  back : List Token

namespace Context

/-- The tokens of a context with others in its hole. -/
def fill (c : Context) (ts : List Token) : List Token := c.front ++ (ts ++ c.back)

/-- A context that takes no part in the expansion of tokens with parentheses in its hole: there is
no name before the hole and no opening parenthesis after it. -/
structure Inert (c : Context) : Prop where
  /-- A parenthesis at the start of the hole is not that of an invocation. -/
  front : callee? c.front.reverse = none
  /-- The last opening parenthesis is not after the hole. -/
  back : ∀ t ∈ c.back, t.is [Byte.openParen] = false

end Context

/-- Some tokens in parentheses. -/
def parenthesized (ts : List Token) : List Token :=
  Token.operator "(" :: (ts ++ [Token.operator ")"])

/-! ## The same steps in two contexts -/

/-- The last opening parenthesis in the hole of an inert context is handled as without the
context. -/
theorem expandOnce_fill (lookup : Lookup) {c : Context} (hc : c.Inert) {d : Nat} {ts : List Token}
    (h : depth d ts = some 0) (hopen : ¬∀ t ∈ ts, t.is [Byte.openParen] = false) :
    expandOnce lookup (c.fill ts) = (expandOnce lookup ts).map (Progress.within c.front c.back) := by
  obtain ⟨front, opening, inner, closing, after, rfl, hopening, hclosing, hlast, hfirst⟩ :=
    exists_group_of_depth h hopen
  have hlast' : ∀ t ∈ inner ++ closing :: (after ++ c.back), t.is [Byte.openParen] = false := by
    intro t ht
    rw [← List.cons_append, ← List.append_assoc] at ht
    rcases List.mem_append.1 ht with ht | ht
    · exact hlast t ht
    · exact hc.back t ht
  have hfill : c.fill (front ++ opening :: (inner ++ closing :: after)) =
      (c.front ++ front) ++ opening :: (inner ++ closing :: (after ++ c.back)) := by
    simp [Context.fill]
  rw [hfill, expandOnce_of_closed hopening hclosing hlast' hfirst, List.reverse_append,
    expandGroup_within lookup hc.front, expandOnce_of_closed hopening hclosing hlast hfirst]

/-- An expansion in the context `c` that comes to `out` is matched by one in the context `c'`, both
with the tokens `ts` in the hole. Either both fail with one cause, or both come to tokens in the hole
that open no parenthesis, where the second counter is not ahead of the first one. -/
def Matched (lookup : Lookup) (c c' : Context) (d : Nat) (out : Counted (List Token))
    (steps steps' : Nat) (ts : List Token) : Prop :=
  (∃ cause n calls', out.outcome = .error cause ∧
    Expands lookup steps' (c'.fill ts) calls' ⟨.error cause, n⟩) ∨
  ∃ next k k' more, (∀ t ∈ next, t.is [Byte.openParen] = false) ∧ depth d next = some 0 ∧
    steps ≤ k ∧ k' ≤ k ∧ Expands lookup k (c.fill next) more out ∧
    ∀ calls' out', Expands lookup k' (c'.fill next) calls' out' →
      ∃ calls', Expands lookup steps' (c'.fill ts) calls' out'

/-- What is matched after some steps is matched before them. -/
theorem Matched.of_steps {c c' : Context} {d k k' steps steps' : Nat}
    {out : Counted (List Token)} {ts next : List Token} (h : Matched lookup c c' d out k k' next)
    (hk : steps ≤ k) (hsteps : ∀ calls' out', Expands lookup k' (c'.fill next) calls' out' →
      ∃ calls', Expands lookup steps' (c'.fill ts) calls' out') :
    Matched lookup c c' d out steps steps' ts := by
  rcases h with ⟨cause, n, calls', hout, hfail⟩ |
    ⟨last, l, l', more, hopen, hdepth, hkl, hle, hrun, hback⟩
  · obtain ⟨calls'', hfail'⟩ := hsteps _ _ hfail
    exact .inl ⟨cause, n, calls'', hout, hfail'⟩
  · refine .inr ⟨last, l, l', more, hopen, hdepth, Nat.le_trans hk hkl, hle, hrun,
      fun calls' out' hlast => ?_⟩
    obtain ⟨calls'', hnext⟩ := hback calls' out' hlast
    exact hsteps _ _ hnext

/-- Tokens in the hole of an inert context are expanded as in the hole of another one, until they
open no parenthesis any more. -/
theorem Expands.transfer (hregular : ∀ name, (lookup name).toMacro.Regular)
    (hbalanced : ∀ name, Balanced (lookup name).toMacro.value) {c c' : Context} (hc : c.Inert)
    (hc' : c'.Inert) {d steps steps' : Nat} {ts : List Token} {calls : List (List Token)}
    {out : Counted (List Token)} (h : Expands lookup steps (c.fill ts) calls out)
    (hout : out.steps ≤ maxSteps) (hle : steps' ≤ steps) (hdepth : depth d ts = some 0)
    (hts : ∀ t ∈ ts, t.Proper) : Matched lookup c c' d out steps steps' ts := by
  -- The induction is on the number of steps that the first expansion still counts.
  induction hn : out.steps - steps using Nat.strong_induction_on
    generalizing steps steps' ts calls with
  | _ n ih =>
    by_cases hopen : ∀ t ∈ ts, t.is [Byte.openParen] = false
    · exact .inr ⟨ts, steps, steps', calls, hopen, hdepth, Nat.le_refl _, hle, h,
        fun calls' _ h' => ⟨calls', h'⟩⟩
    have hlt := h.lt_steps
    have hsteps : steps < maxSteps := by omega
    have hsteps' : steps' < maxSteps := by omega
    have hinv := h.inversion hsteps
    have hstep' := expandOnce_fill lookup hc' hdepth hopen
    rw [expandOnce_fill lookup hc hdepth hopen] at hinv
    cases hstep : expandOnce lookup ts with
    | error cause =>
      rw [hstep] at hinv hstep'
      obtain ⟨-, rfl⟩ := hinv
      exact .inl ⟨cause, _, _, rfl, .failed hsteps' hstep'⟩
    | ok progress =>
      have hkeeps := keepsDepth_of_expandOnce hregular hbalanced hts hdepth hstep
      have hproper := forall_of_expandOnce (fun name => (hregular name).proper)
        Token.proper_ofBool hts hstep
      rw [hstep] at hinv hstep'
      cases progress with
      | finished =>
        refine absurd (fun t ht => ?_) hopen
        exact (isSettled_eq_true_iff.1 (isSettled_of_finished hstep t ht)).2
      | expanded next =>
        obtain ⟨more, -, hnext⟩ := hinv
        have hmatched := ih _ (by have := hnext.lt_steps; omega) hnext
          (Nat.succ_le_succ hle) hkeeps hproper rfl
        refine hmatched.of_steps (Nat.le_succ steps) fun calls' out' h' => ?_
        exact ⟨_, .expanded hsteps' hstep' h'⟩
      | nested before inner after =>
        obtain ⟨within, sub, hinner, hsub, hinv⟩ := h.of_nested hsteps
          (by rw [expandOnce_fill lookup hc hdepth hopen, hstep]; rfl)
        -- The inner condition stays below the limit, so it comes out the same from a lower counter.
        obtain ⟨m, hm, hinner'⟩ := Expands.shift (steps' + 1) (steps - steps')
          (by rwa [show steps' + 1 + (steps - steps') = steps + 1 by omega]) (Nat.le_trans hsub hout)
        rcases hinv with ⟨cause, hvalue, rfl⟩ | ⟨n, more, hvalue, hnext⟩
        · exact .inl ⟨cause, _, _, rfl, .nestedFailed hsteps' hstep' hinner' hvalue⟩
        have hfill : ∀ c : Context,
            (before ++ c.front.reverse).reverse ++ Token.ofBool (n != 0) :: (after ++ c.back) =
              c.fill (before.reverse ++ Token.ofBool (n != 0) :: after) := fun c => by
          simp [Context.fill]
        have hlt' := hinner.lt_steps
        have hlt'' := hnext.lt_steps
        rw [hfill] at hnext
        have hproper' := hproper.of_nested (Token.proper_ofBool (n != 0))
        have hmatched := ih _ (by omega) hnext (show m ≤ sub.steps by omega) (hkeeps _) hproper' rfl
        refine hmatched.of_steps (by omega) fun calls' out' h' => ?_
        rw [← hfill] at h'
        exact ⟨_, .nested hsteps' hstep' hinner' hvalue h'⟩

/-! ## A subexpression and its truth value -/

theorem callee?_reverse_eq_none {front : List Token}
    (h : ∀ u ∈ (Tokens.trimRight front).getLast?, u.isIdent = false) :
    callee? front.reverse = none := by
  rw [Tokens.trimRight, List.getLast?_reverse] at h
  rw [callee?, Tokens.trimLeft]
  cases hfront : front.reverse.dropWhile Token.isSpace with
  | nil => rfl
  | cons t rest => simp [h t (by simp [hfront])]

theorem callee?_reverse_concat (front : List Token) {t : Token} (hspace : t.isSpace = false)
    (hident : t.isIdent = false) : callee? (front ++ [t]).reverse = none := by
  simp [callee?, Tokens.trimLeft, hspace, hident]

/-- Every expansion goes somehow, from every counter. -/
theorem exists_expands (lookup : Lookup) (steps : Nat) (ts : List Token) :
    ∃ calls out, Expands lookup steps ts calls out := by
  obtain ⟨calls, h⟩ := expands_expandFrom lookup maxSteps steps [] ts (by omega) (by simp)
  exact ⟨calls, _, h⟩

theorem evaluate_eq {lookup : Lookup} {ts : List Token} {calls : List (List Token)}
    {out : Counted (List Token)} (h : Expands lookup 0 ts calls out) :
    evaluate lookup ts = (out.outcome.bind reduce).map fun n => n != 0 := by
  obtain ⟨calls', h'⟩ := expands_expand lookup ts
  rw [(h.unique h').2]
  rfl

/-- The context between the parentheses that stand in the hole of another one. -/
def Context.inside (c : Context) : Context :=
  ⟨c.front ++ [Token.operator "("], Token.operator ")" :: c.back⟩

theorem Context.fill_inside (c : Context) (ts : List Token) :
    c.inside.fill ts = c.fill (parenthesized ts) := by
  simp [fill, inside, parenthesized]

theorem Context.Inert.inside {c : Context} (hc : c.Inert) : c.inside.Inert where
  front := callee?_reverse_concat c.front (by decide) (by decide)
  back := by
    intro t ht
    rcases List.mem_cons.1 ht with rfl | ht
    · decide
    · exact hc.back t ht

/-- A subexpression that opens no parenthesis is an inner condition. -/
theorem expandOnce_parenthesized (lookup : Lookup) {c : Context} (hc : c.Inert) {ts : List Token}
    (hts : Balanced ts) (hopen : ∀ t ∈ ts, t.is [Byte.openParen] = false) :
    expandOnce lookup (c.fill (parenthesized ts)) = .ok (.nested c.front.reverse ts c.back) := by
  have hlast : ∀ t ∈ ts ++ Token.operator ")" :: c.back, t.is [Byte.openParen] = false := by
    intro t ht
    rcases List.mem_append.1 ht with ht | ht
    · exact hopen t ht
    · exact hc.inside.back t ht
  have hfill : c.fill (parenthesized ts) =
      c.front ++ Token.operator "(" :: (ts ++ Token.operator ")" :: c.back) := by
    simp [Context.fill, parenthesized]
  rw [hfill, expandOnce_of_closed (by decide) (by decide) hlast (hts.not_close hopen), expandGroup,
    hc.front]

/-- If nothing after it opens a parenthesis, a subexpression in parentheses gives way to the truth
value that it has on its own. -/
theorem Expands.of_parenthesized (hregular : ∀ name, (lookup name).toMacro.Regular)
    (hbalanced : ∀ name, Balanced (lookup name).toMacro.value) {c : Context} (hc : c.Inert)
    {steps : Nat} {ts : List Token} {calls : List (List Token)} {out : Counted (List Token)}
    (h : Expands lookup steps (c.fill (parenthesized ts)) calls out) (hout : out.steps ≤ maxSteps)
    (hts : ∀ t ∈ ts, t.Proper) (hdepth : Balanced ts) {v : Bool} (hv : evaluate lookup ts = .ok v) :
    ∃ k more, steps ≤ k ∧ Expands lookup k (c.fill [Token.ofBool v]) more out := by
  -- Between its parentheses the subexpression is expanded as it is alone.
  have halone : Context.Inert ⟨[], []⟩ := ⟨rfl, by simp⟩
  have hfill : ∀ ts, Context.fill ⟨[], []⟩ ts = ts := List.append_nil
  rw [← c.fill_inside] at h
  rcases h.transfer hregular hbalanced hc.inside halone hout (Nat.zero_le steps) hdepth hts with
    ⟨cause, n, calls', -, hfail⟩ | ⟨next, k, k', more, hopen, hnext, hk, -, hrun, hback⟩
  · rw [hfill] at hfail
    have herror := evaluate_eq hfail
    rw [hv] at herror
    cases herror
  obtain ⟨calls', out', hrun'⟩ := exists_expands lookup k' next
  obtain ⟨calls'', hrun''⟩ := hback calls' out' (by rwa [hfill])
  rw [hfill] at hrun''
  have hvalue := (evaluate_eq hrun'').symm.trans hv
  -- Alone it stays below the limit, as it has a truth value.
  have hout' : out'.steps ≤ maxSteps := by
    obtain ⟨hle, -, hiff⟩ := hrun''.bounds (Nat.zero_le _)
    refine Nat.le_of_lt_succ (lt_of_le_of_ne hle fun heq => ?_)
    obtain ⟨near, hnear⟩ := hiff.1 heq
    rw [hnear] at hvalue
    cases hvalue
  -- So the inner condition that it has become comes out the same.
  rw [c.fill_inside] at hrun
  have hlt := hrun.lt_steps
  obtain ⟨within, sub, hinner, hsub, hinv⟩ := hrun.of_nested (by omega)
    (expandOnce_parenthesized lookup hc hnext hopen)
  have hlt' := hinner.lt_steps
  rw [← hinner.outcome_eq hrun' (Nat.le_trans hsub hout) hout'] at hvalue
  rcases hinv with ⟨cause, herror, -⟩ | ⟨n, more', hok, hnext'⟩
  · rw [herror] at hvalue
    cases hvalue
  · rw [hok] at hvalue
    cases hvalue
    exact ⟨sub.steps, more', by omega, by simpa [Context.fill] using hnext'⟩

theorem balanced_parenthesized {ts : List Token} (h : Balanced ts) : Balanced (parenthesized ts) := by
  rw [Balanced, parenthesized, depth_open (by decide), depth_append, h.depth_eq, Option.bind_some,
    depth_close (by decide), depth_nil]

/-- What follows a hole can be taken for what stands in it. -/
theorem Context.fill_back (front ts back : List Token) :
    fill ⟨front ++ ts, []⟩ back = fill ⟨front, back⟩ ts := by
  simp [fill]

/-- A subexpression in parentheses may be replaced by its truth value in every context, unless the
context makes an invocation of it. -/
theorem evaluate_fill_parenthesized {t : Table} (hregular : ∀ m ∈ t.macros, m.Regular)
    (hbalanced : ∀ m ∈ t.macros, Balanced m.value) {c : Context} {ts : List Token}
    (hproper : ∀ u ∈ c.fill ts, u.Proper) (hts : Balanced ts)
    (hfill : Balanced (c.fill (parenthesized ts)))
    (hname : ∀ u ∈ (Tokens.trimRight c.front).getLast?, u.isIdent = false) {v : Bool}
    (hv : evaluate t.lookup ts = .ok v)
    (hbudget : ∀ near, evaluate t.lookup (c.fill (parenthesized ts)) ≠
      .error (.malformed .recursiveInvocation near)) :
    evaluate t.lookup (c.fill (parenthesized ts)) = evaluate t.lookup (c.fill [Token.ofBool v]) := by
  obtain ⟨front, back⟩ := c
  have hregular' := Table.regular_toMacro_lookup hregular
  have hbalanced' := Table.forall_toMacro_lookup (by decide) (by decide) hbalanced
  obtain ⟨calls, hrun⟩ := expands_expand t.lookup (Context.fill ⟨front, back⟩ (parenthesized ts))
  have hout : (expand t.lookup (Context.fill ⟨front, back⟩ (parenthesized ts))).steps ≤ maxSteps := by
    refine Nat.le_of_lt_succ (lt_of_le_of_ne (hrun.bounds (Nat.zero_le _)).1 fun heq => ?_)
    obtain ⟨near, hnear⟩ := evaluate_recursive_iff.2 heq
    exact hbudget near hnear
  have heval := evaluate_eq hrun
  generalize expand t.lookup (Context.fill ⟨front, back⟩ (parenthesized ts)) = out at hrun hout heval
  rw [heval]
  -- First what follows is expanded, with the subexpression or its truth value before it.
  obtain ⟨d, -, hback⟩ : ∃ d, depth 0 front = some d ∧ depth d back = some 0 := by
    rw [Balanced, Context.fill, (balanced_parenthesized hts).depth_append_cancel, depth_append]
      at hfill
    exact Option.bind_eq_some_iff.1 hfill
  have hinert : Context.Inert ⟨front ++ parenthesized ts, []⟩ := ⟨by
    simpa [parenthesized] using callee?_reverse_concat (front ++ Token.operator "(" :: ts)
      (show (Token.operator ")").isSpace = false by decide) (by decide), by simp⟩
  have hinert' : Context.Inert ⟨front ++ [Token.ofBool v], []⟩ :=
    ⟨callee?_reverse_concat front (by cases v <;> decide) (by cases v <;> decide), by simp⟩
  rw [← Context.fill_back] at hrun ⊢
  rcases hrun.transfer hregular' hbalanced' hinert hinert' hout (Nat.le_refl 0) hback
    (fun u hu => hproper u (by simp [Context.fill, hu])) with
    ⟨cause, n, calls', herror, hfail⟩ | ⟨next, k, k', more, hopen, -, -, hle, hrun', hmatch⟩
  · rw [evaluate_eq hfail, herror]
  -- Then the subexpression gives way to its truth value, and the rest goes the same way.
  rw [Context.fill_back] at hrun'
  have hinert'' : Context.Inert ⟨front, next⟩ := ⟨callee?_reverse_eq_none hname, hopen⟩
  obtain ⟨l, more', hkl, hrun''⟩ := hrun'.of_parenthesized hregular' hbalanced' hinert'' hout
    (fun u hu => hproper u (by simp [Context.fill, hu])) hts hv
  obtain ⟨n, -, hshift⟩ := Expands.shift k' (l - k')
    (by rwa [Nat.add_sub_cancel' (Nat.le_trans hle hkl)]) hout
  rw [← Context.fill_back] at hshift
  obtain ⟨calls', hlast⟩ := hmatch _ _ hshift
  rw [evaluate_eq hlast]

/-- A macro with parentheses in its replacement and one with two parameters. -/
def conjunctionMacros : List Macro :=
  [⟨ascii "A", none, [.operator "(", .word "1", .operator ")"]⟩,
    ⟨ascii "BOTH", some [ascii "x", ascii "y"], [.word "x", .operator "&&", .word "y"]⟩]

/-- The table of these macros. -/
def conjunctionTable : Table := Table.ofList conjunctionMacros

/-- The second argument of an invocation. -/
def argumentContext : Context :=
  ⟨[.word "BOTH", .operator "(", .word "1", .operator ",", .blank],
    [.operator ")", .operator "==", .word "1"]⟩

theorem evaluate_fill_parenthesized_argument :
    evaluate conjunctionTable.lookup
        (argumentContext.fill (parenthesized [.operator "!", .word "A", .operator "||", .word "B"])) =
      evaluate conjunctionTable.lookup (argumentContext.fill [.word "0"]) ∧
    evaluate conjunctionTable.lookup (argumentContext.fill [.word "0"]) = .ok false := by
  have hvalue : evaluate conjunctionTable.lookup (argumentContext.fill
      (parenthesized [.operator "!", .word "A", .operator "||", .word "B"])) = .ok false := by
    decide +kernel
  refine ⟨evaluate_fill_parenthesized (v := false) ?_ ?_ (by decide) (by decide) (by decide)
    (by decide) (by decide +kernel) ?_, by decide +kernel⟩
  · have hmacros : conjunctionTable.macros = conjunctionMacros := by decide +kernel
    intro m hm
    simp only [hmacros, conjunctionMacros, List.mem_cons, List.not_mem_nil, or_false] at hm
    rcases hm with rfl | rfl <;> exact ⟨by decide, by decide⟩
  · decide
  · intro near hnear
    rw [hvalue] at hnear
    cases hnear

end HeaderMacros.Condition
