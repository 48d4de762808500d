import HeaderMacros.Proofs.Condition.Reduction
import HeaderMacros.Proofs.Condition.Step

/-!
# Runs of an expansion

An expansion goes on step by step. `Expands` says how a whole expansion goes: which token lists the
steps are made on, those of inner conditions included, what comes of it, and how the counter stands
in the end. It has no fuel and does not keep settled tokens apart.

* `expands_expand`: the expansion of a condition goes as `Expands` says.
* `Expands.unique`: there is only one way for an expansion to go.
* `Expands.bounds`: what the counter, the steps made and the outcome have to do with each other.
* `Expands.shift`: an expansion that stays below the limit goes the same way from a lower counter.
-/

namespace HeaderMacros.Condition

variable {lookup : Lookup}

/-! ## A whole expansion -/

/-- How the expansion of some tokens goes, once a number of steps has been taken: the token lists
that steps are made on, in order, those of inner conditions included, and the outcome with the
number of steps taken in the end. -/
inductive Expands (lookup : Lookup) :
    Nat → List Token → List (List Token) → Counted (List Token) → Prop where
  /-- There are no steps left. -/
  | exhausted {steps : Nat} {ts : List Token} (h : maxSteps ≤ steps) :
    Expands lookup steps ts []
      ⟨.error (.malformed .recursiveInvocation (Tokens.text ts)), steps + 1⟩
  /-- A step fails. -/
  | failed {steps : Nat} {ts : List Token} {cause : Cause} (h : steps < maxSteps)
    (hstep : expandOnce lookup ts = .error cause) :
    Expands lookup steps ts [ts] ⟨.error cause, steps + 1⟩
  /-- Nothing is left to expand. -/
  | finished {steps : Nat} {ts : List Token} (h : steps < maxSteps)
    (hstep : expandOnce lookup ts = .ok .finished) :
    Expands lookup steps ts [ts] ⟨.ok ts, steps + 1⟩
  /-- A step leads to further tokens. -/
  | expanded {steps : Nat} {ts next : List Token} {calls : List (List Token)}
    {out : Counted (List Token)} (h : steps < maxSteps)
    (hstep : expandOnce lookup ts = .ok (.expanded next))
    (hnext : Expands lookup (steps + 1) next calls out) :
    Expands lookup steps ts (ts :: calls) out
  /-- An inner condition has no truth value. -/
  | nestedFailed {steps : Nat} {ts before inner after : List Token} {calls : List (List Token)}
    {sub : Counted (List Token)} {cause : Cause} (h : steps < maxSteps)
    (hstep : expandOnce lookup ts = .ok (.nested before inner after))
    (hinner : Expands lookup (steps + 1) inner calls sub)
    (hsub : sub.outcome.bind reduce = .error cause) :
    Expands lookup steps ts (ts :: calls) ⟨.error cause, sub.steps⟩
  /-- An inner condition gives way to its truth value. -/
  | nested {steps : Nat} {ts before inner after : List Token} {calls more : List (List Token)}
    {sub out : Counted (List Token)} {n : Int32} (h : steps < maxSteps)
    (hstep : expandOnce lookup ts = .ok (.nested before inner after))
    (hinner : Expands lookup (steps + 1) inner calls sub)
    (hsub : sub.outcome.bind reduce = .ok n)
    (hnext : Expands lookup sub.steps (before.reverse ++ Token.ofBool (n != 0) :: after) more out) :
    Expands lookup steps ts (ts :: (calls ++ more)) out

variable {steps : Nat} {ts : List Token} {calls : List (List Token)} {out : Counted (List Token)}

theorem Expands.lt_steps (h : Expands lookup steps ts calls out) : steps < out.steps := by
  induction h with
  | exhausted | failed | finished => exact Nat.lt_succ_self _
  | expanded _ _ _ ih => omega
  | nestedFailed _ _ _ _ ih => exact Nat.lt_of_succ_lt ih
  | nested _ _ _ _ _ ihinner ihnext => omega

/-- The expansion of a condition goes as told. The fuel does not end it: where none is left, the
limit has been reached. -/
theorem expands_expandFrom (lookup : Lookup) (fuel steps : Nat) (done ts : List Token)
    (hfuel : maxSteps ≤ fuel + steps) (hdone : ∀ t ∈ done, isSettled t = true) :
    ∃ calls, Expands lookup steps (done.reverse ++ ts) calls
      (expandFrom lookup fuel steps done ts) := by
  induction fuel generalizing steps done ts with
  | zero => exact ⟨[], .exhausted (by omega)⟩
  | succ fuel ih =>
    rw [expandFrom]
    by_cases hlimit : maxSteps < steps + 1
    · rw [if_pos hlimit]
      exact ⟨[], .exhausted (by omega)⟩
    rw [if_neg hlimit]
    have hsteps : steps < maxSteps := by omega
    have hfuel' : maxSteps ≤ fuel + (steps + 1) := by omega
    have hstep := expandOnce_eq_expandStep lookup hdone ts
    have hsettled := isSettled_of_mem_append hdone ts
    generalize hall : (ts.takeWhile isSettled).reverse ++ done = settled at hstep hsettled ⊢
    dsimp only
    cases hprogress : expandStep lookup settled (ts.dropWhile isSettled) with
    | error cause =>
      rw [hprogress] at hstep
      exact ⟨_, .failed hsteps hstep⟩
    | ok progress =>
      rw [hprogress] at hstep
      cases progress with
      | finished =>
        have htake : ts.takeWhile isSettled = ts := List.takeWhile_eq_self_iff.2 fun t ht =>
          isSettled_of_finished hstep t (List.mem_append_right _ ht)
        rw [htake] at hall
        rw [← hall, List.reverse_append, List.reverse_reverse]
        exact ⟨_, .finished hsteps hstep⟩
      | expanded next =>
        simp only [Except.map, Progress.within, List.append_nil] at hstep
        obtain ⟨calls, hnext⟩ := ih (steps + 1) settled next hfuel' hsettled
        exact ⟨_, .expanded hsteps hstep hnext⟩
      | nested before inner after =>
        simp only [Except.map, Progress.within, List.reverse_reverse, List.append_nil] at hstep
        obtain ⟨calls, hinner⟩ := ih (steps + 1) [] inner hfuel' (by simp)
        simp only [List.reverse_nil, List.nil_append] at hinner
        dsimp only
        generalize expandFrom lookup fuel (steps + 1) [] inner = sub at hinner ⊢
        -- The inner condition has counted further, so the fuel suffices for what follows it.
        have hmore := hinner.lt_steps
        cases hvalue : sub.outcome.bind reduce with
        | error cause => exact ⟨_, .nestedFailed hsteps hstep hinner hvalue⟩
        | ok n =>
          obtain ⟨more, hnext⟩ := ih sub.steps settled
            (before.reverse ++ Token.ofBool (n != 0) :: after) (by omega) hsettled
          rw [← List.append_assoc, ← List.reverse_append] at hnext
          exact ⟨_, .nested hsteps hstep hinner hvalue hnext⟩

theorem expands_expand (lookup : Lookup) (ts : List Token) :
    ∃ calls, Expands lookup 0 ts calls (expand lookup ts) := by
  simpa [expand] using expands_expandFrom lookup (maxSteps + 1) 0 [] ts (by omega) (by simp)

/-- What an expansion below the limit consists of, told from its first step. -/
theorem Expands.inversion (h : Expands lookup steps ts calls out) (hsteps : steps < maxSteps) :
    match expandOnce lookup ts with
    | .error cause => calls = [ts] ∧ out = ⟨.error cause, steps + 1⟩
    | .ok .finished => calls = [ts] ∧ out = ⟨.ok ts, steps + 1⟩
    | .ok (.expanded next) =>
      ∃ more, calls = ts :: more ∧ Expands lookup (steps + 1) next more out
    | .ok (.nested before inner after) =>
      ∃ within sub, Expands lookup (steps + 1) inner within sub ∧
        match sub.outcome.bind reduce with
        | .error cause => calls = ts :: within ∧ out = ⟨.error cause, sub.steps⟩
        | .ok n => ∃ more, calls = ts :: (within ++ more) ∧
          Expands lookup sub.steps (before.reverse ++ Token.ofBool (n != 0) :: after) more out := by
  cases h with
  | exhausted hlimit => omega
  | failed _ hstep => simp [hstep]
  | finished _ hstep => simp [hstep]
  | expanded _ hstep hnext => simpa [hstep] using hnext
  | nestedFailed _ hstep hinner hsub =>
    rw [hstep]
    refine ⟨_, _, hinner, ?_⟩
    simp [hsub]
  | nested _ hstep hinner hsub hnext =>
    rw [hstep]
    refine ⟨_, _, hinner, ?_⟩
    simp only [hsub]
    exact ⟨_, rfl, hnext⟩

/-- The inner condition of an expansion, and how the expansion goes on after it. -/
theorem Expands.of_nested {before inner after : List Token}
    (h : Expands lookup steps ts calls out) (hsteps : steps < maxSteps)
    (hstep : expandOnce lookup ts = .ok (.nested before inner after)) :
    ∃ within sub, Expands lookup (steps + 1) inner within sub ∧ sub.steps ≤ out.steps ∧
      ((∃ cause, sub.outcome.bind reduce = .error cause ∧ out = ⟨.error cause, sub.steps⟩) ∨
        ∃ n more, sub.outcome.bind reduce = .ok n ∧
          Expands lookup sub.steps (before.reverse ++ Token.ofBool (n != 0) :: after) more out) := by
  have hinv := h.inversion hsteps
  rw [hstep] at hinv
  obtain ⟨within, sub, hinner, hinv⟩ := hinv
  refine ⟨within, sub, hinner, ?_⟩
  cases hvalue : sub.outcome.bind reduce with
  | error cause =>
    rw [hvalue] at hinv
    obtain ⟨-, rfl⟩ := hinv
    exact ⟨Nat.le_refl _, .inl ⟨cause, rfl, rfl⟩⟩
  | ok n =>
    rw [hvalue] at hinv
    obtain ⟨more, -, hnext⟩ := hinv
    exact ⟨Nat.le_of_lt hnext.lt_steps, .inr ⟨n, more, rfl, hnext⟩⟩

theorem Expands.of_exhausted (h : Expands lookup steps ts calls out) (hlimit : maxSteps ≤ steps) :
    calls = [] ∧ out = ⟨.error (.malformed .recursiveInvocation (Tokens.text ts)), steps + 1⟩ := by
  cases h with
  | exhausted => exact ⟨rfl, rfl⟩
  | failed hsteps | finished hsteps | expanded hsteps | nestedFailed hsteps | nested hsteps => omega

/-- There is only one way for an expansion to go. -/
theorem Expands.unique {calls' : List (List Token)} {out' : Counted (List Token)}
    (h : Expands lookup steps ts calls out) (h' : Expands lookup steps ts calls' out') :
    calls = calls' ∧ out = out' := by
  -- Along the first of the two, with the second one taken apart to fit it.
  induction h generalizing calls' out' with
  | exhausted hlimit =>
    obtain ⟨rfl, rfl⟩ := h'.of_exhausted hlimit
    exact ⟨rfl, rfl⟩
  | failed hsteps hstep | finished hsteps hstep =>
    have hinv := h'.inversion hsteps
    rw [hstep] at hinv
    obtain ⟨rfl, rfl⟩ := hinv
    exact ⟨rfl, rfl⟩
  | expanded hsteps hstep hnext ih =>
    have hinv := h'.inversion hsteps
    rw [hstep] at hinv
    obtain ⟨more, rfl, hnext'⟩ := hinv
    obtain ⟨rfl, rfl⟩ := ih hnext'
    exact ⟨rfl, rfl⟩
  | nestedFailed hsteps hstep hinner hsub ih =>
    have hinv := h'.inversion hsteps
    rw [hstep] at hinv
    obtain ⟨within', sub', hinner', hinv⟩ := hinv
    obtain ⟨rfl, rfl⟩ := ih hinner'
    simp only [hsub] at hinv
    obtain ⟨rfl, rfl⟩ := hinv
    exact ⟨rfl, rfl⟩
  | nested hsteps hstep hinner hsub hnext ihinner ihnext =>
    have hinv := h'.inversion hsteps
    rw [hstep] at hinv
    obtain ⟨within', sub', hinner', hinv⟩ := hinv
    obtain ⟨rfl, rfl⟩ := ihinner hinner'
    simp only [hsub] at hinv
    obtain ⟨more', rfl, hnext'⟩ := hinv
    obtain ⟨rfl, rfl⟩ := ihnext hnext'
    exact ⟨rfl, rfl⟩

/-! ## The counter -/

/-- Reduction does not fail for want of steps, so an expression does only if its expansion does. -/
theorem bind_reduce_recursive_iff {expanded : Except Cause (List Token)} :
    (∃ near, expanded.bind reduce = .error (.malformed .recursiveInvocation near)) ↔
      ∃ near, expanded = .error (.malformed .recursiveInvocation near) := by
  cases expanded with
  | error cause => simp [Except.bind]
  | ok ts =>
    constructor
    · rintro ⟨near, h⟩
      obtain ⟨defect, expression, hcause⟩ := reduceSolid_eq_error h
      cases hcause
    · rintro ⟨near, h⟩
      cases h

/-- An expansion makes all steps that it counts, except one that it counts beyond the limit. It
counts one beyond the limit exactly if it fails for want of steps. -/
theorem Expands.bounds (h : Expands lookup steps ts calls out) (hsteps : steps ≤ maxSteps) :
    out.steps ≤ maxSteps + 1 ∧ steps + calls.length = min out.steps maxSteps ∧
      (out.steps = maxSteps + 1 ↔
        ∃ near, out.outcome = .error (.malformed .recursiveInvocation near)) := by
  induction h with
  | exhausted hlimit =>
    obtain rfl := Nat.le_antisymm hsteps hlimit
    refine ⟨Nat.le_refl _, ?_, ?_⟩
    · simp
    · exact iff_of_true rfl ⟨_, rfl⟩
  | failed hlimit hstep =>
    refine ⟨?_, ?_, ?_⟩
    · show _ + 1 ≤ _
      omega
    · show _ + 1 = min (_ + 1) _
      omega
    · refine iff_of_false (fun heq => ?_) ?_
      · change _ + 1 = _ at heq
        omega
      · -- A step has defects of its own to fail with.
        rintro ⟨near, hnear⟩
        obtain ⟨defect, near', hcause, hdefect⟩ := malformed_of_expandOnce hstep
        cases hcause
        cases hnear
        exact hdefect rfl
  | finished hlimit hstep =>
    refine ⟨?_, ?_, ?_⟩
    · show _ + 1 ≤ _
      omega
    · show _ + 1 = min (_ + 1) _
      omega
    · refine iff_of_false (fun heq => ?_) ?_
      · change _ + 1 = _ at heq
        omega
      · rintro ⟨near, hnear⟩
        cases hnear
  | expanded hlimit hstep hnext ih =>
    obtain ⟨hle, hcalls, hiff⟩ := ih hlimit
    refine ⟨hle, ?_, hiff⟩
    rw [List.length_cons]
    omega
  | nestedFailed hlimit hstep hinner hsub ih =>
    obtain ⟨hle, hcalls, hiff⟩ := ih hlimit
    refine ⟨hle, ?_, ?_⟩
    · rw [List.length_cons]
      dsimp only
      omega
    · rw [hiff, ← bind_reduce_recursive_iff, hsub]
      simp
  | nested hlimit hstep hinner hsub hnext ihinner ihnext =>
    obtain ⟨hle, hcalls, hiff⟩ := ihinner hlimit
    -- An inner condition with a truth value has not failed for want of steps.
    have hbelow : _ ≠ maxSteps + 1 := fun heq => by
      obtain ⟨near, hnear⟩ := bind_reduce_recursive_iff.2 (hiff.1 heq)
      rw [hsub] at hnear
      cases hnear
    obtain ⟨hle', hcalls', hiff'⟩ := ihnext (by omega)
    refine ⟨hle', ?_, hiff'⟩
    rw [List.length_cons, List.length_append]
    omega

/-- A condition is not evaluated for want of steps exactly if the counter goes beyond the limit. -/
theorem evaluate_recursive_iff {lookup : Lookup} {ts : List Token} :
    (∃ near, evaluate lookup ts = .error (.malformed .recursiveInvocation near)) ↔
      (expand lookup ts).steps = maxSteps + 1 := by
  obtain ⟨calls, hrun⟩ := expands_expand lookup ts
  rw [(hrun.bounds (Nat.zero_le _)).2.2, ← bind_reduce_recursive_iff, evaluate, evaluateCounted]
  cases (expand lookup ts).outcome.bind reduce <;> simp [Except.map]

/-- An expansion that stays below the limit goes the same way from a lower counter. -/
theorem Expands.shift (steps d : Nat) (h : Expands lookup (steps + d) ts calls out)
    (hout : out.steps ≤ maxSteps) :
    ∃ n, out.steps = n + d ∧ Expands lookup steps ts calls ⟨out.outcome, n⟩ := by
  generalize hstart : steps + d = start at h
  induction h generalizing steps with
  | exhausted hlimit =>
    change _ + 1 ≤ _ at hout
    omega
  | failed hsteps hstep =>
    refine ⟨steps + 1, ?_, .failed (by omega) hstep⟩
    show _ + 1 = _
    omega
  | finished hsteps hstep =>
    refine ⟨steps + 1, ?_, .finished (by omega) hstep⟩
    show _ + 1 = _
    omega
  | expanded hsteps hstep hnext ih =>
    obtain ⟨n, hn, hnext'⟩ := ih (steps + 1) hout (by omega)
    exact ⟨n, hn, .expanded (by omega) hstep hnext'⟩
  | nestedFailed hsteps hstep hinner hsub ih =>
    obtain ⟨n, hn, hinner'⟩ := ih (steps + 1) hout (by omega)
    exact ⟨n, hn, .nestedFailed (by omega) hstep hinner' hsub⟩
  | nested hsteps hstep hinner hsub hnext ihinner ihnext =>
    -- The counter only grows, so the inner condition stays below the limit too.
    have hlt := hnext.lt_steps
    obtain ⟨k, hk, hinner'⟩ := ihinner (steps + 1) (by omega) (by omega)
    obtain ⟨n, hn, hnext'⟩ := ihnext k hout hk.symm
    exact ⟨n, hn, .nested (by omega) hstep hinner' hsub hnext'⟩

/-- Below the limit the outcome of an expansion does not depend on the counter. -/
theorem Expands.outcome_eq {steps' : Nat} {calls' : List (List Token)}
    {out' : Counted (List Token)} (h : Expands lookup steps ts calls out)
    (h' : Expands lookup steps' ts calls' out') (hout : out.steps ≤ maxSteps)
    (hout' : out'.steps ≤ maxSteps) : out.outcome = out'.outcome := by
  obtain ⟨n, -, hzero⟩ := Expands.shift 0 steps (by simpa using h) hout
  obtain ⟨n', -, hzero'⟩ := Expands.shift 0 steps' (by simpa using h') hout'
  exact (Counted.mk.inj (hzero.unique hzero').2).1

/-- An expansion that succeeds leaves settled tokens only. -/
theorem Expands.isSettled {result : List Token} (h : Expands lookup steps ts calls out)
    (hout : out.outcome = .ok result) : ∀ t ∈ result, isSettled t = true := by
  induction h with
  | exhausted | failed | nestedFailed => cases hout
  | finished _ hstep =>
    cases hout
    exact isSettled_of_finished hstep
  | expanded _ _ _ ih => exact ih hout
  | nested _ _ _ _ _ _ ihnext => exact ihnext hout

/-- All steps of an expansion take tokens from the condition and from replacements, and truth
values. -/
theorem Expands.forall_calls {P : Token → Prop}
    (hvalue : ∀ name, ∀ t ∈ (lookup name).toMacro.value, P t)
    (hbool : ∀ v, P (Token.ofBool v)) (h : Expands lookup steps ts calls out)
    (hts : ∀ t ∈ ts, P t) :
    ∀ call ∈ calls, ∀ t ∈ call, P t := by
  induction h with
  | exhausted => simp
  | failed | finished => simpa using hts
  | expanded _ hstep _ ih =>
    have hnext := ih (forall_of_expandOnce hvalue hbool hts hstep)
    exact List.forall_mem_cons.2 ⟨hts, hnext⟩
  | nestedFailed _ hstep _ _ ih =>
    have hparts := forall_of_expandOnce hvalue hbool hts hstep
    refine List.forall_mem_cons.2 ⟨hts, ih fun t ht => hparts t ?_⟩
    simp [ht]
  | nested _ hstep _ _ _ ihinner ihnext =>
    have hparts := forall_of_expandOnce hvalue hbool hts hstep
    refine List.forall_mem_cons.2 ⟨hts, List.forall_mem_append.2 ⟨ihinner fun t ht => ?_, ?_⟩⟩
    · exact hparts t (by simp [ht])
    · exact ihnext (hparts.of_nested (hbool _))

end HeaderMacros.Condition
