import HeaderMacros.Proofs.Condition.Positions
import HeaderMacros.Proofs.Macro.Parsed

/-!
# The budget of a condition

A macro may mention itself, so that the tokens of a condition need not get fewer from step to step.
What ends every evaluation is the counter, which inner conditions share with the one around them.

`evaluate_within_budget` says what an evaluation amounts to for macros from definitions and tokens
from a line: how many steps it makes, that no step looks up a position out of range, when the counter
goes beyond the limit, and what an expansion leaves.
-/

namespace HeaderMacros.Condition

variable {lookup : Lookup}

/-- An expansion whose steps keep to tokens that can be expanded further uses up its steps. -/
theorem Expands.steps_of_endless {S : List Token → Prop}
    (hS : ∀ ts, S ts → ∃ next, expandOnce lookup ts = .ok (.expanded next) ∧ S next) {steps : Nat}
    {ts : List Token} {calls : List (List Token)} {out : Counted (List Token)}
    (h : Expands lookup steps ts calls out) (hts : S ts) (hsteps : steps ≤ maxSteps) :
    out.steps = maxSteps + 1 := by
  induction h with
  | exhausted hlimit => exact congrArg (· + 1) (Nat.le_antisymm hsteps hlimit)
  | failed _ hstep | finished _ hstep | nestedFailed _ hstep | nested _ hstep =>
    obtain ⟨next, hnext, -⟩ := hS _ hts
    rw [hstep] at hnext
    cases hnext
  | expanded hlimit hstep _ ih =>
    obtain ⟨next, hnext, hS'⟩ := hS _ hts
    rw [hstep] at hnext
    cases hnext
    exact ih hS' hlimit

theorem steps_evaluateCounted (lookup : Lookup) (ts : List Token) :
    (evaluateCounted lookup ts).steps = (expand lookup ts).steps := rfl

/-- The wording tells the want of steps from all other defects. -/
theorem message_eq_recursive_iff {defect : Defect} :
    defect.message = ascii "recursive macro invocation" ↔ defect = .recursiveInvocation := by
  constructor
  · intro h
    cases defect with
    | recursiveInvocation => rfl
    | notFunctionLike name =>
      -- The wording starts with the name, so only its end tells.
      have hlast := congrArg List.getLast? h
      rw [Defect.message, List.getLast?_append] at hlast
      have hend : false = true := congrArg (· == some 0x6E) hlast
      cases hend
    | _ =>
      have hstart : false = true := congrArg (fun wording : Text => wording.head? == some 0x72) h
      cases hstart
  · rintro rfl
    rfl

/-- The evaluation of a condition ends within its budget. -/
theorem evaluate_within_budget {t : Table} (ht : t.Parsed) (line : Text) :
    ∃ calls, Expands t.lookup 0 (Token.tokenize line) calls
        (expand t.lookup (Token.tokenize line)) ∧
      calls.length ≤ 16384 ∧
      (∀ call ∈ calls, expandAt? t.lookup call = some (expandOnce t.lookup call)) ∧
      (∀ ts, stepAt? ts = some (step ts)) ∧
      (evaluateCounted t.lookup (Token.tokenize line)).steps ≤ 16385 ∧
      ((evaluateCounted t.lookup (Token.tokenize line)).steps = 16385 ↔
        ∃ defect near, evaluate t.lookup (Token.tokenize line) = .error (.malformed defect near) ∧
          defect.message = ascii "recursive macro invocation") ∧
      ∀ steps ts calls' out result, Expands t.lookup steps ts calls' out →
        out.outcome = .ok result →
          ∀ u ∈ result, u.is [Byte.openParen] = false ∧ u.isIdent = false := by
  obtain ⟨calls, hrun⟩ := expands_expand t.lookup (Token.tokenize line)
  obtain ⟨hle, hcalls, -⟩ := hrun.bounds (Nat.zero_le _)
  have hproper : ∀ call ∈ calls, ∀ u ∈ call, u.Proper :=
    hrun.forall_calls (fun name => (Table.regular_toMacro_lookup (fun m hm => (ht m hm).regular)
      name).proper) Token.proper_ofBool fun _ hu => Token.eq_classify_of_mem_tokenize hu
  refine ⟨calls, hrun, ?_, ?_, stepAt?_eq_some, hle, ?_, ?_⟩
  · simp only [maxSteps] at hcalls
    omega
  · intro call hcall
    -- No token of a call is without a text, so no position is out of range.
    exact expandAt?_eq_some fun u hu _ => (hproper call hcall u hu).2
  · simp only [message_eq_recursive_iff]
    -- No other failure has this message.
    refine evaluate_recursive_iff.symm.trans ⟨?_, ?_⟩
    · rintro ⟨near, hnear⟩
      exact ⟨_, near, hnear, rfl⟩
    · rintro ⟨_, near, hnear, rfl⟩
      exact ⟨near, hnear⟩
  · intro steps ts calls' out result hexpands hout u hu
    have hsettled := isSettled_eq_true_iff.1 (hexpands.isSettled hout u hu)
    exact ⟨hsettled.2, hsettled.1⟩

/-- Two macros that mention each other and a variadic one that mentions itself. -/
def cyclicMacros : List Macro :=
  [⟨ascii "A", none, [.word "B"]⟩, ⟨ascii "B", none, [.word "A"]⟩,
    ⟨ascii "V", some [ascii "x", ellipsis],
      [.word "x", .blank, .word "V", .operator "(", .word "x", .operator ")"]⟩]

/-- The table of these macros. -/
def cyclicTable : Table := Table.ofList cyclicMacros

theorem evaluate_within_budget_cyclicTable :
    cyclicTable.Parsed ∧ ∃ defect near,
      evaluate cyclicTable.lookup (Token.tokenize (ascii "A")) = .error (.malformed defect near) ∧
        defect.message = ascii "recursive macro invocation" := by
  have hparsed : cyclicTable.Parsed := by
    have hmacros : cyclicTable.macros = cyclicMacros := by decide +kernel
    intro m hm
    simp only [hmacros, cyclicMacros, List.mem_cons, List.not_mem_nil, or_false] at hm
    rcases hm with rfl | rfl | rfl
    · exact .inl ⟨ascii "A B", by decide +kernel⟩
    · exact .inl ⟨ascii "B A", by decide +kernel⟩
    · exact .inl ⟨ascii "V(x, ...) x V(x)", by decide +kernel⟩
  obtain ⟨calls, hrun, -, -, -, -, hiff, -⟩ := evaluate_within_budget hparsed (ascii "A")
  refine ⟨hparsed, hiff.1 ((steps_evaluateCounted _ _).trans (hrun.steps_of_endless
    (S := fun ts => ts = [.word "A"] ∨ ts = [.word "B"]) ?_ (.inl (by decide +kernel)) (by decide)))⟩
  rintro ts (rfl | rfl)
  · exact ⟨[.word "B"], by decide +kernel, .inr rfl⟩
  · exact ⟨[.word "A"], by decide +kernel, .inl rfl⟩

end HeaderMacros.Condition
