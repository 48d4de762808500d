import HeaderMacros.Condition.Invocation
import HeaderMacros.Condition.Reduce

/-!
# Conditions

A condition is expanded until no parenthesis and no name is left, and then reduced to a number.
Each expansion step handles the last opening parenthesis: after a name it is an invocation, and
otherwise the expression up to the next closing parenthesis is a condition of its own that becomes
`1` or `0`. Without parentheses the first name is replaced. Tokens before the first name and the
first opening parenthesis take no part in any later step.

A macro may mention itself, so the steps are counted, those of inner conditions included, and there
is a limit to their number. The outcome of an expansion therefore comes with the number of steps
taken.
-/

namespace HeaderMacros.Condition

/-- The greatest number of expansion steps for one condition. -/
def maxSteps : Nat := 16384

/-- What a name means in a condition. -/
abbrev Lookup := Text → Meaning

/-- An outcome and the number of expansion steps taken. -/
structure Counted (α : Type) where
  /-- The outcome. -/
  outcome : Except Cause α
  /-- The number of steps. -/
  steps : Nat

/-- A token that expansion leaves alone: neither a name nor an opening parenthesis. -/
def isSettled (t : Token) : Bool := !t.isIdent && !t.is [Byte.openParen]

/-- The name before an opening parenthesis and the tokens before that name, if the parenthesis is
that of an invocation. The tokens before the parenthesis and before the name are in reverse. -/
def callee? (before : List Token) : Option (List Token × Text) :=
  match Tokens.trimLeft before with
  | [] => none
  | t :: front => if t.isIdent then some (front, t.text) else none

/-- What becomes of a name and the tokens after it, in a condition without parentheses. The test
operator takes the name after it along; `none` stands for an operator without a name. -/
def replaceName (lookup : Lookup) (name : Token) (after : List Token) : Option (List Token) :=
  match lookup name.text with
  | .definedOperator =>
    match Tokens.trimLeft after with
    | [] => none
    | tested :: rest =>
      if tested.isIdent then some (Token.ofBool (lookup tested.text != .undefined) :: rest)
      else none
  | meaning => some (meaning.toMacro.value ++ after)

/-- Where the expansion of a condition goes on. -/
inductive Progress where
  /-- Nothing is left to expand. -/
  | finished
  /-- The condition was expanded one step further. -/
  | expanded (next : List Token)
  /-- The tokens `inner` are a condition of their own, whose truth value belongs between `before`,
  which is in reverse, and `after`. -/
  | nested (before inner after : List Token)
  deriving DecidableEq, Repr

/-- One expansion step on tokens that start with a name or an opening parenthesis. The tokens in
front of them, in reverse, are only shown in faults. -/
def expandStep (lookup : Lookup) (done ts : List Token) : Except Cause Progress :=
  match Tokens.splitLast? [Byte.openParen] ts with
  | none =>
    match ts with
    | [] => .ok .finished
    | name :: after =>
      match replaceName lookup name after with
      | some next => .ok (.expanded next)
      | none => .error (.malformed .definedWithoutName (Tokens.text (done.reverse ++ ts)))
  | some (before, rest) =>
    match Tokens.splitFirst? [Byte.closeParen] rest with
    | none => .error (.malformed .unmatchedParenthesis (Tokens.text (done.reverse ++ ts)))
    | some (inner, after) =>
      match callee? before with
      | some (front, name) =>
        (substitute name (lookup name).toMacro inner).map fun body =>
          .expanded (front.reverse ++ (body ++ after))
      | none => .ok (.nested before inner after)

/-- Expands a condition to the end, after `steps` steps. The tokens in front that are settled are
kept apart, in `done` and in reverse: what follows them never changes them again. Every step is one
level of recursion, so `fuel` runs out no earlier than the limit is reached. -/
def expandFrom (lookup : Lookup) : Nat → Nat → List Token → List Token → Counted (List Token)
  | 0, steps, done, ts =>
    ⟨.error (.malformed .recursiveInvocation (Tokens.text (done.reverse ++ ts))), steps + 1⟩
  | fuel + 1, steps, done, ts =>
    if maxSteps < steps + 1 then
      ⟨.error (.malformed .recursiveInvocation (Tokens.text (done.reverse ++ ts))), steps + 1⟩
    else
      -- Only what follows the settled tokens is looked at again.
      let settled := (ts.takeWhile isSettled).reverse ++ done
      match expandStep lookup settled (ts.dropWhile isSettled) with
      | .error cause => ⟨.error cause, steps + 1⟩
      | .ok .finished => ⟨.ok settled.reverse, steps + 1⟩
      | .ok (.expanded next) => expandFrom lookup fuel (steps + 1) settled next
      | .ok (.nested before inner after) =>
        -- The inner condition goes on counting where the outer one stands.
        let sub := expandFrom lookup fuel (steps + 1) [] inner
        match sub.outcome.bind reduce with
        | .error cause => ⟨.error cause, sub.steps⟩
        | .ok n =>
          expandFrom lookup fuel sub.steps settled
            (before.reverse ++ Token.ofBool (n != 0) :: after)

/-- Expands a condition until no parenthesis and no name is left. -/
def expand (lookup : Lookup) (ts : List Token) : Counted (List Token) :=
  expandFrom lookup (maxSteps + 1) 0 [] ts

/-- The truth value of a condition, with the number of steps taken. -/
def evaluateCounted (lookup : Lookup) (ts : List Token) : Counted Bool :=
  let expansion := expand lookup ts
  ⟨(expansion.outcome.bind reduce).map fun n => n != 0, expansion.steps⟩

/-- The truth value of a condition. -/
def evaluate (lookup : Lookup) (ts : List Token) : Except Cause Bool :=
  (evaluateCounted lookup ts).outcome

end HeaderMacros.Condition
