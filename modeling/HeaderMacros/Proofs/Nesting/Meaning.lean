import HeaderMacros.Proofs.Nesting.Block
import HeaderMacros.Run.Process

/-!
# What well-nested lines mean

The meaning of a block by recursion over its structure, without any record of open groups. For
each group the conditions of its branches are evaluated in order, with the macros at hand, until
one is true; an alternative counts as true. The body of that first branch is carried out, and
nothing else of the group is looked at.

Included files are read the same way: `interpret` finds the block of a normalized text and carries
it out.
-/

namespace HeaderMacros

/-! ## Moving a state -/

namespace RunState

/-- A state at another line. -/
def atLine (s : RunState) (number : Nat) : RunState := { s with line := number }

/-- A state with other open groups. -/
def regroup (s : RunState) (g : Groups) : RunState := { s with groups := g }

@[simp]
theorem groups_atLine (s : RunState) (number : Nat) : (s.atLine number).groups = s.groups := rfl

@[simp]
theorem groups_regroup (s : RunState) (g : Groups) : (s.regroup g).groups = g := rfl

@[simp]
theorem atLine_atLine (s : RunState) (first second : Nat) :
    (s.atLine first).atLine second = s.atLine second := rfl

@[simp]
theorem regroup_regroup (s : RunState) (first second : Groups) :
    (s.regroup first).regroup second = s.regroup second := rfl

@[simp]
theorem regroup_atLine (s : RunState) (number : Nat) (g : Groups) :
    (s.atLine number).regroup g = (s.regroup g).atLine number := rfl

/-- The open groups of a state are its own. -/
@[simp]
theorem regroup_groups (s : RunState) : s.regroup s.groups = s := rfl

end RunState

namespace Nesting

/-! ## Carrying out a block -/

variable {m : Type → Type} [Monad m]

/-- Goes on from the state of an outcome, unless it has a fault. -/
def andThen (next : RunState → m Outcome) (out : Outcome) : m Outcome :=
  match out.fault with
  | some _ => pure out
  | none => next out.state

/-- What an ordinary line comes to where nothing is skipped. -/
def obey (s : RunState) (text : Text) : Except Cause RunState.Action :=
  if Text.isBlank text then .ok (.proceed s)
  else
    match Directive.ofTokens? (Token.tokenize text) with
    | none =>
      .ok (.proceed { s with code := s.code ++ (Token.tokenize text ++ [Token.lineEnd]) })
    | some d => if d.name = [] then .ok (.proceed s) else s.followActive d

/-- Whether a branch is to be carried out: an alternative always is. -/
def test (s : RunState) : Option (List Token) → Except Cause Bool
  | none => .ok true
  | some condition => s.evaluate condition

/-- The end of a run by a cause found on the line being read. -/
def failHere (s : RunState) (cause : Cause) : Outcome := ⟨s, some ⟨s.position, cause⟩⟩

mutual

/-- Carries out a block, the first line of which has the given number, with `enter` to follow an
include. -/
def Block.exec (enter : RunState → Include → m Outcome) :
    Block → RunState → Nat → m Outcome
  | .empty, s, _ => pure ⟨s, none⟩
  | .line text _ rest, s, number =>
    match obey (s.atLine number) text with
    | .error cause => pure (failHere (s.atLine number) cause)
    | .ok (.proceed next) => rest.exec enter next (number + 1)
    | .ok (.enter request) =>
      enter (s.atLine number) request >>= andThen fun next => rest.exec enter next (number + 1)
  | .group _ condition _ branches rest, s, number =>
    match test (s.atLine number) (some condition) with
    | .error cause => pure (failHere (s.atLine number) cause)
    | .ok v =>
      branches.exec enter v (s.atLine number) (number + 1) >>=
        andThen fun next => rest.exec enter next (number + 1 + branches.lines.length)

/-- Carries out the first of some branches that is to be carried out, where it is known whether the
very first one is. Afterwards the state is at the closing line. -/
def Branches.exec (enter : RunState → Include → m Outcome) :
    Branches → Bool → RunState → Nat → m Outcome
  | .last body _ _, true, s, number =>
    body.exec enter s number >>=
      andThen fun next => pure ⟨next.atLine (number + body.lines.length), none⟩
  | .last body _ _, false, s, number => pure ⟨s.atLine (number + body.lines.length), none⟩
  | .next body _ _ _ others, true, s, number =>
    body.exec enter s number >>= andThen fun next =>
      pure ⟨next.atLine (number + body.lines.length + others.lines.length), none⟩
  | .next body _ guard _ others, false, s, number =>
    let here := s.atLine (number + body.lines.length)
    match test here guard with
    | .error cause => pure (failHere here cause)
    | .ok v => others.exec enter v here (number + body.lines.length + 1)

end

/-- Carries out lines, the first of which has the given number, by their structure. Lines that are
not well nested have none, and are left out. -/
def interpretLines (enter : RunState → Include → m Outcome) (s : RunState) (number : Nat)
    (lines : List Text) : m Outcome :=
  match Block.ofLines? lines with
  | some b => b.exec enter s number
  | none => pure ⟨s, none⟩

/-- Reads a text by the structure of its normalized lines, following includes up to the given
nesting depth. -/
def interpret (resolver : Option (Resolver m)) : Nat → RunState → Text → m Outcome
  | 0, s, _ => pure (failHere s .nestedTooDeeply)
  | depth + 1, s, text =>
    match Source.normalize text with
    | .error line => pure ⟨s, some ⟨⟨s.file, line⟩, .malformed .unterminatedComment []⟩⟩
    | .ok normalized =>
      interpretLines (RunState.enter resolver (interpret resolver depth)) s 1
        (Text.lines normalized)

end Nesting

end HeaderMacros
