import HeaderMacros.Fault

/-!
# Conditional groups

The groups that are open at a line, the innermost first. A group is opened with a condition and has
one branch after the other; at most one of them is active. Lines are skipped unless the current
branch of every open group is active, and outside all groups nothing is skipped.

A further condition is looked at only if its branch could become active. `Groups.elif` therefore
does not take a truth value: its answer is either settled or still depends on one.
-/

namespace HeaderMacros

/-- An open group. -/
structure Scope where
  /-- Whether the current branch is active. -/
  active : Bool
  /-- Whether the current branch or an earlier one has been active. -/
  taken : Bool
  /-- Where the group was opened. -/
  opened : Position
  deriving DecidableEq, Repr

/-- The open groups, the innermost first. -/
abbrev Groups := List Scope

namespace Groups

/-- Whether the current branch of every open group is active. -/
def active (g : Groups) : Bool := g.all Scope.active

/-- The nesting depth, the text outside all groups counting as one level. -/
def depth (g : Groups) : Nat := g.length + 1

/-- Opens a group. Inside skipped text no branch of it becomes active by its condition. -/
def push (g : Groups) (condition : Bool) (opened : Position) : Groups :=
  let active := g.active && condition
  ⟨active, active, opened⟩ :: g

/-- What a further condition does to the open groups. -/
inductive Branch where
  /-- The condition does not matter. -/
  | settled (g : Groups)
  /-- The condition decides. -/
  | depends (next : Bool → Groups)

/-- Goes on to a branch with a condition. Once a branch of the group has been active no later one
can be, and inside skipped text the condition is not looked at. -/
def elif : Groups → Except Cause Branch
  | [] => .error (.malformed .elifOutside [])
  | top :: outer =>
    if top.active || top.taken then .ok (.settled (⟨false, true, top.opened⟩ :: outer))
    else if active outer then .ok (.depends fun v => ⟨v, v, top.opened⟩ :: outer)
    else .ok (.settled (⟨false, false, top.opened⟩ :: outer))

/-- Goes on to a branch without a condition, which is active unless a branch of the group was. -/
def orElse : Groups → Except Cause Groups
  | [] => .error (.malformed .elseOutside [])
  | top :: outer =>
    if top.active || top.taken then .ok (⟨false, true, top.opened⟩ :: outer)
    else .ok (⟨true, true, top.opened⟩ :: outer)

/-- Closes the innermost group. -/
def pop : Groups → Except Cause Groups
  | [] => .error (.malformed .endifOutside [])
  | _ :: outer => .ok outer

/-- Where the innermost open group was opened. -/
def unclosed? (g : Groups) : Option Position := g.head?.map Scope.opened

end Groups

end HeaderMacros
