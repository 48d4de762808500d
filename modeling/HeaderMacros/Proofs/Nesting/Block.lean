import HeaderMacros.Run.Line

/-!
# Well-nested lines

The lines of a document that is well nested have the structure of a tree. A *block* is a sequence
of items; an item is an ordinary line or a group; a group has a line that opens it, one or more
branches with lines that switch between them, and a line that closes it. Each line of a block
carries the proof that it plays the part it stands for, so a block is well nested by construction.

`Block.ofLines?` finds the block of some lines. It reads them from the last to the first, so the
end of a group is met before its beginning.

* `Block.ofLines?_lines`: the lines of a block have that block.
-/

namespace HeaderMacros.Nesting

open RunState (GroupDirective)

/-! ## The part a line plays -/

/-- The part a line plays in conditional groups. -/
inductive Role where
  /-- It has no part in them. -/
  | ordinary
  /-- It opens a group, whose first branch has the given condition. -/
  | opens (condition : List Token)
  /-- It goes on to the next branch, which has the given condition or, as an alternative, none. -/
  | switches (guard : Option (List Token))
  /-- It closes a group. -/
  | closes
  /-- It should open a group, by the given directive, but does not name the macro it tests for. -/
  | nameless (directive : Text)
  deriving DecidableEq

/-- The part a group directive plays with the given parameters. -/
def Role.ofGroup (d : GroupDirective) (params : List Token) : Role :=
  match d, params with
  | .ifdef, [] => .nameless (ascii "ifdef")
  | .ifdef, name :: _ => .opens (RunState.definedCondition name)
  | .ifndef, [] => .nameless (ascii "ifndef")
  | .ifndef, name :: _ =>
    .opens (Token.operator "!" :: Token.blank :: RunState.definedCondition name)
  | .opening, condition => .opens condition
  | .elif, condition => .switches (some condition)
  | .otherwise, _ => .switches none
  | .endif, _ => .closes

/-- The part a line plays. Blank lines, code and all directives that do not belong to groups are
ordinary. -/
def role (text : Text) : Role :=
  if Text.isBlank text then .ordinary
  else
    match Directive.ofTokens? (Token.tokenize text) with
    | none => .ordinary
    | some d =>
      match GroupDirective.ofName? d.name with
      | none => .ordinary
      | some g => .ofGroup g d.params

/-! ## Blocks -/

mutual

/-- A sequence of items. -/
inductive Block where
  /-- No item. -/
  | empty
  /-- An ordinary line and the items after it. -/
  | line (text : Text) (ordinary : role text = .ordinary) (rest : Block)
  /-- A group, from its opening line on, and the items after it. -/
  | group (opener : Text) (condition : List Token) (opens : role opener = .opens condition)
    (branches : Branches) (rest : Block)

/-- The branches of a group, from the body of one of them up to the line that closes the group. -/
inductive Branches where
  /-- The last branch. -/
  | last (body : Block) (close : Text) (closes : role close = .closes)
  /-- A branch, the line that goes on to the next one, and the other branches. -/
  | next (body : Block) (switch : Text) (guard : Option (List Token))
    (switches : role switch = .switches guard) (others : Branches)

end

mutual

/-- The lines of a block. -/
def Block.lines : Block → List Text
  | .empty => []
  | .line text _ rest => text :: rest.lines
  | .group opener _ _ branches rest => opener :: (branches.lines ++ rest.lines)

/-- The lines of branches, the closing line of the group included. -/
def Branches.lines : Branches → List Text
  | .last body close _ => body.lines ++ [close]
  | .next body switch _ _ others => body.lines ++ switch :: others.lines

end

/-- Some lines are well nested if they are the lines of a block. -/
def WellNested (lines : List Text) : Prop := ∃ b : Block, b.lines = lines

/-! ## Finding the block of some lines -/

/-- A group of which the end has been read: what its branches are once the body being read is
known, and the items after the group. -/
structure Frame where
  /-- The branches, given the body of the first one. -/
  branches : Block → Branches
  /-- The items after the group. -/
  rest : Block

/-- Puts a line that plays a given part before what has been read: a block, inside groups that
still need their opening lines, the innermost first. -/
def readBackAs (text : Text) (block : Block) (frames : List Frame) :
    (r : Role) → role text = r → Option (Block × List Frame)
  | .ordinary, h => some (.line text h block, frames)
  | .closes, h => some (.empty, ⟨fun body => .last body text h, block⟩ :: frames)
  | .switches guard, h =>
    match frames with
    | [] => none
    | frame :: outer =>
      some (.empty,
        ⟨fun body => .next body text guard h (frame.branches block), frame.rest⟩ :: outer)
  | .opens condition, h =>
    match frames with
    | [] => none
    | frame :: outer => some (.group text condition h (frame.branches block) frame.rest, outer)
  | .nameless _, _ => none

/-- Puts a line before what has been read. -/
def readBack (text : Text) (block : Block) (frames : List Frame) : Option (Block × List Frame) :=
  readBackAs text block frames (role text) rfl

/-- The block that some lines start with, and the groups that it stands in. -/
def readLinesBack : List Text → Option (Block × List Frame)
  | [] => some (.empty, [])
  | text :: rest => (readLinesBack rest).bind fun read => readBack text read.1 read.2

/-- The block that some lines are, if they are well nested. -/
def Block.ofLines? (lines : List Text) : Option Block :=
  match readLinesBack lines with
  | some (block, []) => some block
  | _ => none

/-- A block followed by another one. -/
def Block.append : Block → Block → Block
  | .empty, other => other
  | .line text h rest, other => .line text h (rest.append other)
  | .group opener condition h branches rest, other =>
    .group opener condition h branches (rest.append other)

/-- The body of the first of some branches. -/
def Branches.first : Branches → Block
  | .last body _ _ => body
  | .next body _ _ _ _ => body

/-- Some branches with another body in the first of them. -/
def Branches.withFirst : Branches → Block → Branches
  | .last _ close h, body => .last body close h
  | .next _ switch guard h others, body => .next body switch guard h others

theorem Branches.withFirst_first (branches : Branches) :
    branches.withFirst branches.first = branches := by
  cases branches <;> rfl

theorem Block.append_empty (b : Block) : b.append .empty = b := by
  cases b with
  | empty => rfl
  | line text h rest => rw [Block.append, rest.append_empty]
  | group opener condition h branches rest => rw [Block.append, rest.append_empty]

/-- A line is put before what has been read by the part it plays. -/
theorem readBack_eq {text : Text} {r : Role} (h : role text = r) (block : Block)
    (frames : List Frame) : readBack text block frames = readBackAs text block frames r h := by
  subst h
  rfl

mutual

/-- Reading a block back puts it before the block that the lines after it start with. -/
theorem readLinesBack_block (b : Block) (rest : List Text) :
    readLinesBack (b.lines ++ rest) =
      (readLinesBack rest).map fun read => (b.append read.1, read.2) := by
  cases b with
  | empty => simp [Block.lines, Block.append]
  | line text h block =>
    rw [Block.lines, List.cons_append, readLinesBack, readLinesBack_block block rest]
    cases readLinesBack rest with
    | none => rfl
    | some read => exact readBack_eq h _ _
  | group opener condition h branches block =>
    rw [Block.lines, List.cons_append, List.append_assoc, readLinesBack,
      readLinesBack_branches branches, readLinesBack_block block rest]
    cases readLinesBack rest with
    | none => rfl
    | some read =>
      -- The opening line closes the frame that the branches have left.
      change readBack opener branches.first _ = _
      rw [readBack_eq h]
      simp only [readBackAs, branches.withFirst_first]
      rfl

/-- Reading branches back gives the body of the first one, inside a group that lacks its opening
line. -/
theorem readLinesBack_branches (branches : Branches) (rest : List Text) :
    readLinesBack (branches.lines ++ rest) =
      (readLinesBack rest).map fun read =>
        (branches.first, ⟨branches.withFirst, read.1⟩ :: read.2) := by
  cases branches with
  | last body close h =>
    rw [Branches.lines, List.append_assoc, readLinesBack_block body, List.singleton_append,
      readLinesBack]
    cases readLinesBack rest with
    | none => rfl
    | some read =>
      change (readBack close read.1 read.2).map _ = _
      rw [readBack_eq h, readBackAs, Option.map_some, body.append_empty]
      rfl
  | next body switch guard h others =>
    rw [Branches.lines, List.append_assoc, readLinesBack_block body, List.cons_append,
      readLinesBack, readLinesBack_branches others rest]
    cases readLinesBack rest with
    | none => rfl
    | some read =>
      change (readBack switch others.first _).map _ = _
      rw [readBack_eq h]
      simp only [readBackAs, Option.map_some, body.append_empty, others.withFirst_first]
      rfl

end

/-- The lines of a block have that block, so their structure is unique. -/
theorem Block.ofLines?_lines (b : Block) : Block.ofLines? b.lines = some b := by
  have h := readLinesBack_block b []
  rw [List.append_nil] at h
  rw [Block.ofLines?, h, readLinesBack, Option.map_some, b.append_empty]

end HeaderMacros.Nesting
