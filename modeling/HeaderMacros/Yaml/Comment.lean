import HeaderMacros.Yaml.Cursor

/-!
# Comments

Comments are looked for at two places. Behind a token a comment may follow on the line, with blanks
before it. And a comment at the place where a token is expected may be followed by more comments on
the lines below. There blanks before a comment are of no account, so a tab may stand where it could
not stand before a token.

A comment is looked for over a limited distance only. Of the line ends only the line feed and the
carriage return are looked past.
-/

namespace HeaderMacros.Yaml

/-- The distance over which a comment is looked for. -/
def commentReach : Nat := 512

namespace Scan

/-- The distance of the next comment, from a distance on and over so many characters. Blanks may
stand before it, and line ends where `across` says so. -/
def commentAt? (across : Bool) : Nat → Nat → Scan (Option Nat)
  | 0, _ => return none
  | left + 1, distance => do
    need (distance + 1)
    match (← get).peek? distance with
    | none => return none
    | some x =>
      if isBlank x || (across && (x == 0x0A || x == 0x0D)) then
        commentAt? across left (distance + 1)
      else if x = 0x23 then return some distance
      else
        -- Another line end is told from what follows it only with the next character.
        if across && isBreak x && left ≠ 0 then need (distance + 2)
        return none

/-- Passes over everything before the given number of characters, and on to the end of that line. -/
def passComment (index : Nat) : Nat → Scan Unit
  | 0 => pure ()
  | fuel + 1 => do
    need 1
    let c ← get
    if !isLineStop (c.peek? 0) then
      skip
      passComment index fuel
    else if c.index < index then
      skipLine
      passComment index fuel

/-- Passes over the comment at a distance. -/
def passCommentAt (distance : Nat) : Scan Unit := do
  repeated (passComment ((← get).index + distance))

/-- Passes over a comment that follows on the line of a token. -/
def lineComment : Scan Unit := do
  if (← get).lineEnds = 0 then
    match ← commentAt? false commentReach 0 with
    | some distance => passCommentAt distance
    | none => pure ()

/-- Passes over comments, the first of which is looked for from a distance on. -/
def commentsFrom : Nat → Nat → Scan Unit
  | _, 0 => pure ()
  | distance, fuel + 1 => do
    match ← commentAt? true (commentReach - distance) distance with
    | none => pure ()
    | some found =>
      passCommentAt found
      -- The next comment is looked for behind the line end.
      if ((← get).peek? 0).any fun x => x != 0x0A && x != 0x0D then need 2
      else commentsFrom 1 fuel

/-- Passes over the comment here and over those on the lines below it. -/
def comments : Scan Unit := repeated (commentsFrom 0)

end Scan

end HeaderMacros.Yaml
