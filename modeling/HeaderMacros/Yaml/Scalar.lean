import HeaderMacros.Yaml.Comment

/-!
# Scalars of the settings notation

How the text of a scalar is read, for each of the styles. Line ends inside a scalar that is not a
literal block are folded: one line end becomes a space, and of several the first one is dropped.
-/

namespace HeaderMacros.Yaml

open Scan

/-! ### White space inside a scalar -/

/-- White space inside a scalar. -/
structure Gap where
  /-- The blanks on the line of what comes before, kept only if no line end follows. -/
  blanks : Text
  /-- The first line end. -/
  first : Text
  /-- The line ends after the first one. -/
  more : Text
  /-- Whether there is a line end, a hidden one included. -/
  broken : Bool

/-- What white space stands for in the scalar. -/
def Gap.text (g : Gap) : Text :=
  if g.broken then
    match g.first with
    | 0x0A :: _ => if g.more = [] then [Byte.space] else g.more
    | first => first ++ g.more
  else g.blanks

/-- White space with a line end after it. -/
def Gap.addBreak (g : Gap) (lineEnd : Text) : Gap :=
  if g.broken then { g with more := g.more ++ lineEnd } else ⟨[], lineEnd, [], true⟩

/-- Reads white space. A tab in the first `indent` columns of a further line is not allowed. -/
def gapFrom (indent start : Nat) : Gap → Nat → Scan Gap
  | g, 0 => return g
  | g, fuel + 1 => do
    need 1
    let c ← get
    let run := c.rest.takeWhile isBlank
    if g.broken && (run.take (indent - c.column)).contains 0x09 then fail .tabInPlain start
    pass 1 run.length
    -- Blanks at the start of a further line do not count.
    let spaced := if g.broken then g else { g with blanks := toText run }
    let here ← get
    if (here.peek? 0).any isBreak then
      skipLine
      gapFrom indent start (spaced.addBreak here.breakText) fuel
    else return spaced

/-- Reads the white space at a place; `broken` tells of a hidden line end before it. -/
def gap (indent start : Nat) (broken : Bool) : Scan Gap :=
  repeated (gapFrom indent start ⟨[], [], [], broken⟩)

/-! ### Quoted scalars -/

/-- The escapes of one letter. -/
def letterEscapes : List (Character × Character) :=
  [(0x30, 0x00), (0x61, 0x07), (0x62, 0x08), (0x74, 0x09), (0x09, 0x09), (0x6E, 0x0A),
    (0x76, 0x0B), (0x66, 0x0C), (0x72, 0x0D), (0x65, 0x1B), (0x20, 0x20), (0x22, 0x22),
    (0x27, 0x27), (0x5C, 0x5C), (0x4E, 0x85), (0x5F, 0xA0), (0x4C, 0x2028), (0x50, 0x2029)]

/-- The escapes with a number, and how many hexadecimal digits they take. -/
def numberEscapes : List (Character × Nat) := [(0x78, 2), (0x75, 4), (0x55, 8)]

/-- Reads the number of an escape, behind its letter. -/
def numberEscape (start count : Nat) : Scan Text := do
  need count
  let digits := (← get).rest.take count
  match if digits.length = count then hexNumber? digits else none with
  | none => fail .shortEscape start
  | some code =>
    if (0xD800 ≤ code ∧ code ≤ 0xDFFF) ∨ 0x10FFFF < code then fail .badEscape start
    else
      pass 0 count
      return Utf8.encode code

/-- Reads an escape, from its backslash on. -/
def escape (start : Nat) : Scan Text := do
  match (← get).peek? 1 with
  | none => fail .unknownEscape start
  | some letter =>
    match letterEscapes.lookup letter, numberEscapes.lookup letter with
    | some code, _ =>
      pass 0 2
      return Utf8.encode code
    | none, some count =>
      pass 0 2
      numberEscape start count
    | none, none => fail .unknownEscape start

/-- A character of a quoted scalar that stands for itself. -/
def isQuotable (single : Bool) (x : Character) : Bool :=
  !isSpaceLike x && (if single then x != 0x27 else x != 0x22 && x != 0x5C)

/-- Reads a quoted scalar up to white space or its end, behind the pieces that are read already, the
last one first. The answer says whether the line end after it is hidden by a backslash. -/
def quotedRun (single : Bool) (start : Nat) : List Text → Nat → Scan (List Text × Bool)
  | pieces, 0 => return (pieces, false)
  | pieces, fuel + 1 => do
    let run := (← get).rest.takeWhile (isQuotable single)
    pass 2 run.length
    let pieces := toText run :: pieces
    let c ← get
    if single && c.sees 0 '\'' && c.sees 1 '\'' then
      pass 0 2
      need 2
      quotedRun single start ([Byte.singleQuote] :: pieces) fuel
    else if !single && c.sees 0 '\\' then
      if (c.peek? 1).any isBreak then
        need 3
        skip
        skipLine
        return (pieces, true)
      else
        let escaped ← escape start
        need 2
        quotedRun single start (escaped :: pieces) fuel
    else return (pieces, false)

/-- Reads a quoted scalar from behind some pieces to behind its closing quote. -/
def quotedFrom (single : Bool) (start : Nat) : List Text → Nat → Scan Text
  | _, 0 => fail .endInQuotes start
  | pieces, fuel + 1 => do
    need 4
    let c ← get
    if c.seesDocumentMark then fail .markInQuotes start
    else if c.atEnd then fail .endInQuotes start
    else
      let (pieces, hidden) ← repeated (quotedRun single start pieces)
      need 1
      if (← get).sees 0 (if single then '\'' else '"') then
        skip
        return pieces.reverse.flatten
      else
        let g ← gap 0 start hidden
        quotedFrom single start (g.text :: pieces) fuel

/-- Reads a quoted scalar. -/
def quotedScalar (single : Bool) : Scan Text := do
  let start := (← get).line
  skip
  repeated (quotedFrom single start [])

/-! ### Plain scalars -/

/-- Whether a character followed by another one ends a plain scalar. -/
def endsPlain (flow : Bool) (x : Character) (next : Option Character) : Bool :=
  (x == 0x3A && isGap next) || (flow && (chars ",?[]\x7b\x7d").contains x)

/-- The characters of a plain scalar up to white space or its end. -/
def plainRun (flow : Bool) : List Character → List Character
  | [] => []
  | x :: rest =>
    if isSpaceLike x || endsPlain flow x rest.head? then [] else x :: plainRun flow rest

/-- Reads a plain scalar, of which `pieces` are read, the last one first, and `g` is the white space
before what comes. The answer says whether white space with a line end follows the scalar. -/
def plainFrom (flow : Bool) (indent start : Nat) : List Text → Gap → Nat → Scan (Text × Bool)
  | pieces, g, 0 => return (pieces.reverse.flatten, g.broken)
  | pieces, g, fuel + 1 => do
    need 4
    let c ← get
    let run := plainRun flow c.rest
    if c.seesDocumentMark || c.sees 0 '#' || run.isEmpty then
      return (pieces.reverse.flatten, g.broken)
    else
      pass 2 run.length
      let pieces := toText run :: g.text :: pieces
      if ((← get).peek? 0).any isSpaceLike then
        let g ← gap indent start false
        if !flow && (← get).column < indent then return (pieces.reverse.flatten, g.broken)
        else plainFrom flow indent start pieces g fuel
      else return (pieces.reverse.flatten, false)

/-- Reads a plain scalar whose further lines are indented by at least `indent` columns. -/
def plainScalar (flow : Bool) (indent : Nat) : Scan (Text × Bool) := do
  repeated (plainFrom flow indent (← get).line [] ⟨[], [], [], false⟩)

/-! ### Block scalars -/

/-- What happens to the line ends at the end of a block scalar. -/
inductive Chomping where
  /-- All are dropped. -/
  | strip
  /-- One is kept. -/
  | clip
  /-- All are kept. -/
  | keep
  deriving DecidableEq, Repr

/-- Reads the chomping mark, if there is one. -/
def chompingMark : Scan (Option Chomping) := do
  need 1
  let c ← get
  if c.sees 0 '+' then
    skip
    return some .keep
  else if c.sees 0 '-' then
    skip
    return some .strip
  else return none

/-- Reads the indentation mark, if there is one; zero stands for none. -/
def indentMark (start : Nat) : Scan Nat := do
  need 1
  match (← get).peek? 0 with
  | none => return 0
  | some x =>
    if x = 0x30 then fail .zeroIndent start
    else if isDigit x then
      skip
      return x - 0x30
    else return 0

/-- Reads the marks after the sign of a block scalar, in either order. -/
def blockMarks (start : Nat) : Scan (Chomping × Nat) := do
  match ← chompingMark with
  | some chomping => return (chomping, ← indentMark start)
  | none =>
    let increment ← indentMark start
    if increment = 0 then return (.clip, 0)
    else return ((← chompingMark).getD .clip, increment)

/-- Reads the empty lines and the indentation before a line of a block scalar. Without a known
indentation, zero, the greatest one seen is told. -/
def blockBreaksFrom (indent start : Nat) : Nat → Text → Nat → Scan (Nat × Text)
  | widest, breaks, 0 => return (widest, breaks)
  | widest, breaks, fuel + 1 => do
    need 1
    let before ← get
    let spaces := (before.rest.takeWhile (· == 0x20)).length
    pass 1 (if indent = 0 then spaces else min spaces (indent - before.column))
    let c ← get
    let widest := max widest c.column
    if (indent = 0 ∨ c.column < indent) ∧ c.sees 0 '\t' then fail .tabIndent start
    else if (c.peek? 0).any isBreak then
      skipLine
      blockBreaksFrom indent start widest (breaks ++ c.breakText) fuel
    else return (widest, breaks)

/-- Reads the empty lines and the indentation before a line of a block scalar. -/
def blockBreaks (indent start : Nat) : Scan (Nat × Text) :=
  repeated (blockBreaksFrom indent start 0 [])

/-- The lines of a block scalar read so far. -/
structure BlockText where
  /-- What is settled, in pieces, the last one first. -/
  pieces : List Text
  /-- The last line end. -/
  lastBreak : Text
  /-- The line ends of the empty lines after it. -/
  emptyLines : Text
  /-- Whether the last line starts with a blank. -/
  indented : Bool

namespace BlockText

/-- Block text with a further line, which is not empty. Two lines of a folded scalar are joined if
neither starts with a blank. -/
def add (b : BlockText) (folded : Bool) (line lineEnd : Text) (indented : Bool) : BlockText :=
  let joint :=
    if folded && !b.indented && !indented && b.lastBreak.head? == some Byte.newline then
      if b.emptyLines = [] then [Byte.space] else []
    else b.lastBreak
  ⟨line :: b.emptyLines :: joint :: b.pieces, lineEnd, [], indented⟩

/-- The text of a block scalar with its end chomped. -/
def chomp (b : BlockText) (chomping : Chomping) : Text :=
  let settled := b.pieces.reverse.flatten
  match chomping with
  | .strip => settled
  | .clip => settled ++ b.lastBreak
  | .keep => settled ++ b.lastBreak ++ b.emptyLines

end BlockText

/-- Reads the lines of a block scalar with a known indentation. -/
def blockLines (folded : Bool) (indent start : Nat) : BlockText → Nat → Scan BlockText
  | b, 0 => return b
  | b, fuel + 1 => do
    let first ← get
    if first.column = indent ∧ !first.atEnd then
      let line ← takeWhile fun x => !isBreak x
      let lineEnd := (← get).breakText
      skipLine
      let added := b.add folded (toText line) lineEnd ((first.peek? 0).any isBlank)
      let (_, breaks) ← blockBreaks indent start
      blockLines folded indent start { added with emptyLines := breaks } fuel
    else return b

/-- Reads a block scalar, where `outer` is the indentation of the block it stands in. -/
def blockScalar (folded : Bool) (outer : Int) : Scan Text := do
  let start := (← get).line
  skip
  let (chomping, increment) ← blockMarks start
  endOfLine start
  let given := if increment = 0 then 0 else (max outer 0).toNat + increment
  let (widest, breaks) ← blockBreaks given start
  let indent := if given = 0 then max (max widest (outer + 1).toNat) 1 else given
  let b ← repeated (blockLines folded indent start ⟨[], [], breaks, false⟩)
  return b.chomp chomping

end HeaderMacros.Yaml
