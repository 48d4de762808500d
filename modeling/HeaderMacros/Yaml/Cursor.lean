import HeaderMacros.Yaml.Windows

/-!
# Places in a text

A cursor is a place in a text: the characters from there on, how far it is from the start, and how
much is loaded. Cutting tokens is a sequence of steps that move a cursor. A step asks for the
characters it is going to look at; what cannot be loaded is a failure only where it is asked for.
-/

namespace HeaderMacros.Yaml

/-- A place, counted from zero. -/
structure Mark where
  /-- The number of characters before. -/
  index : Nat
  /-- The number of lines before. -/
  line : Nat
  /-- The number of characters before on this line. -/
  column : Nat
  deriving DecidableEq, Repr

/-- A place in a text. -/
structure Cursor extends Mark where
  /-- The characters from here on that can be loaded. -/
  rest : List Character
  /-- The number of line ends since the last character that is not blank. -/
  lineEnds : Nat
  /-- The number of characters from here on that are loaded. The end of the text counts as a
  character whenever it is met. -/
  loaded : Nat
  /-- The numbers of characters in the windows that are not loaded. -/
  windows : List Nat
  /-- Why there is nothing behind these windows, if not because the text ends. -/
  failure : Option Problem
  /-- The character that stood here when a window was loaded last. -/
  windowStart : Option Character
  /-- The number of characters of the text that can be loaded. -/
  size : Nat
  deriving Repr

namespace Cursor

/-- The start of a text, of which nothing is loaded. -/
def start (w : Windows) : Cursor where
  index := 0
  line := 0
  column := 0
  rest := w.characters
  lineEnds := 0
  loaded := 0
  windows := w.sizes
  failure := w.failure
  windowStart := none
  size := w.characters.length

/-- The character at a distance, if the text goes on that far. -/
def peek? (c : Cursor) (distance : Nat) : Option Character := c.rest[distance]?

/-- Whether the character at a distance is the given one. -/
def sees (c : Cursor) (distance : Nat) (char : Char) : Bool := c.peek? distance == some char.toNat

/-- Whether the character here is one of the given ones. -/
def seesAny (c : Cursor) (s : String) : Bool := (c.peek? 0).any fun x => (chars s).contains x

/-- Whether the text ends here. -/
def atEnd (c : Cursor) : Bool := c.rest.isEmpty

/-- Whether a document mark of three given characters stands here, at the start of a line. -/
def seesMark (c : Cursor) (char : Char) : Bool :=
  c.column == 0 && c.sees 0 char && c.sees 1 char && c.sees 2 char && isGap (c.peek? 3)

/-- Whether a mark for the start or the end of a document stands here. -/
def seesDocumentMark (c : Cursor) : Bool := c.seesMark '-' || c.seesMark '.'

/-- What a line end stands for in a scalar: a newline, unless it is one of the two separators with
a meaning of their own. -/
def breakText (c : Cursor) : Text :=
  match c.rest with
  | x :: _ =>
    if x = 0x2028 ∨ x = 0x2029 then Utf8.encode x else if isBreak x then [Byte.newline] else []
  | [] => []

/-- The number of characters in the line end here: two for a carriage return with a line feed. -/
def breakLength (c : Cursor) : Nat :=
  match c.rest with
  | 0x0D :: 0x0A :: _ => 2
  | x :: _ => if isBreak x then 1 else 0
  | [] => 0

/-- The place after a character. -/
def next (c : Cursor) : Cursor :=
  { c with
    rest := c.rest.drop 1
    index := c.index + 1
    column := c.column + 1
    lineEnds := if (c.peek? 0).any isBlank then c.lineEnds else 0
    loaded := c.loaded - 1 }

/-- The place after a line end; elsewhere the place itself. -/
def nextLine (c : Cursor) : Cursor :=
  let n := c.breakLength
  if n = 0 then c
  else
    { c with
      rest := c.rest.drop n
      index := c.index + n
      line := c.line + 1
      column := 0
      lineEnds := c.lineEnds + 1
      loaded := c.loaded - n }

/-- Loads windows until enough characters are loaded. At the end of the text one more counts as
loaded, whatever is asked for. -/
def load (failure : Option Problem) (wanted : Nat) :
    Nat → List Nat → Except Failure (Nat × List Nat)
  | loaded, [] =>
    match failure with
    | some problem => .error ⟨problem, 0⟩
    | none => .ok (loaded + 1, [])
  | loaded, size :: windows =>
    if wanted ≤ loaded + size then .ok (loaded + size, windows)
    else load failure wanted (loaded + size) windows

/-- The same place with enough characters loaded. -/
def need (c : Cursor) (wanted : Nat) : Except Failure Cursor :=
  if wanted ≤ c.loaded then .ok c
  else
    match load c.failure wanted c.loaded c.windows with
    | .error f => .error f
    | .ok (loaded, windows) => .ok { c with loaded, windows, windowStart := c.rest.head? }

end Cursor

/-- A step of cutting tokens. -/
abbrev Scan := StateT Cursor (Except Failure)

namespace Scan

/-- Fails. The context is the line where what cannot be read starts. -/
def fail {α : Type} (problem : Problem) (context : Nat) : Scan α := do
  throw (.cutting problem context (← get).line)

/-- Asks for characters. -/
def need (wanted : Nat) : Scan Unit := do
  set (← (← get).need wanted)

/-- Runs a step that is repeated at most once for each character, and once more. -/
def repeated {α : Type} (step : Nat → Scan α) : Scan α := do
  step ((← get).size + 1)

/-- Passes over a character. -/
def skip : Scan Unit := modify Cursor.next

/-- Passes over a line end. -/
def skipLine : Scan Unit := do
  need 2
  modify Cursor.nextLine

/-- Passes over some characters, and asks for characters after each. -/
def pass (wanted : Nat) : Nat → Scan Unit
  | 0 => pure ()
  | n + 1 => do
    skip
    need wanted
    pass wanted n

/-- Reads the characters that satisfy a predicate. -/
def takeWhile (p : Character → Bool) : Scan (List Character) := do
  need 1
  let taken := (← get).rest.takeWhile p
  pass 1 taken.length
  return taken

/-- Passes over the characters that satisfy a predicate. -/
def skipWhile (p : Character → Bool) : Scan Unit := discard (takeWhile p)

/-- Passes over the rest of a line: blanks, a comment and the line end. -/
def endOfLine (context : Nat) : Scan Unit := do
  skipWhile isBlank
  if (← get).sees 0 '#' then skipWhile fun x => !isBreak x
  let c ← get
  if !isLineStop (c.peek? 0) then fail .lineEnd context
  else if !c.atEnd then skipLine

end Scan

end HeaderMacros.Yaml
