import HeaderMacros.Yaml.Scalar
import HeaderMacros.Yaml.Tag

/-!
# A text that is being cut into tokens

The tokens of a text wait in a queue until they are taken. Two things need memory. The columns of
the block collections that are open: a token further left closes them. And the places where a key
may have started, one for each flow collection that is open and one outside all of them: only a
colon later on the line shows that what stands there was a key, and then the token that announces
the key goes before it in the queue.

Tokens are numbered as they enter the queue. A token that may start a key is listed by its number,
so that it is not taken before it is settled whether it does. The end of a flow collection takes the
number of its start off the list if no key started in between. What follows the collection may still
make a key of it, but its start may have been taken by then. Then the token that announces the key
comes last instead.
-/

namespace HeaderMacros.Yaml

/-- A place where a key may have started. -/
structure KeyPlace where
  /-- Whether it counts. -/
  possible : Bool
  /-- Whether what stands there must be a key. -/
  required : Bool
  /-- The number of the token there. -/
  number : Nat
  /-- The place. -/
  mark : Mark
  deriving Repr

/-- The distance over which a colon can make a key of what stands before it. -/
def maxKeyLength : Nat := 1024

/-- Whether a key can no longer end here: it must end on the line of its start and not too far from
it. -/
def KeyPlace.isStale (k : KeyPlace) (m : Mark) : Bool :=
  k.mark.line < m.line || k.mark.index + maxKeyLength < m.index

/-- The place when it does not count any more. -/
def KeyPlace.dismissed (k : KeyPlace) : KeyPlace := { k with possible := false }

/-- A text that is being cut. -/
structure Scanner where
  /-- The place reached. -/
  cursor : Cursor
  /-- The tokens that wait. -/
  queue : List Token
  /-- The number of tokens taken. -/
  taken : Nat
  /-- The column of the innermost block collection, or minus one. -/
  indent : Int
  /-- The columns of the collections around it. -/
  outer : List Int
  /-- Whether a key may start here. -/
  keyAllowed : Bool
  /-- The place for a key in the innermost flow collection, or outside all of them. -/
  key : KeyPlace
  /-- The places for the flow collections around it and the one outside, from the inside out. -/
  outerKeys : List KeyPlace
  /-- The number of flow collections that are open. -/
  flowDepth : Nat
  /-- The numbers of the tokens that may start a key, each with the number of flow collections that
  were open there. -/
  listed : List (Nat × Nat)

/-- A step of cutting a text. -/
abbrev Fetch := StateT Scanner (Except Failure)

namespace Scanner

/-- The scanner at the start of a text. -/
def start (w : Windows) : Scanner where
  cursor := Cursor.start w
  queue := [⟨.streamStart, 0⟩]
  taken := 0
  indent := -1
  outer := []
  keyAllowed := true
  key := ⟨false, false, 0, ⟨0, 0, 0⟩⟩
  outerKeys := []
  flowDepth := 0
  listed := []

/-- Whether the place reached is in a flow collection. -/
def inFlow (s : Scanner) : Bool := s.flowDepth != 0

/-- The number of the next token to enter the queue. -/
def nextNumber (s : Scanner) : Nat := s.taken + s.queue.length

/-- The place for a key that has so many open flow collections around it. -/
def keyAt? (s : Scanner) (depth : Nat) : Option KeyPlace :=
  if s.flowDepth < depth then none else (s.key :: s.outerKeys)[s.flowDepth - depth]?

/-- Gives up on the place for a key that has so many open flow collections around it. -/
def dismissAt (s : Scanner) (depth : Nat) : Scanner :=
  if depth = s.flowDepth then { s with key := s.key.dismissed }
  else { s with outerKeys := s.outerKeys.modify (s.flowDepth - depth - 1) KeyPlace.dismissed }

/-- Takes a number off the list. -/
def unlist (s : Scanner) (number : Nat) : Scanner :=
  { s with listed := s.listed.filter fun p => p.1 != number }

/-- Puts a token into the queue so that it has a number. If the token with that number is taken, it
comes last. -/
def insert (s : Scanner) (number : Nat) (token : Token) : Scanner :=
  let place := if number < s.taken then s.queue.length else number - s.taken
  { s with queue := s.queue.insertIdx place token }

/-- The number of block collections further right than a column, and what is open then. -/
def closing (column : Int) : Int → List Int → Nat × Int × List Int
  | indent, [] => (0, indent, [])
  | indent, next :: outer =>
    if column < indent then
      let (n, rest) := closing column next outer
      (n + 1, rest)
    else (0, indent, next :: outer)

end Scanner

namespace Fetch

/-- Fails at the place reached. The context is the line where what cannot be read starts. -/
def fail {α : Type} (problem : Problem) (context : Nat) : Fetch α := do
  throw (.cutting problem context (← get).cursor.line)

/-- Moves the place reached. -/
def scan {α : Type} (step : Scan α) : Fetch α := do
  let s ← get
  let (a, cursor) ← step.run s.cursor
  set { s with cursor }
  return a

/-- Says whether a key may start here. -/
def allowKey (allowed : Bool) : Fetch Unit := modify fun s => { s with keyAllowed := allowed }

/-- Adds a token that starts on a line. -/
def push (kind : TokenKind) (line : Nat) : Fetch Unit :=
  modify fun s => { s with queue := s.queue ++ [⟨kind, line⟩] }

/-- Adds a token of some characters without white space. -/
def pushMark (kind : TokenKind) (length : Nat) : Fetch Unit := do
  let line := (← get).cursor.line
  scan (Scan.pass 0 length)
  push kind line

/-! ### Block collections -/

/-- The deepest nesting of collections of one sort. -/
def maxDepth : Nat := 10000

/-- Opens a block collection at a column, with its token numbered as said, unless one is open
there. -/
def openBlock (column number line : Nat) (kind : TokenKind) : Fetch Unit := do
  let s ← get
  if !s.inFlow && s.indent < column then
    if maxDepth ≤ s.outer.length then fail .depth 0
    else
      set { s.insert number ⟨kind, line⟩ with indent := column, outer := s.indent :: s.outer }

/-- Opens a block collection here, unless one is open. -/
def openBlockHere (kind : TokenKind) : Fetch Unit := do
  let s ← get
  openBlock s.cursor.column s.nextNumber s.cursor.line kind

/-- Closes the block collections further right than a column. -/
def closeBlocks (column : Int) : Fetch Unit :=
  modify fun s =>
    if s.inFlow then s
    else
      let (n, indent, outer) := Scanner.closing column s.indent s.outer
      { s with
        indent, outer
        queue := s.queue ++ List.replicate n ⟨.blockEnd, s.cursor.line⟩ }

/-! ### Keys -/

/-- Gives up on the place where a key may have started. If it had to be a key, that is a failure. -/
def dropKey : Fetch Unit := do
  let s ← get
  if s.key.possible then
    if s.key.required then fail .missingColon s.key.mark.line
    else set ((s.dismissAt s.flowDepth).unlist s.key.number)

/-- Remembers that a key may start here. -/
def saveKey : Fetch Unit := do
  let s ← get
  if s.keyAllowed then
    dropKey
    -- At the column of the innermost block collection nothing but a key can stand.
    let required := !s.inFlow && s.indent == (s.cursor.column : Int)
    modify fun d =>
      { d with
        key := ⟨true, required, s.nextNumber, s.cursor.toMark⟩
        listed := (s.nextNumber, s.flowDepth) :: d.listed }

/-- Whether what stands at a place may still turn out to be a key. If it cannot any more and had to
be one, that is a failure. -/
def mayBeKey (depth : Nat) : Fetch Bool := do
  let s ← get
  match s.keyAt? depth with
  | none => return false
  | some k =>
    if !k.possible then return false
    else if !k.isStale s.cursor.toMark then return true
    else if k.required then fail .missingColon k.mark.line
    else
      set (s.dismissAt depth)
      return false

/-! ### Flow collections -/

/-- Enters a flow collection. -/
def openFlow : Fetch Unit := do
  let s ← get
  if maxDepth ≤ s.flowDepth then fail .depth 0
  else
    set { s with
      flowDepth := s.flowDepth + 1
      key := ⟨false, false, s.nextNumber, s.cursor.toMark⟩
      outerKeys := s.key :: s.outerKeys }

/-- Leaves a flow collection, if there is one to leave. -/
def closeFlow : Fetch Unit :=
  modify fun s =>
    match s.outerKeys with
    | [] => s
    | key :: outerKeys =>
      { s.unlist s.key.number with flowDepth := s.flowDepth - 1, key, outerKeys }

end Fetch

end HeaderMacros.Yaml
