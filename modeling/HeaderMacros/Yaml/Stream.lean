import HeaderMacros.Yaml.Scanner

/-!
# The tokens of a text

How a text is cut into tokens, one after the other. A token is taken from the queue when two more
wait behind it and it is settled whether it starts a key. A text that cannot be cut to its end still
has the tokens that were taken before, and a document that ends well before the failure can be read.
-/

namespace HeaderMacros.Yaml

/-- Passes over white space, comments and line ends to the start of a token. The answer says whether
a key may start there. -/
def skipBlank (flow : Bool) : Bool → Nat → Scan Bool
  | keyAllowed, 0 => return keyAllowed
  | keyAllowed, fuel + 1 => do
    Scan.need 1
    let c ← get
    -- A byte order mark is looked for at the start of a line, where the last window was loaded.
    if c.column = 0 ∧ c.windowStart = some 0xFEFF then Scan.skip
    -- A tab separates tokens, but is no indentation.
    Scan.skipWhile fun x => x == 0x20 || ((flow || !keyAllowed) && x == 0x09)
    if (← get).sees 0 '#' then Scan.comments
    if ((← get).peek? 0).any isBreak then
      Scan.skipLine
      skipBlank flow (keyAllowed || !flow) fuel
    else return keyAllowed

namespace Fetch

/-- The end of the text, which counts as the start of a line. -/
def fetchEnd : Fetch Unit := do
  modify fun s =>
    if s.cursor.column = 0 then s
    else { s with cursor := { s.cursor with column := 0, line := s.cursor.line + 1 } }
  closeBlocks (-1)
  dropKey
  allowKey false
  pushMark .streamEnd 0

/-- A directive. -/
def fetchDirective : Fetch Unit := do
  closeBlocks (-1)
  dropKey
  allowKey false
  let line := (← get).cursor.line
  push (← scan directive) line

/-- A mark for the start or the end of a document. -/
def fetchDocumentMark (kind : TokenKind) : Fetch Unit := do
  closeBlocks (-1)
  dropKey
  allowKey false
  pushMark kind 3

/-- The start of a flow collection. -/
def fetchFlowStart (kind : TokenKind) : Fetch Unit := do
  saveKey
  openFlow
  allowKey true
  pushMark kind 1

/-- The end of a flow collection. -/
def fetchFlowEnd (kind : TokenKind) : Fetch Unit := do
  dropKey
  closeFlow
  allowKey false
  pushMark kind 1

/-- A comma in a flow collection. -/
def fetchFlowEntry : Fetch Unit := do
  dropKey
  allowKey true
  pushMark .flowEntry 1

/-- Fails outside flow collections unless a key may start here. -/
def requireKeyAllowed (problem : Problem) : Fetch Unit := do
  let s ← get
  if !s.inFlow && !s.keyAllowed then fail problem 0

/-- A hyphen before an entry. -/
def fetchBlockEntry : Fetch Unit := do
  requireKeyAllowed .entryContext
  openBlockHere .blockSequenceStart
  dropKey
  allowKey true
  pushMark .blockEntry 1

/-- A question mark before a key. -/
def fetchKey : Fetch Unit := do
  requireKeyAllowed .keyContext
  openBlockHere .blockMappingStart
  dropKey
  allowKey (!(← get).inFlow)
  pushMark .key 1

/-- Announces the key that started at a place. -/
def announceKey (k : KeyPlace) : Fetch Unit := do
  modify (·.insert k.number ⟨.key, k.mark.line⟩)
  openBlock k.mark.column k.number k.mark.line .blockMappingStart
  modify fun s => (s.dismissAt s.flowDepth).unlist k.number

/-- A colon before a value. -/
def fetchValue : Fetch Unit := do
  if ← mayBeKey (← get).flowDepth then
    announceKey (← get).key
    allowKey false
  else
    requireKeyAllowed .valueContext
    openBlockHere .blockMappingStart
    allowKey (!(← get).inFlow)
  pushMark .value 1

/-- What may start a key and is read in one step. -/
def fetchContent (step : Scan TokenKind) : Fetch Unit := do
  saveKey
  allowKey false
  let line := (← get).cursor.line
  push (← scan step) line

/-- A block scalar. -/
def fetchBlockScalar (style : Style) : Fetch Unit := do
  dropKey
  allowKey true
  let s ← get
  push (.scalar (← scan (blockScalar (style == .folded) s.indent)) style) s.cursor.line

/-- A plain scalar. After a line end behind it a key may start. -/
def fetchPlainScalar : Fetch Unit := do
  saveKey
  let s ← get
  let (text, broken) ← scan (plainScalar s.inFlow (s.indent + 1).toNat)
  allowKey broken
  push (.scalar text .plain) s.cursor.line

/-- Whether a plain scalar can start here. -/
def startsPlain (flow : Bool) (c : Cursor) : Bool :=
  !(isGap (c.peek? 0) || c.seesAny "-?:,[]\x7b\x7d#&*!|>'\"%@`") ||
    (c.sees 0 '-' && !(c.peek? 1).any isBlank) ||
    (!flow && c.seesAny "?:" && !isGap (c.peek? 1))

/-- A token that counts wherever it stands. -/
def fetchToken (flow : Bool) (c : Cursor) : Fetch Unit :=
  -- The signs of flow collections.
  if c.seesAny "[" then fetchFlowStart .flowSequenceStart
  else if c.seesAny "\x7b" then fetchFlowStart .flowMappingStart
  else if c.seesAny "]" then fetchFlowEnd .flowSequenceEnd
  else if c.seesAny "\x7d" then fetchFlowEnd .flowMappingEnd
  else if c.seesAny "," then fetchFlowEntry
  -- These signs count only before white space, two of them in flow collections anyway.
  else if c.seesAny "?" && (flow || isGap (c.peek? 1)) then fetchKey
  else if c.seesAny ":" && (flow || isGap (c.peek? 1)) then fetchValue
  -- What can stand before or in the place of the content of a node.
  else if c.seesAny "*" then fetchContent (return .reference (← anchorName))
  else if c.seesAny "&" then fetchContent (return .anchor (← anchorName))
  else if c.seesAny "!" then
    fetchContent do
      let (handle, text) ← tag
      return .tag handle text
  else if c.seesAny "|" && !flow then fetchBlockScalar .literal
  else if c.seesAny ">" && !flow then fetchBlockScalar .folded
  else if c.seesAny "'" then fetchContent (return .scalar (← quotedScalar true) .singleQuoted)
  else if c.seesAny "\"" then fetchContent (return .scalar (← quotedScalar false) .doubleQuoted)
  else if startsPlain flow c then fetchPlainScalar
  else fail .noToken 0

/-- The next token. -/
def next : Fetch Unit := do
  let s ← get
  allowKey (← scan (Scan.repeated (skipBlank s.inFlow s.keyAllowed)))
  -- A token further left than a block collection ends it.
  closeBlocks (← get).cursor.column
  scan (Scan.need 4)
  let c := (← get).cursor
  if c.atEnd then fetchEnd
  -- What counts only at the start of a line.
  else if c.column = 0 ∧ c.sees 0 '%' then fetchDirective
  else if c.seesMark '-' then fetchDocumentMark .documentStart
  else if c.seesMark '.' then fetchDocumentMark .documentEnd
  else if c.seesAny "-" && isGap (c.peek? 1) then fetchBlockEntry
  else
    fetchToken s.inFlow c
    scan Scan.lineComment

/-- Whether the first token that waits can be taken. -/
def ready : Fetch Bool := do
  let s ← get
  match s.queue with
  | _ :: _ :: _ :: _ =>
    match s.listed.lookup s.taken with
    | none => return true
    | some depth => return !(← mayBeKey depth)
  | _ => return false

/-- Takes the first token that waits. Its number is not needed on the list any more. -/
def take : Fetch (Option Token) := do
  let s ← get
  match s.queue with
  | [] => return none
  | token :: queue =>
    set { s.unlist s.taken with queue, taken := s.taken + 1 }
    return some token

/-- Takes a token if one can be taken, and else cuts the next one. -/
def step : Fetch (Option Token) := do
  if ← ready then take
  else
    next
    return none

end Fetch

/-- The tokens of a text as far as they can be taken, and what stopped that. -/
structure Stream where
  /-- The tokens. -/
  tokens : List Token
  /-- What stopped the cutting, if something did. -/
  failure : Option Failure

namespace Stream

/-- Takes tokens up to the end of the text, behind some tokens taken already, the last one first. -/
def takeFrom : Nat → List Token → Scanner → Stream
  | 0, tokens, _ => ⟨tokens.reverse, none⟩
  | fuel + 1, tokens, s =>
    match Fetch.step.run s with
    | .error failure => ⟨tokens.reverse, some failure⟩
    | .ok (none, s) => takeFrom fuel tokens s
    | .ok (some token, s) =>
      if token.kind = .streamEnd then ⟨(token :: tokens).reverse, none⟩
      else takeFrom fuel (token :: tokens) s

/-- Cuts a text into tokens. Every token but the last takes a character, and for each there are at
most three more that announce a key, open a collection or close one. -/
def ofWindows (w : Windows) : Stream :=
  takeFrom (8 * (w.characters.length + 4)) [] (Scanner.start w)

end Stream

end HeaderMacros.Yaml
