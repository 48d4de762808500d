import HeaderMacros.Yaml.Node
import HeaderMacros.Yaml.Stream

/-!
# Documents

The first document of a text, read from its tokens. Nodes that are left out are empty scalars. A
name given to a node is known from the start of the node on, and a later node may take it over. What
follows the first document does not matter, as long as the token after it can be taken.
-/

namespace HeaderMacros.Yaml

/-- A document that is being read. -/
structure Reader where
  /-- The tokens from here on. -/
  rest : List Token
  /-- What stopped the cutting of tokens, if something did. -/
  failure : Option Failure
  /-- The names of nodes with the numbers of the nodes, the newest first. -/
  anchors : List (Text × Nat)
  /-- The nodes that have a name, as far as they are read. -/
  named : Array (Option Node)
  /-- The number of aliases. -/
  aliases : Nat
  /-- The tag handles and what they stand for. -/
  handles : List (Text × Text)

/-- A step of reading a document. -/
abbrev Reading := StateT Reader (Except Failure)

namespace Reading

/-- The next token. -/
def peek : Reading Token := do
  let r ← get
  match r.rest, r.failure with
  | token :: _, _ => return token
  | [], some f => throw f
  | [], none => return ⟨.streamEnd, 0⟩

/-- Passes over the next token. -/
def skip : Reading Unit := modify fun r => { r with rest := r.rest.drop 1 }

/-- Fails. -/
def fail {α : Type} (problem : Problem) (context place : Nat) : Reading α :=
  throw (.reading problem context place)

/-- Reads the content of a node that may have a name. The name is known in the content already. -/
def named (anchor : Option Text) (content : Reading Node) : Reading Node := do
  match anchor with
  | none => content
  | some text =>
    let number := (← get).named.size
    modify fun r => { r with anchors := (text, number) :: r.anchors, named := r.named.push none }
    let node ← content
    modify fun r => { r with named := r.named.setIfInBounds number (some node) }
    return node

/-- A tag written out. Without a handle it is written out already. -/
def wholeTag (start place : Nat) (handle suffix : Text) : Reading Text := do
  if handle = [] then return suffix
  match (← get).handles.lookup handle with
  | some start => return start ++ suffix
  | none => fail .tagHandle start place

/-- What stands before the content of a node. -/
structure Properties where
  /-- The line of the first token of the node, counted from zero. -/
  line : Nat
  /-- The name of the node. -/
  anchor : Option Text
  /-- The tag of the node, written out. -/
  tag : Option Text

/-- Reads a name. -/
def anchor? : Reading (Option Text) := do
  match (← peek).kind with
  | .anchor text => skip; return some text
  | _ => return none

/-- Reads a tag, and on which line it stands. -/
def tag? : Reading (Option (Text × Text × Nat)) := do
  let token ← peek
  match token.kind with
  | .tag handle suffix => skip; return some (handle, suffix, token.line)
  | _ => return none

/-- Reads what stands before the content of a node: a name and a tag in either order. -/
def properties : Reading Properties := do
  let start := (← peek).line
  let before ← anchor?
  let tag ← tag?
  let anchor ← if before.isSome then pure before else if tag.isSome then anchor? else pure none
  let whole ←
    match tag with
    | some (handle, suffix, place) => some <$> wholeTag start place handle suffix
    | none => pure none
  return ⟨start, anchor, whole⟩

/-- Reads an alias. -/
def reference (line : Nat) (text : Text) : Reading Node := do
  skip
  let r ← get
  match r.anchors.lookup text with
  | some target =>
    set { r with aliases := r.aliases + 1 }
    return .reference (line + 1) text r.aliases target
  | none => throw ⟨.unknownAnchor text, 0⟩

/-- Where an entry of a block sequence is left out. -/
def endsEntry : TokenKind → Bool
  | .blockEntry | .blockEnd => true
  | _ => false

/-- Where an entry of a sequence that is not indented is left out. -/
def endsIndentlessEntry : TokenKind → Bool
  | .blockEntry | .key | .value | .blockEnd => true
  | _ => false

/-- Where a key or a value of a block mapping is left out. -/
def endsPart : TokenKind → Bool
  | .key | .value | .blockEnd => true
  | _ => false

/-- Where a key of a pair in a flow sequence is left out. -/
def endsSequenceKey : TokenKind → Bool
  | .value | .flowEntry | .flowSequenceEnd => true
  | _ => false

/-- Where a value of a pair in a flow sequence is left out. -/
def endsSequenceValue : TokenKind → Bool
  | .flowEntry | .flowSequenceEnd => true
  | _ => false

/-- Where a key of a flow mapping is left out. -/
def endsMappingKey : TokenKind → Bool
  | .value | .flowEntry | .flowMappingEnd => true
  | _ => false

/-- Where a value of a flow mapping is left out. -/
def endsMappingValue : TokenKind → Bool
  | .flowEntry | .flowMappingEnd => true
  | _ => false

/-- Where a document is empty. -/
def endsDocument : TokenKind → Bool
  | .versionDirective _ _ | .tagDirective _ _ | .documentStart | .documentEnd | .streamEnd => true
  | _ => false

mutual

/-- Reads a node. Block collections occur only where `block` says so, and a block sequence without
indentation only where `indentless` says so. -/
def node : Nat → Bool → Bool → Reading Node
  | 0, _, _ => fail .nodeContent 0 0
  | fuel + 1, block, indentless => do
    -- An alias has neither name nor tag.
    let first ← peek
    if let .reference text := first.kind then
      return ← reference first.line text
    let p ← properties
    let line := p.line + 1
    let token ← peek
    let scalar (default value : Text) : Reading Node :=
      named p.anchor (return .scalar line (Node.tagOr p.tag default) value)
    let sequence (items : Reading (List Node)) : Reading Node :=
      named p.anchor (return .sequence line (Node.tagOr p.tag Tag.seq) (← items))
    let mapping (pairs : Reading (List (Node × Node))) : Reading Node :=
      named p.anchor (return .mapping line (Node.tagOr p.tag Tag.map) (← pairs))
    match token.kind with
    | .scalar text style =>
      skip
      scalar (Node.defaultTag style text) text
    | .flowSequenceStart => sequence (do skip; flowItems fuel token.line true)
    | .flowMappingStart => mapping (do skip; flowPairs fuel token.line true)
    | kind =>
      if indentless && kind == .blockEntry then sequence (indentlessItems fuel)
      else if block && kind == .blockSequenceStart then
        sequence (do skip; blockItems fuel token.line)
      else if block && kind == .blockMappingStart then
        mapping (do skip; blockPairs fuel token.line)
      -- A name or a tag alone stands before an empty scalar.
      else if p.anchor.isSome || p.tag.isSome then scalar Tag.null []
      else fail .nodeContent p.line token.line

/-- Reads a node, or an empty one where the next token says that it is left out. It is on the given
line, or else on the line of that token. -/
def nodeUnless : Nat → Bool → Bool → (TokenKind → Bool) → Option Nat → Reading Node
  | 0, _, _, _, _ => fail .nodeContent 0 0
  | fuel + 1, block, indentless, ends, line => do
    let token ← peek
    if ends token.kind then return Node.empty (line.getD token.line)
    else node fuel block indentless

/-- Reads the entries of a block sequence, behind its start. -/
def blockItems : Nat → Nat → Reading (List Node)
  | 0, _ => fail .nodeContent 0 0
  | fuel + 1, start => do
    let token ← peek
    match token.kind with
    | .blockEntry =>
      skip
      let item ← nodeUnless fuel true false endsEntry (some token.line)
      return item :: (← blockItems fuel start)
    | .blockEnd => skip; return []
    | _ => fail .sequenceEntry start token.line

/-- Reads the entries of a block sequence that is not indented. -/
def indentlessItems : Nat → Reading (List Node)
  | 0 => fail .nodeContent 0 0
  | fuel + 1 => do
    let token ← peek
    if token.kind = .blockEntry then
      skip
      let item ← nodeUnless fuel true false endsIndentlessEntry (some token.line)
      return item :: (← indentlessItems fuel)
    else return []

/-- Reads the pairs of a block mapping, behind its start. -/
def blockPairs : Nat → Nat → Reading (List (Node × Node))
  | 0, _ => fail .nodeContent 0 0
  | fuel + 1, start => do
    let token ← peek
    match token.kind with
    | .key =>
      skip
      let key ← nodeUnless fuel true true endsPart (some token.line)
      let sign ← peek
      let value ←
        if sign.kind = .value then do
          skip
          nodeUnless fuel true true endsPart (some sign.line)
        else pure (Node.empty sign.line)
      return (key, value) :: (← blockPairs fuel start)
    | .blockEnd => skip; return []
    | _ => fail .mappingKey start token.line

/-- Reads the entries of a flow sequence, behind its start or behind an entry. -/
def flowItems : Nat → Nat → Bool → Reading (List Node)
  | 0, _, _ => fail .nodeContent 0 0
  | fuel + 1, start, first => do
    let token ← peek
    if token.kind = .flowSequenceEnd then
      skip
      return []
    if !first then
      if token.kind = .flowEntry then skip else fail .flowSequence start token.line
    let entry ← peek
    match entry.kind with
    | .flowSequenceEnd => skip; return []
    | .key =>
      skip
      let pair ← flowPair fuel
      return .mapping (entry.line + 1) Tag.map [pair] :: (← flowItems fuel start false)
    | _ =>
      let item ← node fuel false false
      return item :: (← flowItems fuel start false)

/-- Reads a pair in a flow sequence. A key that is left out takes the token after it along. -/
def flowPair : Nat → Reading (Node × Node)
  | 0 => fail .nodeContent 0 0
  | fuel + 1 => do
    let token ← peek
    let key ←
      if endsSequenceKey token.kind then do
        skip
        pure (Node.empty token.line)
      else node fuel false false
    let sign ← peek
    if sign.kind = .value then
      skip
      return (key, ← nodeUnless fuel false false endsSequenceValue none)
    else return (key, Node.empty sign.line)

/-- Reads the pairs of a flow mapping, behind its start or behind a pair. -/
def flowPairs : Nat → Nat → Bool → Reading (List (Node × Node))
  | 0, _, _ => fail .nodeContent 0 0
  | fuel + 1, start, first => do
    let token ← peek
    if token.kind = .flowMappingEnd then
      skip
      return []
    if !first then
      if token.kind = .flowEntry then skip else fail .flowMapping start token.line
    let entry ← peek
    match entry.kind with
    | .flowMappingEnd => skip; return []
    | .key =>
      skip
      let key ← nodeUnless fuel false false endsMappingKey none
      let sign ← peek
      let value ←
        if sign.kind = .value then do
          skip
          nodeUnless fuel false false endsMappingValue none
        else pure (Node.empty sign.line)
      return (key, value) :: (← flowPairs fuel start false)
    | _ =>
      let key ← node fuel false false
      let next ← peek
      return (key, Node.empty next.line) :: (← flowPairs fuel start false)

end

/-- The only version of the notation. -/
def version : Nat × Nat := (1, 1)

/-- Reads the directives before a document; `versioned` tells whether one gave the version. -/
def directives : Nat → Bool → Reading Unit
  | 0, _ => pure ()
  | fuel + 1, versioned => do
    let token ← peek
    match token.kind with
    | .versionDirective major minor =>
      if versioned then fail .repeatedVersion 0 token.line
      else if (major, minor) ≠ version then fail .version 0 token.line
      else
        skip
        directives fuel true
    | .tagDirective handle start =>
      if ((← get).handles.lookup handle).isSome then fail .repeatedHandle 0 token.line
      else
        modify fun r => { r with handles := (handle, start) :: r.handles }
        skip
        directives fuel versioned
    | _ => pure ()

/-- The tag handles that need no declaration. -/
def defaultHandles : List (Text × Text) :=
  [(ascii "!", ascii "!"), (ascii "!!", Tag.long)]

/-- Declares the default handles where no directive did. -/
def addDefaultHandles : Reading Unit :=
  modify fun r => { r with handles := r.handles ++ defaultHandles }

/-- Reads a document behind its directives. -/
def explicitDocument (fuel : Nat) : Reading Node := do
  let token ← peek
  if token.kind ≠ .documentStart then fail .documentStart 0 token.line
  else
    skip
    nodeUnless fuel true false endsDocument none

/-- Reads the first document, if there is one. -/
def document (fuel : Nat) : Reading (Option Document) := do
  -- The first token is the start of the text.
  discard peek
  skip
  let token ← peek
  if token.kind = .streamEnd then return none
  directives fuel false
  addDefaultHandles
  let root ←
    match token.kind with
    | .versionDirective _ _ | .tagDirective _ _ | .documentStart => explicitDocument fuel
    | _ => node fuel true false
  -- What follows must be a token too.
  discard peek
  let r ← get
  return some ⟨root, r.named, r.aliases⟩

end Reading

/-- The first document of a stream of tokens, if there is one. A node takes a token, and between two
tokens there are few steps. -/
def Stream.document (s : Stream) : Except Failure (Option Document) :=
  let start : Reader :=
    { rest := s.tokens, failure := s.failure, anchors := [], named := #[], aliases := 0,
      handles := [] }
  (Reading.document (4 * s.tokens.length + 4)).run' start

/-- The first document of a text, if there is one. -/
def document (text : Text) : Except Failure (Option Document) :=
  (Stream.ofWindows (Windows.ofText text)).document

end HeaderMacros.Yaml
