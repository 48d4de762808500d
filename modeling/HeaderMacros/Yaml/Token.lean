import HeaderMacros.Text.Basic

/-!
# Tokens of the settings notation

A document is first cut into tokens. Indentation becomes tokens too: the start and the end of every
block collection are marked, so what follows need not look at columns.
-/

namespace HeaderMacros.Yaml

/-- How a scalar is written. -/
inductive Style where
  /-- Without quotes. -/
  | plain
  /-- Between single quotes. -/
  | singleQuoted
  /-- Between double quotes. -/
  | doubleQuoted
  /-- As an indented block that is kept as it is. -/
  | literal
  /-- As an indented block whose lines are joined. -/
  | folded
  deriving DecidableEq, Repr

/-- The kinds of token. -/
inductive TokenKind where
  /-- The start of the text. -/
  | streamStart
  /-- The end of the text. -/
  | streamEnd
  /-- A directive that gives the version of the notation. -/
  | versionDirective (major minor : Nat)
  /-- A directive that declares a tag handle. -/
  | tagDirective (handle start : Text)
  /-- The mark before a document. -/
  | documentStart
  /-- The mark after a document. -/
  | documentEnd
  /-- The start of a block sequence. -/
  | blockSequenceStart
  /-- The start of a block mapping. -/
  | blockMappingStart
  /-- The end of a block collection. -/
  | blockEnd
  /-- An opening square bracket. -/
  | flowSequenceStart
  /-- A closing square bracket. -/
  | flowSequenceEnd
  /-- An opening brace. -/
  | flowMappingStart
  /-- A closing brace. -/
  | flowMappingEnd
  /-- A hyphen before an entry. -/
  | blockEntry
  /-- A comma between entries. -/
  | flowEntry
  /-- The place before a key. -/
  | key
  /-- The colon before a value. -/
  | value
  /-- A reference to an anchor. -/
  | reference (name : Text)
  /-- The name of the node that follows. -/
  | anchor (name : Text)
  /-- The tag of the node that follows. -/
  | tag (handle suffix : Text)
  /-- A scalar. -/
  | scalar (text : Text) (style : Style)
  deriving DecidableEq, Repr

/-- A token and the line it starts on, counted from zero. -/
structure Token where
  /-- What it is. -/
  kind : TokenKind
  /-- The number of lines before it. -/
  line : Nat
  deriving DecidableEq, Repr

end HeaderMacros.Yaml
