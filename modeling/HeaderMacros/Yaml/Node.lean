import HeaderMacros.Yaml.Implied
import HeaderMacros.Yaml.Token

/-!
# Nodes

What a document of the settings notation says: a tree of scalars, sequences and mappings, in which
an alias stands for a node that has a name. Every node has the number of the line it starts on, and
every node but an alias has a tag.

An alias may stand inside the node that it stands for. So it does not hold that node but its number
among the nodes of the document that have a name.
-/

namespace HeaderMacros.Yaml

/-- A node of a document. -/
inductive Node where
  /-- A text with a meaning that its tag tells. -/
  | scalar (line : Nat) (tag value : Text)
  /-- Nodes in order. -/
  | sequence (line : Nat) (tag : Text) (items : List Node)
  /-- Pairs of nodes in order. -/
  | mapping (line : Nat) (tag : Text) (pairs : List (Node × Node))
  /-- A name that stands for a node: the alias itself has a number among the aliases, and the node
  has one among the named nodes. -/
  | reference (line : Nat) (name : Text) (number target : Nat)
  deriving Repr

/-- A document. -/
structure Document where
  /-- What it says. -/
  root : Node
  /-- The nodes that have a name, numbered as they start. -/
  named : Array (Option Node)
  /-- The number of aliases. -/
  aliases : Nat
  deriving Repr

namespace Node

/-- The number of the line a node starts on. -/
def line : Node → Nat
  | .scalar line _ _ | .sequence line _ _ | .mapping line _ _ | .reference line _ _ _ => line

/-- A scalar that is not written, at a line counted from zero. -/
def empty (line : Nat) : Node := .scalar (line + 1) Tag.null []

/-- The tag of a scalar without one: only plain scalars have a meaning beside their text. -/
def defaultTag (style : Style) (value : Text) : Text :=
  if style ≠ .plain then Tag.str
  else if value = ascii "<<" then Tag.merge
  else (implied true value).tag

/-- A tag in its short form, or the default if there is none or it is the one that says nothing. -/
def tagOr (tag : Option Text) (default : Text) : Text :=
  match tag with
  | none => default
  | some t => if t = ascii "!" then default else Tag.short t

end Node

/-- The node that a name stands for. -/
def Document.target? (d : Document) (target : Nat) : Option Node := d.named[target]?.join

end HeaderMacros.Yaml
