import HeaderMacros.Settings.Mismatch
import HeaderMacros.Yaml.Value

/-!
# Reading nodes

How a node is read as a text, a list of texts or a truth value. A scalar of any sort is read as a
text by its spelling; null gives nothing, and in a list it is passed over. A mismatch does not end
the reading, a malformed scalar does.

An alias is read as the node that it stands for. Reading ends if an alias is met while it is being
followed, and if nearly everything that is read comes from aliases.
-/

namespace HeaderMacros.Settings

/-! ### Progress -/

/-- How far reading has come. -/
structure Progress where
  /-- The mismatches so far. -/
  mismatches : List Mismatch
  /-- The number of nodes read. -/
  visits : Nat
  /-- The number of nodes read while an alias was being followed. -/
  aliased : Nat

/-- The start of reading: the document itself counts as read. -/
def Progress.start : Progress := ⟨[], 1, 0⟩

/-- Whether too much comes from aliases. Of up to 400000 nodes, 99 in a hundred may; the share falls
evenly to ten in a hundred of 4000000 nodes. A hundred of them do not matter, nor do a thousand
nodes in all. -/
def Progress.isExcessive (p : Progress) : Bool :=
  let beyond := min (p.visits - 400000) 3600000
  100 < p.aliased && 1000 < p.visits &&
    p.visits * (99 * 3600000 - 89 * beyond) < p.aliased * 100 * 3600000

/-- A step of reading. -/
abbrev Reading := StateT Progress (Except Yaml.Failure)

/-- Notes mismatches. -/
def note (ms : List Mismatch) : Reading Unit :=
  modify fun p => { p with mismatches := p.mismatches ++ ms }

/-! ### Aliases -/

/-- Where in a document reading is. -/
structure Scope where
  /-- The document. -/
  document : Yaml.Document
  /-- The numbers of the aliases that are being followed. -/
  followed : List Nat

namespace Scope

/-- The number of aliases that are not being followed. -/
def remaining (s : Scope) : Nat := s.document.aliases - s.followed.length

/-- The scope behind an alias, unless the alias is being followed, as it must be when all are. -/
def follow? (s : Scope) (number : Nat) : Option Scope :=
  if s.followed.length < s.document.aliases ∧ !s.followed.contains number then
    some { s with followed := number :: s.followed }
  else none

/-- Following an alias leaves fewer to follow. -/
theorem remaining_follow?_lt {s inner : Scope} {number : Nat} (h : s.follow? number = some inner) :
    inner.remaining < s.remaining := by
  unfold follow? at h
  split at h
  · injection h with h
    subst h
    simp only [remaining, List.length_cons]
    omega
  · contradiction

end Scope

/-- Counts a node as read. -/
def visit (scope : Scope) : Reading Unit := do
  modify fun p =>
    { p with
      visits := p.visits + 1
      aliased := if scope.followed.isEmpty then p.aliased else p.aliased + 1 }
  if (← get).isExcessive then throw ⟨.aliasing, 0⟩

/-- The node to read for a node, and the scope it is in: for an alias what it stands for, else the
node itself. -/
def enter (scope : Scope) (node : Yaml.Node) : Reading (Yaml.Node × Scope) := do
  visit scope
  match node with
  | .reference _ name number target =>
    match scope.follow? number, scope.document.target? target with
    | some inner, some content =>
      visit inner
      return (content, inner)
    | _, _ => throw ⟨.selfContained name, 0⟩
  | content => return (content, scope)

/-! ### Values -/

/-- Notes that a node is not of the sort of a target. A mapping with repeated keys is noted for
these instead. -/
def refuse (target : Target) : Yaml.Node → Reading Unit
  | .scalar line tag value => note [.wrongSort line tag value target]
  | .sequence line tag _ => note [.wrongSort line tag [] target]
  | .mapping line tag pairs =>
    match Yaml.repeatedKeys pairs with
    | [] => note [.wrongSort line tag [] target]
    | keys => note (keys.map .repeatedKey)
  | .reference _ _ _ _ => pure ()

/-- Reads a text. Null gives none. -/
def text? (scope : Scope) (node : Yaml.Node) : Reading (Option Text) := do
  match (← enter scope node).1 with
  | .scalar _ tag value =>
    match ← Yaml.scalarValue tag value with
    | .null => return none
    | .text t => return some t
    | .bool _ | .other => return some value
  | other =>
    refuse .text other
    return none

/-- Reads a list of texts. Null gives the empty list and is passed over in a list. -/
def texts? (scope : Scope) (node : Yaml.Node) : Reading (Option (List Text)) := do
  let (content, inner) ← enter scope node
  match content with
  | .scalar line tag value =>
    match ← Yaml.scalarValue tag value with
    | .null => return some []
    | _ =>
      note [.wrongSort line tag value .texts]
      return none
  | .sequence _ _ items => return some (← items.mapM (text? inner)).reduceOption
  | other =>
    refuse .texts other
    return none

/-- Words for "true" beside the spellings of the truth value itself. -/
def trueWords : List Text := ["y", "Y", "yes", "Yes", "YES", "on", "On", "ON"].map ascii

/-- Words for "false" beside the spellings of the truth value itself. -/
def falseWords : List Text := ["n", "N", "no", "No", "NO", "off", "Off", "OFF"].map ascii

/-- The truth value that a word stands for. -/
def flagOfWord? (word : Text) : Option Bool :=
  if trueWords.contains word then some true
  else if falseWords.contains word then some false
  else none

/-- The truth value that the value of a scalar stands for. -/
def flagOfValue? : Yaml.ScalarValue → Option Bool
  | .bool b => some b
  | .text word => flagOfWord? word
  | .null | .other => none

/-- Reads a truth value. Null gives none. -/
def flag? (scope : Scope) (node : Yaml.Node) : Reading (Option Bool) := do
  match (← enter scope node).1 with
  | .scalar line tag value =>
    let found ← Yaml.scalarValue tag value
    match flagOfValue? found with
    | some b => return some b
    | none =>
      if found ≠ .null then note [.wrongSort line tag value .flag]
      return none
  | other =>
    refuse .flag other
    return none

/-- Reads a key that may be of any sort; only a text is told. A collection cannot be a key. -/
def textKey? (scope : Scope) (key : Yaml.Node) : Reading (Option Text) := do
  match (← enter scope key).1 with
  | .scalar _ tag value =>
    match ← Yaml.scalarValue tag value with
    | .text t => return some t
    | _ => return none
  | .mapping _ _ pairs =>
    match Yaml.repeatedKeys pairs with
    | [] => throw ⟨.collectionKey, 0⟩
    | keys =>
      note (keys.map .repeatedKey)
      return none
  | _ => throw ⟨.collectionKey, 0⟩

end HeaderMacros.Settings
