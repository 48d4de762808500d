import HeaderMacros.Yaml.Node

/-!
# Keys of a mapping

Two keys are the same if they are of one sort and have one text; collections have no text. A mapping
in which a key occurs twice cannot be used. Under the key `<<` a mapping names others that are
merged into it.
-/

namespace HeaderMacros.Yaml

/-- A key that occurs again in its mapping. -/
structure RepeatedKey where
  /-- The line of the later occurrence. -/
  line : Nat
  /-- The text of the key. -/
  key : Text
  /-- The line of the earlier occurrence. -/
  first : Nat
  deriving DecidableEq, Repr

/-- What tells keys apart: their sort and their text. -/
def Node.keyMark : Node → Nat × Text
  | .scalar _ _ value => (0, value)
  | .sequence _ _ _ => (1, [])
  | .mapping _ _ _ => (2, [])
  | .reference _ name _ _ => (3, name)

/-- The keys that occur again in a mapping, each with every earlier occurrence. -/
def repeatedKeys : List (Node × Node) → List RepeatedKey
  | [] => []
  | (key, _) :: rest =>
    (rest.filterMap fun p =>
      if p.1.keyMark = key.keyMark then some ⟨p.1.line, p.1.keyMark.2, key.line⟩ else none) ++
      repeatedKeys rest

/-- Whether a node is the key that merges mappings. -/
def Node.isMergeKey : Node → Bool
  | .scalar _ tag value => value == ascii "<<" && tag == Tag.merge
  | _ => false

/-- What a mapping merges into itself, if anything. -/
def mergedNode? (pairs : List (Node × Node)) : Option Node :=
  (pairs.find? fun p => p.1.isMergeKey).map (·.2)

/-- The pairs of a mapping that merge nothing. -/
def ownPairs (pairs : List (Node × Node)) : List (Node × Node) :=
  pairs.filter fun p => !p.1.isMergeKey

/-- What a mapping merges is smaller than its pairs together. -/
theorem sizeOf_mergedNode?_lt {pairs : List (Node × Node)} {node : Node}
    (h : mergedNode? pairs = some node) : sizeOf node < sizeOf pairs := by
  obtain ⟨⟨key, value⟩, found, rfl⟩ := Option.map_eq_some_iff.mp h
  have member := List.sizeOf_lt_of_mem (List.mem_of_find?_eq_some found)
  simp only [Prod.mk.sizeOf_spec] at member
  simp only
  omega

end HeaderMacros.Yaml
