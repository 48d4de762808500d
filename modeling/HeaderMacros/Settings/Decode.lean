import HeaderMacros.Settings.Basic
import HeaderMacros.Settings.Reading
import HeaderMacros.Yaml.Document

/-!
# Settings in a document

A document of settings is a mapping from the keys of settings to their values; null leaves a setting
as it is. Mappings may be merged into it, and others into these: what a mapping says itself goes
before what is merged into it, and of several the first one to say something counts.
-/

namespace HeaderMacros.Settings

/-- The settings that a file can set. -/
inductive Field where
  /-- The directories to search. -/
  | includeDirs
  /-- The file with more directories. -/
  | includePathsFile
  /-- The headers to read. -/
  | headers
  /-- The macros given beforehand. -/
  | defines
  /-- What the names of the reported macros start with. -/
  | nameStart
  /-- The file to write to. -/
  | output
  /-- Whether to report. -/
  | verbose
  deriving DecidableEq, Repr

/-- The key of a setting. -/
def Field.key : Field → Text
  | .includeDirs => ascii "include_dirs"
  | .includePathsFile => ascii "include_paths_file"
  | .headers => ascii "headers"
  | .defines => ascii "defines"
  | .nameStart => ascii "prefix"
  | .output => ascii "output"
  | .verbose => ascii "verbose"

/-- All settings. -/
def Field.all : List Field :=
  [.includeDirs, .includePathsFile, .headers, .defines, .nameStart, .output, .verbose]

/-- The setting of a key. -/
def Field.ofKey? (key : Text) : Option Field := Field.all.find? fun f => f.key == key

/-- Settings with one of them read from a node. -/
def Field.read (f : Field) (scope : Scope) (s : Settings) (node : Yaml.Node) :
    Reading Settings := do
  match f with
  | .includeDirs => return { s with includeDirs := (← texts? scope node).getD s.includeDirs }
  | .includePathsFile =>
    return { s with includePathsFile := (← text? scope node).getD s.includePathsFile }
  | .headers => return { s with headers := (← texts? scope node).getD s.headers }
  | .defines => return { s with defines := (← texts? scope node).getD s.defines }
  | .nameStart => return { s with nameStart := (← text? scope node).getD s.nameStart }
  | .output => return { s with output := (← text? scope node).getD s.output }
  | .verbose => return { s with verbose := (← flag? scope node).getD s.verbose }

/-- Reads the pairs of a mapping. A setting that is `done` is not set again. -/
def readPairs (scope : Scope) (s : Settings) (done : List Field) :
    List (Yaml.Node × Yaml.Node) → Reading Settings
  | [] => return s
  | (key, value) :: rest => do
    match ← text? scope key with
    | none => readPairs scope s done rest
    | some name =>
      match Field.ofKey? name with
      | none => do
        note [.unknownField key.line name]
        readPairs scope s done rest
      | some f =>
        if done.contains f then do
          note [.repeatedField key.line name]
          readPairs scope s done rest
        else do
          let next ← f.read scope s value
          readPairs scope next (f :: done) rest

/-! ### Merging -/

/-- Settings into which mappings are merged. -/
structure Merging where
  /-- The settings. -/
  settings : Settings
  /-- The keys that do not count any more. -/
  seen : List Text

/-- Merges the pairs of a mapping. -/
def mergePairs (scope : Scope) (m : Merging) : List (Yaml.Node × Yaml.Node) → Reading Merging
  | [] => return m
  | (key, value) :: rest => do
    match ← text? scope key with
    | none => mergePairs scope m rest
    | some name =>
      if m.seen.contains name then mergePairs scope m rest
      else
        let seen := name :: m.seen
        match Field.ofKey? name with
        | none => do
          note [.unknownField key.line name]
          mergePairs scope { m with seen } rest
        | some f => do
          let settings ← f.read scope m.settings value
          mergePairs scope ⟨settings, seen⟩ rest

mutual

/-- Merges a mapping given by its pairs, and then what is merged into it. -/
def mergeMapping (scope : Scope) (m : Merging) (pairs : List (Yaml.Node × Yaml.Node)) :
    Reading Merging := do
  match Yaml.repeatedKeys pairs with
  | [] =>
    let merged ← mergePairs scope m (Yaml.ownPairs pairs)
    match _found : Yaml.mergedNode? pairs with
    | none => return merged
    | some node => mergeAll scope merged node
  | keys =>
    note (keys.map .repeatedKey)
    return m
termination_by (scope.remaining, sizeOf pairs, 0)
decreasing_by
  exact Prod.Lex.right _ (Prod.Lex.left _ _ (Yaml.sizeOf_mergedNode?_lt _found))

/-- Merges what a node stands for: a mapping, or an alias of one. -/
def mergeOne (scope : Scope) (m : Merging) (node : Yaml.Node) : Reading Merging := do
  match node with
  | .mapping _ _ pairs =>
    visit scope
    mergeMapping scope m pairs
  | .reference _ name number target =>
    visit scope
    match _found : scope.follow? number with
    | none => throw ⟨.selfContained name, 0⟩
    | some inner =>
      match scope.document.target? target with
      | some (.mapping _ _ pairs) =>
        visit inner
        mergeMapping inner m pairs
      | _ => throw ⟨.mergeValue, 0⟩
  | _ => throw ⟨.mergeValue, 0⟩
termination_by (scope.remaining, sizeOf node, 0)
decreasing_by
  · exact Prod.Lex.right _ (Prod.Lex.left _ _ (by simp only [Yaml.Node.mapping.sizeOf_spec]; omega))
  · exact Prod.Lex.left _ _ (Scope.remaining_follow?_lt _found)

/-- Merges what some nodes stand for, in order. -/
def mergeItems (scope : Scope) (m : Merging) (items : List Yaml.Node) : Reading Merging := do
  match items with
  | [] => return m
  | item :: rest =>
    let next ← mergeOne scope m item
    mergeItems scope next rest
termination_by (scope.remaining, sizeOf items, 0)
decreasing_by
  all_goals
    exact Prod.Lex.right _ (Prod.Lex.left _ _ (by simp only [List.cons.sizeOf_spec]; omega))

/-- Merges what a node stands for, or all that the items of a sequence stand for. -/
def mergeAll (scope : Scope) (m : Merging) (node : Yaml.Node) : Reading Merging := do
  match node with
  | .sequence _ _ items => mergeItems scope m items
  | other => mergeOne scope m other
termination_by (scope.remaining, sizeOf node, 1)
decreasing_by
  · exact Prod.Lex.right _
      (Prod.Lex.left _ _ (by simp only [Yaml.Node.sequence.sizeOf_spec]; omega))
  · exact Prod.Lex.right _ (Prod.Lex.right _ Nat.zero_lt_one)

end

/-! ### Documents -/

/-- Reads settings from the pairs of a mapping. -/
def ofPairs (scope : Scope) (pairs : List (Yaml.Node × Yaml.Node)) : Reading Settings := do
  match Yaml.repeatedKeys pairs with
  | [] =>
    let s ← readPairs scope empty [] (Yaml.ownPairs pairs)
    match Yaml.mergedNode? pairs with
    | none => return s
    | some node =>
      -- The mapping's own keys win over those of the mappings merged into it.
      let keys ← pairs.mapM fun p => textKey? scope p.1
      return (← mergeAll scope ⟨s, keys.reduceOption⟩ node).settings
  | keys =>
    note (keys.map .repeatedKey)
    return empty

/-- Reads settings from a document. -/
def ofDocument (d : Yaml.Document) : Reading Settings := do
  let (root, scope) ← enter ⟨d, []⟩ d.root
  match root with
  | .mapping _ _ pairs => ofPairs scope pairs
  | .scalar line tag value =>
    if (← Yaml.scalarValue tag value) ≠ .null then note [.wrongSort line tag value .settings]
    return empty
  | other =>
    refuse .settings other
    return empty

/-- Why a text gives no settings. -/
inductive TextFailure where
  /-- It is no document. -/
  | malformed (failure : Yaml.Failure)
  /-- Its content does not fit. -/
  | mismatched (first : Mismatch) (rest : List Mismatch)
  deriving DecidableEq, Repr

/-- The wording of why a text gives no settings. -/
def TextFailure.message : TextFailure → Text
  | .malformed failure => failure.message
  | .mismatched first rest =>
    ascii "yaml: unmarshal errors:" ++
      (first :: rest).flatMap fun m => ascii "\n  " ++ m.message

/-- The settings of a text. A text without a document sets nothing. -/
def ofText (text : Text) : Except TextFailure Settings :=
  match Yaml.document text with
  | .error f => .error (.malformed f)
  | .ok none => .ok empty
  | .ok (some d) =>
    match (ofDocument d).run .start with
    | .error f => .error (.malformed f)
    | .ok (s, progress) =>
      match progress.mismatches with
      | [] => .ok s
      | first :: rest => .error (.mismatched first rest)

end HeaderMacros.Settings
