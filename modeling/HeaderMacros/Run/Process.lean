import HeaderMacros.Run.Line
import HeaderMacros.Source.Normalize
import HeaderMacros.Text.Case

/-!
# Runs

A run reads a document line by line and follows its includes. Each file is included at most once in
a run: names that differ in letter case only count as one, and an include of a name already seen is
noted and passed over.

The texts behind includes come from a *resolver*. It may work in any monad, so that a run can be
over files given beforehand as well as over a file system. A run always ends in a state; if it
failed, the outcome has the fault as well.

Includes of includes are followed up to a given nesting depth. For finitely many files there is a
depth that is never reached, since every level of nesting has a new name.
-/

namespace HeaderMacros

/-- A way to get the text behind an include. -/
abbrev Resolver (m : Type → Type) := Include → m (Except SearchFailure Text)

/-- How a run ended. -/
structure Outcome where
  /-- The state at the end. -/
  state : RunState
  /-- What went wrong, if something did. -/
  fault : Option Fault

namespace RunState

variable {m : Type → Type} [Monad m]

/-- Reads lines one after the other, the first of which has the given number, with `enter` to
follow an include. -/
def readLines (enter : RunState → Include → m Outcome) :
    RunState → Nat → List Text → m Outcome
  | s, _, [] => pure ⟨s, none⟩
  | s, number, text :: rest =>
    let here := { s with line := number }
    match here.readLine text with
    | .error cause => pure ⟨here, some ⟨here.position, cause⟩⟩
    | .ok (.proceed next) => readLines enter next (number + 1) rest
    | .ok (.enter request) => do
      let out ← enter here request
      match out.fault with
      | some _ => pure out
      | none => readLines enter out.state (number + 1) rest

/-- Follows an include, with `process` to read the text behind it. Afterwards the state is back at
the line of the include. -/
def enter (resolver : Option (Resolver m)) (process : RunState → Text → m Outcome)
    (s : RunState) (request : Include) : m Outcome :=
  let key := Text.toLower request.name
  if key ∈ s.processed then
    pure ⟨s.note (ascii "skipping " ++ request.spelling ++ ascii ", already processed"), none⟩
  else
    -- The name counts as seen before its text is there, so a file cannot include itself.
    let marked := { s with processed := key :: s.processed }
    match resolver with
    | none => pure ⟨marked, some ⟨s.position, .unresolved request .noSource⟩⟩
    | some resolve => do
      let asked := { marked with requests := s.requests ++ [request] }
      match ← resolve request with
      | .error failure => pure ⟨asked, some ⟨s.position, .unresolved request failure⟩⟩
      | .ok text => do
        let noted := asked.note (ascii "include " ++ request.spelling)
        let out ← process { noted with files := s.files ++ [request.name], file := request.name } text
        pure { out with state := { out.state with file := s.file, line := s.line } }

/-- Reads a text, following includes up to the given nesting depth. -/
def process (resolver : Option (Resolver m)) : Nat → RunState → Text → m Outcome
  | 0, s, _ => pure ⟨s, some ⟨s.position, .nestedTooDeeply⟩⟩
  | depth + 1, s, text =>
    match Source.normalize text with
    | .error line => pure ⟨s, some ⟨⟨s.file, line⟩, .malformed .unterminatedComment []⟩⟩
    | .ok normalized =>
      readLines (enter resolver (process resolver depth)) s 1 (Text.lines normalized)

end RunState

/-- The end of a run: a group that is still open is a fault at the place of its opening. -/
def Outcome.close (out : Outcome) : Outcome :=
  match out.fault with
  | some _ => out
  | none =>
    { out with
      fault := out.state.groups.unclosed?.map fun p => ⟨p, .malformed .unterminatedGroup []⟩ }

/-- Runs over a document, with some macros defined beforehand. -/
def run {m : Type → Type} [Monad m] (resolver : Option (Resolver m)) (depth : Nat)
    (predefined : List Macro) (text : Text) : m Outcome := do
  let out ← (RunState.initial predefined).process resolver depth text
  return out.close

/-- Files given beforehand, under their names. -/
abbrev FileSet := List (Text × Text)

namespace FileSet

/-- The text of a file. Of two files of one name the later one counts. -/
def find? (files : FileSet) (name : Text) : Option Text := files.reverse.lookup name

/-- The resolver of a fixed set of files, which takes names as they are spelled. -/
def resolver (files : FileSet) : Resolver Id := fun request =>
  match files.find? request.name with
  | some text => .ok text
  | none => .error .unknownName

/-- A nesting depth that includes from a fixed set of files never reach. -/
def nestingBound (files : FileSet) : Nat := files.length + 1

end FileSet

end HeaderMacros
