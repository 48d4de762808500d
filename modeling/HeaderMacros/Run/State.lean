import HeaderMacros.Condition.Expand
import HeaderMacros.Group

/-!
# The state of a run

Everything a run over a document and its includes keeps. The macros, the names already included and
the open groups are shared by all files of the run.

Besides what a run produces, the state records what it asked for and what it had to tell: the
includes it looked up, and a log with one note for each include and each ignored directive.
-/

namespace HeaderMacros

/-- The state of a run. -/
structure RunState where
  /-- The macros defined so far. -/
  macros : Table
  /-- The names of the files included so far, in lower case, the latest first. -/
  processed : List Text
  /-- The open groups. -/
  groups : Groups
  /-- The tokens of the active lines that are no directives, each line ended by a newline token. -/
  code : List Token
  /-- The names of the files read so far, in the order of reading. -/
  files : List Text
  /-- The file being read. -/
  file : Text
  /-- The line being read. -/
  line : Nat
  /-- The includes looked up so far, in order. -/
  requests : List Include
  /-- The notes written so far, in order. -/
  log : List Text

namespace RunState

/-- The name of the document that a run starts with. -/
def rootFile : Text := ascii "<root>"

/-- The state before the first line, with some macros defined beforehand. -/
def initial (predefined : List Macro) : RunState where
  macros := Table.ofList predefined
  processed := []
  groups := []
  code := []
  files := []
  file := rootFile
  line := 0
  requests := []
  log := []

/-- The place of the line being read. -/
def position (s : RunState) : Position := ⟨s.file, s.line⟩

/-- Writes a note about the line being read. -/
def note (s : RunState) (message : Text) : RunState :=
  { s with log := s.log ++ [Position.message (some s.position) ++ ascii ": " ++ message] }

/-- The truth value of a condition with the macros of the state. -/
def evaluate (s : RunState) (condition : List Token) : Except Cause Bool :=
  Condition.evaluate s.macros.lookup condition

end RunState

end HeaderMacros
