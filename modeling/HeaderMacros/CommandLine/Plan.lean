import HeaderMacros.CommandLine.Arguments
import HeaderMacros.Harvest
import HeaderMacros.Report.Record
import HeaderMacros.Settings.Environment
import HeaderMacros.Settings.Load

/-!
# What the command line does

The settings of a file, of the environment and of the arguments are put together, the headers are
harvested, and the records of the macros are delivered. Everything up to the delivery only reads, so
it is a plan: either to stop with a message, or to deliver records to a file or to the standard
output. The last step carries the plan out.
-/

namespace HeaderMacros.CommandLine

/-- What is left to do when all is read. -/
inductive Plan where
  /-- To stop with an exit code and a message. -/
  | stop (code : Nat) (message : Text)
  /-- To deliver records to a file, or to the standard output if its name is empty. The notes of the
  harvest come first. -/
  | deliver (notes output records : Text)
  deriving DecidableEq, Repr

/-- The exit code of a success. -/
def successCode : Nat := 0

/-- The exit code of a failure. -/
def failureCode : Nat := 1

/-- The exit code of arguments that are not understood. -/
def usageCode : Nat := 2

/-- A message as a line. -/
def messageLine (message : Text) : Text := message ++ [Byte.newline]

/-- A note of the harvest as a line. -/
def noteLine (note : Text) : Text := ascii "macroharvest: " ++ messageLine note

/-- The last note, on how much was found. -/
def countNote (macros headers : Nat) : Text :=
  Text.ofNat macros ++ ascii " macros from " ++ Text.ofNat headers ++ ascii " headers"

/-- Settings with what the arguments say. Lists grow, other values are replaced if the arguments give
one. -/
def withArguments (s : Settings) (a : Arguments) : Settings :=
  let extended := s.extend a.dirs a.defines
  { extended with
    includePathsFile := if a.includePathsFile = [] then s.includePathsFile else a.includePathsFile
    headers := if a.headers = [] then s.headers else a.headers
    nameStart := if a.nameStart = [] then s.nameStart else a.nameStart
    output := if a.output = [] then s.output else a.output
    verbose := s.verbose || a.verbose }

/-- The plan that a harvest leads to. -/
def planOf (s : Settings) (h : Harvest) : Plan :=
  let lines (notes : List Text) : Text := if s.verbose then notes.flatMap noteLine else []
  match h.macros with
  | .error failure => .stop failureCode (lines h.log ++ messageLine failure.message)
  | .ok macros =>
    let kept := Report.withPrefix s.nameStart macros
    .deliver (lines (h.log ++ [countNote kept.length s.headers.length])) s.output
      (Report.write kept)

variable {m : Type → Type} [Monad m]

/-- The plan that settings lead to. The nesting depth of includes may depend on the document they
start from. -/
def planHarvest (disk : Disk m) (depth : Text → Nat) (s : Settings) : m Plan := do
  match ← s.searchDirs disk with
  | .error failure => return .stop failureCode (messageLine (Search.directoriesFailure failure))
  | .ok dirs =>
    let root := Report.rootDocument s.headers
    let h ← harvestText disk (depth root) ⟨dirs, s.defines⟩ root
    return planOf s h

/-- The plan that settings, the environment and arguments lead to. -/
def planFrom (disk : Disk m) (depth : Text → Nat) (e : Settings.Environment) (a : Arguments)
    (loaded : Settings) (formats : Settings.Formats) : m Plan := do
  match loaded.applyEnvironment e formats with
  | (_, some failure) =>
    return .stop failureCode (messageLine (Settings.environmentFailure failure))
  | (s, none) =>
    let complete := withArguments s a
    if complete.headers = [] then return .stop usageCode usage
    else planHarvest disk depth complete

/-- The plan that arguments lead to. -/
def plan (disk : Disk m) (depth : Text → Nat) (e : Settings.Environment) (arguments : List Text)
    (formats : Settings.Formats) : m Plan := do
  match Arguments.parse arguments with
  | .error failure => return .stop usageCode (failure.message ++ usage)
  | .ok a =>
    if a.settingsFile = [] then planFrom disk depth e a Settings.empty formats
    else
      match ← Settings.load disk a.settingsFile formats with
      | .error failure => return .stop failureCode (messageLine failure.message)
      | .ok s => planFrom disk depth e a s formats

/-- What the command line leaves behind. -/
structure Result where
  /-- The exit code. -/
  code : Nat
  /-- What is written to the standard output. -/
  output : Text
  /-- What is written to the standard error output. -/
  errors : Text
  /-- The files. -/
  tree : FileTree

/-- Carries a plan out in a tree of files. -/
def Plan.carryOut (tree : FileTree) : Plan → Result
  | .stop code message => ⟨code, [], message, tree⟩
  | .deliver notes output records =>
    if output = [] then ⟨successCode, records, notes, tree⟩
    else
      match tree.write output records with
      | .ok next => ⟨successCode, [], notes, next⟩
      | .error failure => ⟨failureCode, [], notes ++ messageLine failure.message, tree⟩

/-- Runs the command line in a tree of files. -/
def run (tree : FileTree) (e : Settings.Environment) (arguments : List Text)
    (formats : Settings.Formats := .standard) : Result :=
  (Id.run (plan tree.disk tree.nestingBound e arguments formats)).carryOut tree

end HeaderMacros.CommandLine
