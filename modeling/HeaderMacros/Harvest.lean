import HeaderMacros.Report.Header
import HeaderMacros.Search.Find

/-!
# Harvests

A harvest runs over headers and keeps the macros that are defined at the end. Macros may be given
beforehand, spelled as on a command line; all misspelled ones are reported together and nothing is
read then.
-/

namespace HeaderMacros

/-- What goes into a harvest besides its headers. -/
structure HarvestOptions where
  /-- The directories to search for included files, in order. -/
  includeDirs : List Text
  /-- The macros given beforehand, each spelled `NAME` or `NAME=VALUE`. -/
  defines : List Text

/-- Why a harvest failed. -/
inductive HarvestFailure where
  /-- Some macros given beforehand are misspelled. -/
  | badDefines (defines : List (Text × Cause))
  /-- The run failed. -/
  | fault (f : Fault)
  deriving DecidableEq, Repr

/-- The wording of a failed harvest. -/
def HarvestFailure.message : HarvestFailure → Text
  | .badDefines defines =>
    Text.join [Byte.newline]
      (defines.map fun d => ascii "-D " ++ d.1 ++ ascii ": " ++ d.2.message none)
  | .fault f => f.message

/-- What came of a harvest. -/
structure Harvest where
  /-- The macros at the end, or what went wrong. -/
  macros : Except HarvestFailure (List Macro)
  /-- The notes of the run. -/
  log : List Text

/-- The macros given beforehand, or all that are misspelled. -/
def predefined (defines : List Text) : Except (List (Text × Cause)) (List Macro) :=
  let read := defines.map fun d => (d, Macro.ofOption d)
  let bad := read.filterMap fun r => match r.2 with
    | .error cause => some (r.1, cause)
    | .ok _ => none
  if bad = [] then
    .ok (read.filterMap fun r => match r.2 with
      | .error _ => none
      | .ok m => some m)
  else .error bad

/-- The harvest that a run came to. -/
def Harvest.ofOutcome (out : Outcome) : Harvest where
  macros := match out.fault with
    | some f => .error (.fault f)
    | none => .ok out.state.macros.macros
  log := out.state.log

variable {m : Type → Type} [Monad m]

/-- Harvests a document with a given resolver, following includes up to the given nesting depth. -/
def harvestWith (resolver : Resolver m) (depth : Nat) (defines : List Text) (text : Text) :
    m Harvest := do
  match predefined defines with
  | .error bad => return ⟨.error (.badDefines bad), []⟩
  | .ok macros =>
    let out ← run (some resolver) depth macros text
    return Harvest.ofOutcome out

/-- Harvests a document, searching directories for the files that it includes. -/
def harvestText (disk : Disk m) (depth : Nat) (options : HarvestOptions) (text : Text) :
    m Harvest :=
  harvestWith (Search.resolver disk options.includeDirs) depth options.defines text

/-- Harvests headers in order. -/
def harvest (disk : Disk m) (depth : Nat) (options : HarvestOptions) (headers : List Text) :
    m Harvest :=
  harvestText disk depth options (Report.rootDocument headers)

end HeaderMacros
