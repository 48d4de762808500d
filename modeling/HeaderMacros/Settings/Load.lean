import HeaderMacros.Settings.Formats

/-!
# Settings files
-/

namespace HeaderMacros.Settings

/-- Why settings could not be loaded from a file. -/
inductive LoadFailure where
  /-- The file cannot be opened. -/
  | unopened (failure : FileFailure)
  /-- The file cannot be read. -/
  | unreadable (path : Text) (failure : FileFailure)
  /-- The content of the file is no settings. -/
  | content (path : Text) (failure : TextFailure)
  deriving DecidableEq, Repr

/-- The wording of a failure to load settings. -/
def LoadFailure.message : LoadFailure → Text
  | .unopened failure => ascii "config: " ++ failure.message
  | .unreadable path failure =>
    ascii "config " ++ path ++ ascii ": yaml: input error: " ++ failure.message
  | .content path failure => ascii "config " ++ path ++ ascii ": " ++ failure.message

/-- Loads settings from a file. -/
def load {m : Type → Type} [Monad m] (disk : Disk m) (path : Text)
    (formats : Formats := .standard) : m (Except LoadFailure Settings) := do
  match ← disk.read path with
  | .error failure =>
    return .error (if failure.operation = .opening then .unopened failure
      else .unreadable path failure)
  | .ok text =>
    match formats.settings text with
    | .ok s => return .ok s
    | .error failure => return .error (.content path failure)

end HeaderMacros.Settings
