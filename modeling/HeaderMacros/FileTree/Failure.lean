import HeaderMacros.Text.Basic

/-!
# Failures of file operations

What a file system answers when it cannot do what is asked, and the wording of the answer.
-/

namespace HeaderMacros

/-- Why a file operation fails. -/
inductive FileReason where
  /-- There is nothing under the name. -/
  | missing
  /-- A name goes on below something that is no directory. -/
  | notDirectory
  /-- The operation needs something other than a directory. -/
  | isDirectory
  /-- A component of the name is too long. -/
  | nameTooLong
  /-- The name cannot be a name. -/
  | invalid
  /-- There is no room for what is written. -/
  | full
  /-- The operation is not allowed. -/
  | denied
  deriving DecidableEq, Repr

/-- The wording of a reason. -/
def FileReason.message : FileReason → Text
  | .missing => ascii "no such file or directory"
  | .notDirectory => ascii "not a directory"
  | .isDirectory => ascii "is a directory"
  | .nameTooLong => ascii "file name too long"
  | .invalid => ascii "invalid argument"
  | .full => ascii "no space left on device"
  | .denied => ascii "permission denied"

/-- The operations on a file that can fail. -/
inductive FileOperation where
  /-- Opening it, for reading or for writing. -/
  | opening
  /-- Reading it. -/
  | reading
  /-- Writing it. -/
  | writing
  deriving DecidableEq, Repr

/-- The wording of an operation. -/
def FileOperation.message : FileOperation → Text
  | .opening => ascii "open"
  | .reading => ascii "read"
  | .writing => ascii "write"

/-- A failed operation on a file. -/
structure FileFailure where
  /-- What was tried. -/
  operation : FileOperation
  /-- The name of the file as it was given. -/
  path : Text
  /-- Why it failed. -/
  reason : FileReason
  deriving DecidableEq, Repr

/-- The wording of a failed operation. -/
def FileFailure.message (f : FileFailure) : Text :=
  f.operation.message ++ ascii " " ++ f.path ++ ascii ": " ++ f.reason.message

end HeaderMacros
