import HeaderMacros.FileTree.Failure

/-!
# Failures of the search for an included file

Why the text behind an include could not be had.
-/

namespace HeaderMacros

/-- Why the text behind an include could not be had. -/
inductive SearchFailure where
  /-- There is nowhere to search. -/
  | noSource
  /-- A fixed set of files does not have the name. -/
  | unknownName
  /-- There is no file under an absolute name. -/
  | absentPath (path : Text)
  /-- None of the search directories, of which there are `count`, has the name. -/
  | notFound (name : Text) (count : Nat)
  /-- The file was found and could not be read. -/
  | unreadable (failure : FileFailure)
  deriving DecidableEq, Repr

namespace SearchFailure

/-- The wording of "nothing under this name" in a search. -/
def noFile : Text := ascii "file does not exist"

/-- The wording of a failed search. -/
def message : SearchFailure → Text
  | .noSource => ascii "no include resolver configured"
  | .unknownName => noFile
  | .absentPath path => ascii "open " ++ path ++ ascii ": " ++ noFile
  | .notFound name count =>
    name ++ ascii " not found in " ++ Text.ofNat count ++ ascii " include directories: " ++ noFile
  | .unreadable failure => failure.message

/-- Whether the search failed because there is no such file. -/
def isMissing : SearchFailure → Bool
  | .noSource => false
  | .unknownName => true
  | .absentPath _ => true
  | .notFound _ _ => true
  | .unreadable failure => failure.reason == .missing

end SearchFailure

end HeaderMacros
