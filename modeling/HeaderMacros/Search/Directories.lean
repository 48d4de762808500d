import HeaderMacros.Search.Find
import HeaderMacros.Text.Blank

/-!
# Search lists

A search list names directories, with semicolons between them. In a file, line ends separate
directories too. Blank entries are dropped.
-/

namespace HeaderMacros.Search

/-- The directories of a search list. -/
def directories (text : Text) : List Text :=
  ((Text.splitOn Byte.semicolon text).map Text.trim).filter (· != [])

/-- The directories of a search list in a file. -/
def fileDirectories (content : Text) : List Text :=
  directories ((Text.unifyLineEnds content).map fun b =>
    if b = Byte.newline then Byte.semicolon else b)

/-- The directories of the search list in the file under a path. -/
def readDirectories {m : Type → Type} [Monad m] (disk : Disk m) (path : Text) :
    m (Except FileFailure (List Text)) := do
  return (← disk.read path).map fileDirectories

/-- The wording of a search list file that cannot be read. -/
def directoriesFailure (failure : FileFailure) : Text := ascii "include paths: " ++ failure.message

end HeaderMacros.Search
