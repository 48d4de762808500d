import HeaderMacros.Search.Directories
import HeaderMacros.Search.Find

/-!
# Settings

Everything that can be set about a harvest. Settings come from a file, from the environment and from
the command line, in layers: each adds to the lists of the one before.
-/

namespace HeaderMacros

/-- The settings of a harvest. -/
structure Settings where
  /-- The directories to search for included files, in order. -/
  includeDirs : List Text
  /-- The file with more directories to search, empty for none. -/
  includePathsFile : Text
  /-- The headers to read, in order. -/
  headers : List Text
  /-- The macros given beforehand. -/
  defines : List Text
  /-- What the names of the reported macros start with. -/
  nameStart : Text
  /-- The file to write to, empty for the standard output. -/
  output : Text
  /-- Whether to report what is included and ignored. -/
  verbose : Bool
  deriving DecidableEq, Repr

namespace Settings

/-- The settings before anything is set. -/
def empty : Settings where
  includeDirs := []
  includePathsFile := []
  headers := []
  defines := []
  nameStart := []
  output := []
  verbose := false

/-- Settings with more directories to search and more macros given beforehand. -/
def extend (s : Settings) (dirs defines : List Text) : Settings :=
  { s with includeDirs := s.includeDirs ++ dirs, defines := s.defines ++ defines }

/-- All directories to search: those set, then those of the file. -/
def searchDirs {m : Type → Type} [Monad m] (disk : Disk m) (s : Settings) :
    m (Except FileFailure (List Text)) := do
  if s.includePathsFile = [] then return .ok s.includeDirs
  else
    let more ← Search.readDirectories disk s.includePathsFile
    return more.map (s.includeDirs ++ ·)

end Settings

end HeaderMacros
