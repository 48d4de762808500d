import HeaderMacros.Settings.Formats

/-!
# Settings from the environment

Three environment variables add to settings: a list of directories to search, compiler flags of which
the search directories and the definitions count, and a word that asks for reports. The list is added
before the flags are looked at, so it stays when the flags cannot be read.
-/

namespace HeaderMacros.Settings

/-- The environment variables that count. A variable that is not set is empty. -/
structure Environment where
  /-- Directories to search, between semicolons. -/
  searchList : Text
  /-- Compiler flags. -/
  flags : Text
  /-- A word that may ask for reports. -/
  verbose : Text
  deriving DecidableEq, Repr

namespace Environment

/-- The name of the variable with directories to search. -/
def searchListName : Text := ascii "INCLUDE"

/-- The name of the variable with compiler flags. -/
def flagsName : Text := ascii "MACROHARVEST_CPPFLAGS"

/-- The name of the variable that may ask for reports. -/
def verboseName : Text := ascii "MACROHARVEST_VERBOSE"

/-- The environment in which variables have the given values. -/
def ofLookup (value : Text → Text) : Environment where
  searchList := value searchListName
  flags := value flagsName
  verbose := value verboseName

end Environment

/-- The flags of the environment, none if the variable is empty. -/
def Environment.parsedFlags (e : Environment) (formats : Formats) :
    Except Shell.FlagFailure Shell.Flags :=
  if e.flags = [] then .ok .empty else Shell.flags e.flags formats

/-- Adds the environment to settings. If its flags cannot be read, that is told, and only the search
list is added. -/
def applyEnvironment (s : Settings) (e : Environment) (formats : Formats := .standard) :
    Settings × Option Shell.FlagFailure :=
  -- The search list stays, whatever the flags are.
  let listed := s.extend (Search.directories e.searchList) []
  match e.parsedFlags formats with
  | .error failure => (listed, some failure)
  | .ok flags =>
    let flagged := listed.extend flags.dirs flags.defines
    ({ flagged with verbose := flagged.verbose || formats.isYes e.verbose }, none)

/-- The wording of flags in the environment that cannot be read. -/
def environmentFailure (failure : Shell.FlagFailure) : Text :=
  Environment.flagsName ++ ascii ": " ++ failure.message

end HeaderMacros.Settings
