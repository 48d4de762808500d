import HeaderMacros.Text.Basic

/-!
# The flags of the command line

The flags that the command line understands, and the summary of them that is shown when it is not
understood. All flags but one take a value.
-/

namespace HeaderMacros.CommandLine

/-- The flags. -/
inductive Flag where
  /-- Defines a macro. -/
  | define
  /-- Adds a directory to search. -/
  | directory
  /-- Names the settings file. -/
  | settingsFile
  /-- Names the file with more directories. -/
  | includePathsFile
  /-- Names the file to write to. -/
  | output
  /-- Gives what the names of the reported macros start with. -/
  | nameStart
  /-- Asks for reports. -/
  | verbose
  deriving DecidableEq, Repr

namespace Flag

/-- All flags, in the order of the summary. -/
def all : List Flag :=
  [.define, .directory, .settingsFile, .includePathsFile, .output, .nameStart, .verbose]

/-- The name of a flag. -/
def name : Flag → Text
  | .define => ascii "D"
  | .directory => ascii "I"
  | .settingsFile => ascii "config"
  | .includePathsFile => ascii "include-paths"
  | .output => ascii "o"
  | .nameStart => ascii "prefix"
  | .verbose => ascii "v"

/-- The flag of a name. -/
def ofName? (n : Text) : Option Flag := all.find? fun f => f.name == n

/-- What the value of a flag is called, empty for the flag without one. -/
def valueName : Flag → Text
  | .define => ascii "NAME[=VALUE]"
  | .directory => ascii "dir"
  | .settingsFile => ascii "file"
  | .includePathsFile => ascii "file"
  | .output => ascii "file"
  | .nameStart => ascii "prefix"
  | .verbose => []

/-- What a flag does. -/
def purpose : Flag → Text
  | .define => ascii "predefine NAME[=VALUE] (repeatable)"
  | .directory => ascii "append dir to the include search list (repeatable)"
  | .settingsFile => ascii "read settings from YAML file"
  | .includePathsFile => ascii "read a semicolon-separated include search list from file"
  | .output => ascii "write to file instead of standard output"
  | .nameStart => ascii "only print macros whose name starts with prefix"
  | .verbose => ascii "log included files and ignored directives"

/-- The summary of a flag. The purpose stands on a line of its own, except behind a flag of one
letter without a value. -/
def summary (f : Flag) : Text :=
  let head := ascii "  -" ++ f.name
  let value := if f.valueName = [] then [] else ascii " " ++ f.valueName
  let gap := if (head ++ value).length ≤ 4 then ascii "\t" else ascii "\n    \t"
  head ++ value ++ gap ++ f.purpose ++ ascii "\n"

end Flag

/-- What the command line is for. -/
def synopsis : Text :=
  ascii "Usage: macroharvest [flags] header...\n\n" ++
    ascii "Prints the macros defined after processing the headers in order, one\n" ++
    ascii "name<TAB>parameters<TAB>value line each.\n\n" ++
    ascii "Flags:\n"

/-- The summary of the command line. -/
def usage : Text := synopsis ++ Flag.all.flatMap Flag.summary

end HeaderMacros.CommandLine
