import HeaderMacros.CommandLine.Usage
import HeaderMacros.Text.Quoted

/-!
# Arguments

The arguments of the command line are flags and then headers. A flag starts with one hyphen or two;
its value follows an equals sign or is the next argument. The first argument that is no flag ends
the flags, and so does a pair of hyphens alone, which is dropped.
-/

namespace HeaderMacros.CommandLine

/-- What the arguments say. -/
structure Arguments where
  /-- More directories to search. -/
  dirs : List Text
  /-- More macros given beforehand. -/
  defines : List Text
  /-- The settings file, empty for none. -/
  settingsFile : Text
  /-- The file with more directories, empty for none. -/
  includePathsFile : Text
  /-- The file to write to, empty for none. -/
  output : Text
  /-- What the names of the reported macros start with, empty for anything. -/
  nameStart : Text
  /-- Whether to report. -/
  verbose : Bool
  /-- The headers to read. -/
  headers : List Text
  deriving DecidableEq, Repr

/-- The arguments where there are none. -/
def Arguments.empty : Arguments where
  dirs := []
  defines := []
  settingsFile := []
  includePathsFile := []
  output := []
  nameStart := []
  verbose := false
  headers := []

/-- Why arguments are not understood. -/
inductive ArgumentFailure where
  /-- Help is asked for. -/
  | help
  /-- A flag has no proper name. -/
  | badFlag (argument : Text)
  /-- There is no such flag. -/
  | unknownFlag (name : Text)
  /-- A flag has no value. -/
  | missingValue (name : Text)
  /-- A truth value is neither. -/
  | badSwitch (name value : Text)
  deriving DecidableEq, Repr

/-- The wording of why arguments are not understood, empty if help is asked for. -/
def ArgumentFailure.message : ArgumentFailure → Text
  | .help => []
  | .badFlag argument => ascii "bad flag syntax: " ++ argument ++ ascii "\n"
  | .unknownFlag name => ascii "flag provided but not defined: -" ++ name ++ ascii "\n"
  | .missingValue name => ascii "flag needs an argument: -" ++ name ++ ascii "\n"
  | .badSwitch name value =>
    ascii "invalid boolean value " ++ Text.quote value ++ ascii " for -" ++ name ++
      ascii ": parse error\n"

/-- What an argument can be. -/
inductive ArgumentSort where
  /-- No flag. -/
  | plain
  /-- The end of the flags. -/
  | endOfFlags
  /-- A flag without a proper name. -/
  | malformed
  /-- A flag, with its value if that follows an equals sign. -/
  | flag (name : Text) (value : Option Text)
  deriving DecidableEq, Repr

/-- The flag that the text behind the hyphens is. The name has at least one byte. -/
def flagSort (body : Text) : ArgumentSort :=
  match body with
  | [] => .malformed
  | b :: rest =>
    if b = Byte.hyphen ∨ b = Byte.equals then .malformed
    else
      match Text.cut? [Byte.equals] rest with
      | some (more, value) => .flag (b :: more) (some value)
      | none => .flag body none

/-- What an argument is. -/
def argumentSort (argument : Text) : ArgumentSort :=
  match argument with
  | a :: b :: rest =>
    if a ≠ Byte.hyphen then .plain
    else if b ≠ Byte.hyphen then flagSort (b :: rest)
    else if rest = [] then .endOfFlags
    else flagSort rest
  | _ => .plain

/-- The spellings of "true" in a flag. -/
def onSpellings : List Text := ["1", "t", "T", "true", "TRUE", "True"].map ascii

/-- The spellings of "false" in a flag. -/
def offSpellings : List Text := ["0", "f", "F", "false", "FALSE", "False"].map ascii

/-- The truth value of a spelling. -/
def switch? (value : Text) : Option Bool :=
  if onSpellings.contains value then some true
  else if offSpellings.contains value then some false
  else none

/-- The names that ask for help. -/
def helpNames : List Text := ["help", "h"].map ascii

namespace Arguments

/-- Arguments with the value of a flag. Lists grow, other values are replaced. -/
def set (a : Arguments) (f : Flag) (value : Text) : Arguments :=
  match f with
  | .define => { a with defines := a.defines ++ [value] }
  | .directory => { a with dirs := a.dirs ++ [value] }
  | .settingsFile => { a with settingsFile := value }
  | .includePathsFile => { a with includePathsFile := value }
  | .output => { a with output := value }
  | .nameStart => { a with nameStart := value }
  | .verbose => a

/-- Reads the rest of the arguments. -/
def parseFrom (a : Arguments) : List Text → Except ArgumentFailure Arguments
  | [] => .ok a
  | argument :: rest =>
    match argumentSort argument with
    | .plain => .ok { a with headers := argument :: rest }
    | .endOfFlags => .ok { a with headers := rest }
    | .malformed => .error (.badFlag argument)
    | .flag name value =>
      match Flag.ofName? name, value with
      | none, _ =>
        if helpNames.contains name then .error .help else .error (.unknownFlag name)
      | some .verbose, none => parseFrom { a with verbose := true } rest
      | some .verbose, some v =>
        match switch? v with
        | some b => parseFrom { a with verbose := b } rest
        | none => .error (.badSwitch name v)
      | some f, some v => parseFrom (a.set f v) rest
      | some f, none =>
        match rest with
        | [] => .error (.missingValue name)
        | v :: more => parseFrom (a.set f v) more

/-- Reads arguments. -/
def parse (arguments : List Text) : Except ArgumentFailure Arguments := parseFrom empty arguments

end Arguments

end HeaderMacros.CommandLine
