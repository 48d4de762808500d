import HeaderMacros.Shell.Words

/-!
# Compiler flags

Of a compiler command line only two options matter here: `-I`, which names a search directory, and
`-D`, which defines a macro. Each takes its value from the same word or, if nothing follows the
letter, from the next word, whatever that is. Everything else is passed over.
-/

namespace HeaderMacros.Shell

/-- The options that matter. -/
inductive FlagOption where
  /-- Names a search directory. -/
  | directory
  /-- Defines a macro. -/
  | definition
  deriving DecidableEq, Repr

/-- The letter of an option. -/
def FlagOption.letter : FlagOption → UInt8
  | .directory => 0x49
  | .definition => 0x44

/-- Why compiler flags cannot be read. -/
inductive FlagFailure where
  /-- The flags are no sequence of words. -/
  | words (failure : WordFailure)
  /-- An option has no value. -/
  | missingValue (option : FlagOption)
  deriving DecidableEq, Repr

/-- The wording of a failure to read flags. -/
def FlagFailure.message : FlagFailure → Text
  | .words failure => failure.message
  | .missingValue option => ascii "missing argument of -" ++ [option.letter]

/-- What compiler flags say. -/
structure Flags where
  /-- The search directories. -/
  dirs : List Text
  /-- The definitions. -/
  defines : List Text
  deriving DecidableEq, Repr

/-- No flags. -/
def Flags.empty : Flags := ⟨[], []⟩

/-- Flags with one more value. -/
def Flags.add (flags : Flags) : FlagOption × Text → Flags
  | (.directory, value) => { flags with dirs := flags.dirs ++ [value] }
  | (.definition, value) => { flags with defines := flags.defines ++ [value] }

/-- What some options say, one after the other. -/
def Flags.ofOptions (options : List (FlagOption × Text)) : Flags := options.foldl add empty

/-- The option that a word is and what follows its letter. -/
def flag? (word : Text) : Option (FlagOption × Text) :=
  match word with
  | sign :: letter :: value =>
    if sign = Byte.hyphen then
      if letter = FlagOption.directory.letter then some (.directory, value)
      else if letter = FlagOption.definition.letter then some (.definition, value)
      else none
    else none
  | _ => none

/-- A value in the word of its option; an equals sign may stand before it. -/
def joinedValue (value : Text) : Text :=
  match value with
  | b :: rest => if b = Byte.equals then rest else value
  | [] => []

/-- The options among some words, with their values. -/
def options : List Text → Except FlagFailure (List (FlagOption × Text))
  | [] => .ok []
  | word :: rest =>
    match flag? word with
    | none => options rest
    | some (option, []) =>
      match rest with
      | [] => .error (.missingValue option)
      | value :: more => (options more).map ((option, value) :: ·)
    | some (option, value) => (options rest).map ((option, joinedValue value) :: ·)

end HeaderMacros.Shell
