import HeaderMacros.Settings.Decode
import HeaderMacros.Shell.Flags

/-!
# The formats of settings

Settings are spelled in formats that are not this program's own: a compiler command line in the
words of a shell, a word that says yes or no, and a notation for the files of settings. `Formats` has
a reader for each of them, and what takes settings from a text takes it from such readers. So what is
known of settings is known for any readers, whatever the formats allow; `Formats.standard` are the
readers in use.
-/

namespace HeaderMacros.Settings

/-- Readers of the formats that settings come in. -/
structure Formats where
  /-- The words of a compiler command line. -/
  words : Text → Except Shell.WordFailure (List Text)
  /-- The options that matter among some words, with their values and in their order. -/
  options : List Text → Except Shell.FlagFailure (List (Shell.FlagOption × Text))
  /-- Whether a word means "yes". -/
  isYes : Text → Bool
  /-- No word at all does not mean "yes". -/
  isYes_nil : isYes [] = false
  /-- The settings in the text of a file. -/
  settings : Text → Except TextFailure Settings

/-- The words that mean "yes". -/
def yesWords : List Text :=
  ["1", "t", "T", "true", "True", "TRUE", "y", "Y", "yes", "Yes", "YES",
    "absolutely", "Absolutely", "ABSOLUTELY", "affirmative", "Affirmative", "AFFIRMATIVE",
    "enable", "Enable", "ENABLE", "enabled", "Enabled", "ENABLED",
    "positive", "Positive", "POSITIVE"].map ascii

/-- The readers in use. -/
def Formats.standard : Formats where
  words := Shell.words
  options := Shell.options
  isYes := yesWords.contains
  isYes_nil := by decide
  settings := ofText

end HeaderMacros.Settings

namespace HeaderMacros.Shell

/-- The flags in a compiler command line. -/
def flags (text : Text) (formats : Settings.Formats := .standard) : Except FlagFailure Flags :=
  match formats.words text with
  | .error failure => .error (.words failure)
  | .ok ws => (formats.options ws).map Flags.ofOptions

end HeaderMacros.Shell
