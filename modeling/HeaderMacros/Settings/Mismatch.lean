import HeaderMacros.Text.Quoted
import HeaderMacros.Yaml.Keys

/-!
# Mismatches

What can be wrong with a settings file that is a proper document: a key that is repeated or unknown,
or a value of the wrong sort. All mismatches of a file are reported together.
-/

namespace HeaderMacros.Settings

/-- What a node is read as. -/
inductive Target where
  /-- A text. -/
  | text
  /-- A list of texts. -/
  | texts
  /-- A truth value. -/
  | flag
  /-- All settings. -/
  | settings
  deriving DecidableEq, Repr

/-- The wording of a target. -/
def Target.message : Target → Text
  | .text => ascii "string"
  | .texts => ascii "[]string"
  | .flag => ascii "bool"
  | .settings => ascii "config.Config"

/-- What is wrong with the content of a settings file. -/
inductive Mismatch where
  /-- A key is repeated in its mapping. -/
  | repeatedKey (key : Yaml.RepeatedKey)
  /-- A setting is set twice under different spellings of its key. -/
  | repeatedField (line : Nat) (key : Text)
  /-- There is no such setting. -/
  | unknownField (line : Nat) (key : Text)
  /-- A value is of the wrong sort. -/
  | wrongSort (line : Nat) (tag value : Text) (target : Target)
  deriving DecidableEq, Repr

/-- The longest value that is shown whole. -/
def maxShownLength : Nat := 10

/-- The number of bytes that are shown of a longer value. -/
def shownLength : Nat := 7

/-- How a value is shown behind its tag. Collections have no text to show. -/
def shownValue (tag value : Text) : Text :=
  if tag = Yaml.Tag.seq ∨ tag = Yaml.Tag.map then value
  else if maxShownLength < value.length then
    ascii " `" ++ value.take shownLength ++ ascii "...`"
  else ascii " `" ++ value ++ ascii "`"

/-- The wording of what is wrong on a line. -/
def onLine (line : Nat) (problem : Text) : Text :=
  ascii "line " ++ Text.ofNat line ++ ascii ": " ++ problem

/-- The wording of a mismatch. -/
def Mismatch.message : Mismatch → Text
  | .repeatedKey k =>
    onLine k.line
      (ascii "mapping key " ++ Text.quote k.key ++ ascii " already defined at line " ++
        Text.ofNat k.first)
  | .repeatedField line key =>
    onLine line
      (ascii "field " ++ key ++ ascii " already set in type " ++ Target.settings.message)
  | .unknownField line key =>
    onLine line (ascii "field " ++ key ++ ascii " not found in type " ++ Target.settings.message)
  | .wrongSort line tag value target =>
    onLine line
      (ascii "cannot unmarshal " ++ tag ++ shownValue tag value ++ ascii " into " ++ target.message)

end HeaderMacros.Settings
