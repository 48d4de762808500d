import HeaderMacros.Macro.Basic

/-!
# Records

The serialized form of harvested macros: one line for each macro, with its name, its parameters and
its replacement between tabs. Reading accepts lines that end in a carriage return as well, passes
over empty lines and reads an empty parameter field as no parameters at all.

A line of 65536 bytes or more is too long to be read.
-/

namespace HeaderMacros.Report

/-- The macros whose name starts with the given text. -/
def withPrefix (start : Text) (ms : List Macro) : List Macro :=
  ms.filter fun m => Text.startsWith start m.name

/-- The records of macros. -/
def write (ms : List Macro) : Text := ms.flatMap fun m => m.record ++ [Byte.newline]

/-- Why records could not be read. -/
inductive ReadFailure where
  /-- The line of the given number does not have three fields, or has no name. -/
  | badLine (number : Nat)
  /-- A line is too long. -/
  | lineTooLong
  deriving DecidableEq, Repr

/-- The wording of a failure to read records. -/
def ReadFailure.message : ReadFailure → Text
  | .badLine number =>
    ascii "line " ++ Text.ofNat number ++
      ascii ": want name, parameters and value separated by tabs"
  | .lineTooLong => ascii "bufio.Scanner: token too long"

/-- The number of bytes at which a line is too long. -/
def maxLineLength : Nat := 65536

/-- The lines of a file. Each is ended by a newline, so what follows the last newline is a line
only if there is something. -/
def fileLines (text : Text) : List Text :=
  let pieces := Text.lines text
  if pieces.getLast? = some [] then pieces.dropLast else pieces

/-- The macro of a line with three fields. -/
def ofFields (name params value : Text) : Macro where
  name := name
  params := if params = [] then none else some (Text.splitOn Byte.comma params)
  value := Tokens.trim (Token.tokenize value)

/-- The macro of a line, or nothing for an empty line. -/
def readLine (number : Nat) (line : Text) : Except ReadFailure (Option Macro) :=
  if maxLineLength ≤ line.length then .error .lineTooLong
  else
    -- One carriage return belongs to the line end, a second one is tolerated.
    let content :=
      Text.dropLastIf Byte.carriageReturn (Text.dropLastIf Byte.carriageReturn line)
    if content = [] then .ok none
    else
      match Text.splitAtMost Byte.tab 2 content with
      | [name, params, value] =>
        if name = [] then .error (.badLine number) else .ok (some (ofFields name params value))
      | _ => .error (.badLine number)

/-- The macros of lines, the first of which has the given number. -/
def readLines (number : Nat) : List Text → Except ReadFailure (List Macro)
  | [] => .ok []
  | line :: rest => do
    let m ← readLine number line
    let ms ← readLines (number + 1) rest
    return m.toList ++ ms

/-- The macros of a file of records. -/
def read (text : Text) : Except ReadFailure (List Macro) := readLines 1 (fileLines text)

end HeaderMacros.Report
