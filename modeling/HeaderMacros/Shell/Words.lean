import HeaderMacros.Text.Basic

/-!
# Shell words

A flag string is cut into words the way a shell does it: at spaces, tabs and newlines outside
quotes. Between single quotes everything stands for itself. Between double quotes a backslash
protects the dollar sign, the backquote, the double quote, the backslash and the newline, and
stands for itself before anything else. Outside quotes a backslash protects any byte. A protected
newline vanishes.
-/

namespace HeaderMacros.Shell

/-- Why a flag string is no sequence of words. -/
inductive WordFailure where
  /-- A single quote is never closed. -/
  | openSingleQuote
  /-- A double quote is never closed. -/
  | openDoubleQuote
  /-- A backslash ends the string. -/
  | openEscape
  deriving DecidableEq, Repr

/-- The wording of a failure to cut words. -/
def WordFailure.message : WordFailure → Text
  | .openSingleQuote => ascii "Unterminated single-quoted string"
  | .openDoubleQuote => ascii "Unterminated double-quoted string"
  | .openEscape => ascii "Unterminated backslash-escape"

/-- Where a place of a flag string is. A word being read comes with its bytes so far, in
reverse. -/
inductive Mode where
  /-- Between words. -/
  | between
  /-- In a word, outside quotes. -/
  | bare (word : Text)
  /-- In a word, between single quotes. -/
  | single (word : Text)
  /-- In a word, between double quotes. -/
  | double (word : Text)
  deriving DecidableEq, Repr

/-- A byte that separates words. -/
def isSeparator (b : UInt8) : Bool := b == Byte.space || b == Byte.newline || b == Byte.tab

/-- A byte that a backslash protects between double quotes. -/
def isProtectable (b : UInt8) : Bool :=
  b == 0x24 || b == 0x60 || b == Byte.doubleQuote || b == Byte.newline || b == Byte.backslash

/-- The mode after a protected byte in a word; a newline vanishes. -/
def keepProtected (b : UInt8) (word : Text) : Text := if b = Byte.newline then word else b :: word

/-- The words of the rest of a flag string. -/
def wordsFrom : Mode → Text → Except WordFailure (List Text)
  | .between, [] => .ok []
  | .bare word, [] => .ok [word.reverse]
  | .single _, [] => .error .openSingleQuote
  | .double _, [] => .error .openDoubleQuote
  | .between, b :: rest =>
    if isSeparator b then wordsFrom .between rest
    else if b = Byte.singleQuote then wordsFrom (.single []) rest
    else if b = Byte.doubleQuote then wordsFrom (.double []) rest
    else if b = Byte.backslash then
      match rest with
      | [] => .error .openEscape
      | c :: more =>
        if c = Byte.newline then wordsFrom .between more else wordsFrom (.bare [c]) more
    else wordsFrom (.bare [b]) rest
  | .bare word, b :: rest =>
    if isSeparator b then (wordsFrom .between rest).map (word.reverse :: ·)
    else if b = Byte.singleQuote then wordsFrom (.single word) rest
    else if b = Byte.doubleQuote then wordsFrom (.double word) rest
    else if b = Byte.backslash then
      match rest with
      | [] => .error .openEscape
      | c :: more => wordsFrom (.bare (keepProtected c word)) more
    else wordsFrom (.bare (b :: word)) rest
  | .single word, b :: rest =>
    if b = Byte.singleQuote then wordsFrom (.bare word) rest
    else wordsFrom (.single (b :: word)) rest
  | .double word, b :: rest =>
    if b = Byte.doubleQuote then wordsFrom (.bare word) rest
    else if b = Byte.backslash then
      match rest with
      | [] => .error .openDoubleQuote
      | c :: more =>
        if isProtectable c then wordsFrom (.double (keepProtected c word)) more
        else wordsFrom (.double (c :: b :: word)) more
    else wordsFrom (.double (b :: word)) rest

/-- The words of a flag string. -/
def words (text : Text) : Except WordFailure (List Text) := wordsFrom .between text

end HeaderMacros.Shell
