import HeaderMacros.Text.Basic

/-!
# Tokens

A token is a piece of a line together with its kind. White space is kept as tokens of its own,
because whether a macro has a parameter list depends on where white space stands.

`Token.classify` gives the kind that belongs to a text; the lexer produces no other tokens.
-/

namespace HeaderMacros

/-- The kinds of token. -/
inductive TokenKind where
  /-- A run of white space. -/
  | space
  /-- A run of letters, digits and underscores. -/
  | word
  /-- One of the fixed operators. -/
  | operator
  /-- Anything else. -/
  | unknown
  deriving DecidableEq, Repr

/-- A lexical unit of a line. -/
structure Token where
  /-- What sort of unit it is. -/
  kind : TokenKind
  /-- The bytes of the unit. -/
  text : Text
  deriving DecidableEq, Repr

namespace Token

/-- The operators of more than one character, in the order in which they are tried. -/
def multiCharOperators : List Text :=
  ["...", ">>=", "<<=", "?:", "##", "@#", ">>", ">=", "==", "-=", "<=", "<<", "+=", "++", "|=",
    "||", "^=", "[]", "::", "/=", "*=", "&=", "&&", "%=", "!=", "--"].map ascii

/-- The bytes that are operators on their own. -/
def singleCharOperators : List UInt8 := ascii "#>=<+~|^/,*&%!-()"

/-- Whether a text is one of the operators. -/
def isOperatorText (text : Text) : Bool :=
  match text with
  | [b] => singleCharOperators.contains b
  | _ => multiCharOperators.contains text

/-- The token of a text, its kind told from the shape of the text alone. -/
def classify (text : Text) : Token :=
  if text = [] then ⟨.unknown, []⟩
  else if text.all Byte.isSpace then ⟨.space, text⟩
  else if text.all Byte.isWordByte then ⟨.word, text⟩
  else if isOperatorText text then ⟨.operator, text⟩
  else ⟨.unknown, text⟩

/-- Classifying keeps the text. -/
@[simp]
theorem text_classify (text : Text) : (classify text).text = text := by
  unfold classify
  split
  · simp_all
  · repeat' split
    all_goals rfl

/-- A token of white space. -/
def isSpace (t : Token) : Bool := t.kind == .space

/-- A token of letters, digits and underscores. -/
def isWord (t : Token) : Bool := t.kind == .word

/-- A word that can name a macro in a condition: one that does not start with a digit. -/
def isIdent (t : Token) : Bool :=
  t.kind == .word && (match t.text with | [] => false | b :: _ => !Byte.isDigit b)

/-- Whether the text of a token is the given one. -/
def is (t : Token) (text : Text) : Bool := t.text == text

/-- The word token with the given ASCII text. -/
def word (s : String) : Token := ⟨.word, ascii s⟩

/-- The operator token with the given ASCII text. -/
def operator (s : String) : Token := ⟨.operator, ascii s⟩

/-- One space. -/
def blank : Token := ⟨.space, [Byte.space]⟩

/-- The white space token that ends a line of code. -/
def lineEnd : Token := ⟨.space, [Byte.newline]⟩

/-- The word token `1` for true and `0` for false. -/
def ofBool (v : Bool) : Token := if v then word "1" else word "0"

end Token

namespace Tokens

/-- The concatenated texts of some tokens. -/
def text (ts : List Token) : Text := ts.flatMap Token.text

/-- Tokens without those of white space. -/
def withoutSpace (ts : List Token) : List Token := ts.filter fun t => !t.isSpace

/-- Tokens without leading white space. -/
def trimLeft (ts : List Token) : List Token := ts.dropWhile Token.isSpace

/-- Tokens without trailing white space. -/
def trimRight (ts : List Token) : List Token := (ts.reverse.dropWhile Token.isSpace).reverse

/-- Tokens without leading and trailing white space. -/
def trim (ts : List Token) : List Token := trimRight (trimLeft ts)

/-- The position of the first token with the given text, at or after a position. -/
def indexFrom? (text : Text) (start : Nat) (ts : List Token) : Option Nat :=
  ((ts.drop start).findIdx? fun t => t.is text).map (· + start)

/-- The position of the last token with the given text. -/
def lastIndex? (text : Text) (ts : List Token) : Option Nat :=
  (ts.reverse.findIdx? fun t => t.is text).map fun i => ts.length - 1 - i

/-- Splits tokens around the first one with the given text. -/
def splitFirst? (text : Text) (ts : List Token) : Option (List Token × List Token) :=
  match ts.span fun t => !t.is text with
  | (_, []) => none
  | (before, _ :: after) => some (before, after)

/-- Splits tokens around the last one with the given text, where `passed` are the tokens before, in
reverse, and `found` is the split around the last such token among them. -/
def splitLastFrom (text : Text) (passed : List Token) (found : Option (List Token × List Token)) :
    List Token → Option (List Token × List Token)
  | [] => found
  | t :: rest =>
    splitLastFrom text (t :: passed) (if t.is text then some (passed, rest) else found) rest

/-- Splits tokens around the last one with the given text. The tokens before it are in reverse. -/
def splitLast? (text : Text) (ts : List Token) : Option (List Token × List Token) :=
  if ts.any fun t => t.is text then splitLastFrom text [] none ts else none

/-- The groups of tokens between commas. There is one group more than there are commas. -/
def splitOnCommas : List Token → List (List Token)
  | [] => [[]]
  | t :: rest =>
    if t.is [Byte.comma] then [] :: splitOnCommas rest
    else (splitOnCommas rest).modifyHead (t :: ·)

end Tokens

end HeaderMacros
