import HeaderMacros.Text.Printable
import HeaderMacros.Text.Utf8

/-!
# Quoted texts

Diagnostics show texts between double quotes. Printable characters stand for themselves, the quote
and the backslash get a backslash before them, the control characters with a letter of their own
are written with it, and everything else is written as a number: `\x` and two digits for a byte,
`\u` and four or `\U` and eight for a character.
-/

namespace HeaderMacros.Text

/-- The lowest `count` hexadecimal digits of a number, the highest first. -/
def hexDigits : Nat → Nat → Text
  | 0, _ => []
  | count + 1, n => hexDigits count (n / 16) ++ [Byte.hexDigit (n % 16)]

/-- The letters that name a control character after a backslash. -/
def controlLetters : List (Nat × UInt8) :=
  [(0x07, 0x61), (0x08, 0x62), (0x0C, 0x66), (0x0A, 0x6E), (0x0D, 0x72), (0x09, 0x74), (0x0B, 0x76)]

/-- How a character is written between double quotes. -/
def quoteCode (code : Nat) : Text :=
  if code = 0x22 ∨ code = 0x5C then [Byte.backslash, UInt8.ofNat code]
  else if isPrintable code then Utf8.encode code
  else
    match controlLetters.lookup code with
    | some letter => [Byte.backslash, letter]
    | none =>
      if code < 0x20 ∨ code = 0x7F then ascii "\\x" ++ hexDigits 2 code
      else if code < 0x10000 then ascii "\\u" ++ hexDigits 4 code
      else ascii "\\U" ++ hexDigits 8 code

/-- How a piece of a text is written between double quotes. -/
def quotePiece : Utf8.Piece → Text
  | .scalar code => quoteCode code
  | .stray byte => ascii "\\x" ++ hexDigits 2 byte.toNat

/-- A text between double quotes. -/
def quote (text : Text) : Text :=
  Byte.doubleQuote :: (Utf8.decode text).flatMap quotePiece ++ [Byte.doubleQuote]

end HeaderMacros.Text
