import HeaderMacros.Text.Utf8

/-!
# Characters of the settings notation

A document is a sequence of characters, and control characters do not occur in it. The character
classes below are those of the notation.
-/

namespace HeaderMacros.Yaml

/-- A character, as its code point. -/
abbrev Character := Nat

/-- A space or a tab. -/
def isBlank (c : Character) : Bool := c == 0x20 || c == 0x09

/-- A character that ends a line. -/
def isBreak (c : Character) : Bool :=
  c == 0x0D || c == 0x0A || c == 0x85 || c == 0x2028 || c == 0x2029

/-- White space of either sort. -/
def isSpaceLike (c : Character) : Bool := isBlank c || isBreak c

/-- White space or the end of the text. -/
def isGap (c : Option Character) : Bool := c.all isSpaceLike

/-- A character that ends a line, or the end of the text. -/
def isLineStop (c : Option Character) : Bool := c.all isBreak

/-- A decimal digit. -/
def isDigit (c : Character) : Bool := 0x30 ≤ c && c ≤ 0x39

/-- A letter, a digit, an underscore or a hyphen. -/
def isNameCharacter (c : Character) : Bool :=
  isDigit c || (0x41 ≤ c && c ≤ 0x5A) || (0x61 ≤ c && c ≤ 0x7A) || c == 0x5F || c == 0x2D

/-- The value of a hexadecimal digit. -/
def hexValue? (c : Character) : Option Nat :=
  if c < 0x80 then Byte.hexValue? (UInt8.ofNat c) else none

/-- The number that hexadecimal digits give. -/
def hexNumber? (cs : List Character) : Option Nat :=
  (cs.mapM hexValue?).map fun ds => ds.foldl (fun n d => n * 16 + d) 0

/-- Whether a character may occur in a document. -/
def isAllowed (c : Character) : Bool :=
  c == 0x09 || c == 0x0A || c == 0x0D || (0x20 ≤ c && c ≤ 0x7E) || c == 0x85 ||
    (0xA0 ≤ c && c ≤ 0xD7FF) || (0xE000 ≤ c && c ≤ 0xFFFD) || (0x10000 ≤ c && c ≤ 0x10FFFF)

/-- The UTF-8 bytes of some characters. -/
def toText (cs : List Character) : Text := cs.flatMap Utf8.encode

/-- The characters of the given ASCII text. -/
def chars (s : String) : List Character := s.toList.map Char.toNat

end HeaderMacros.Yaml
