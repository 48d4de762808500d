import HeaderMacros.Text.Utf8

/-!
# Blank characters

The characters with the Unicode property White_Space, and the removal of them from both ends of a
text. A zero-width space and a byte order mark do not have the property.
-/

namespace HeaderMacros.Text

/-- The characters with the property White_Space, as ranges of code points. -/
def blankRanges : List (Nat × Nat) :=
  [(0x09, 0x0D), (0x20, 0x20), (0x85, 0x85), (0xA0, 0xA0), (0x1680, 0x1680), (0x2000, 0x200A),
    (0x2028, 0x2029), (0x202F, 0x202F), (0x205F, 0x205F), (0x3000, 0x3000)]

/-- Whether a code point has the property White_Space. -/
def isBlankCode (code : Nat) : Bool := blankRanges.any fun r => r.1 ≤ code && code ≤ r.2

/-- Whether a piece of a text is a blank character; an unreadable byte is none. -/
def isBlankPiece : Utf8.Piece → Bool
  | .scalar code => isBlankCode code
  | .stray _ => false

/-- A text without the blank characters at its ends. -/
def trim (text : Text) : Text :=
  Utf8.bytes
    (((Utf8.decode text).dropWhile isBlankPiece).reverse.dropWhile isBlankPiece).reverse

/-- Whether a text has no other than blank characters. -/
def isBlank (text : Text) : Bool := (Utf8.decode text).all isBlankPiece

end HeaderMacros.Text
