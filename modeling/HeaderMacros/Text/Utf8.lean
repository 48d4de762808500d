import HeaderMacros.Text.Basic

/-!
# Reading bytes as UTF-8

Some operations look at characters and not at bytes: trimming, letter case, quoting. They read a
text as a sequence of *pieces*: a piece is a character in well-formed UTF-8, or a single byte that
belongs to no character. No byte is lost: the bytes of the pieces are the text again.
-/

namespace HeaderMacros.Utf8

/-- A character or a byte that belongs to none. -/
inductive Piece where
  /-- The character with the given code point. -/
  | scalar (code : Nat)
  /-- A byte outside every well-formed sequence. -/
  | stray (byte : UInt8)
  deriving DecidableEq, Repr

/-- The UTF-8 bytes of a code point. -/
def encode (code : Nat) : Text :=
  if code < 0x80 then [UInt8.ofNat code]
  else if code < 0x800 then
    [UInt8.ofNat (0xC0 + code / 0x40), UInt8.ofNat (0x80 + code % 0x40)]
  else if code < 0x10000 then
    [UInt8.ofNat (0xE0 + code / 0x1000), UInt8.ofNat (0x80 + code / 0x40 % 0x40),
      UInt8.ofNat (0x80 + code % 0x40)]
  else
    [UInt8.ofNat (0xF0 + code / 0x40000), UInt8.ofNat (0x80 + code / 0x1000 % 0x40),
      UInt8.ofNat (0x80 + code / 0x40 % 0x40), UInt8.ofNat (0x80 + code % 0x40)]

/-- The character that stands for a byte that cannot be read. -/
def replacement : Nat := 0xFFFD

/-- A byte that continues a character. -/
def isTail (b : UInt8) : Bool := 0x80 ≤ b && b ≤ 0xBF

/-- The six payload bits of a continuing byte. -/
def tailBits (b : UInt8) : Nat := b.toNat % 0x40

/-- The smallest and the largest second byte that a first byte of three or four allows. The bounds
keep out spellings that are too long, surrogates, and code points past the last one. -/
def secondBounds (first : UInt8) : UInt8 × UInt8 :=
  if first = 0xE0 then (0xA0, 0xBF)
  else if first = 0xED then (0x80, 0x9F)
  else if first = 0xF0 then (0x90, 0xBF)
  else if first = 0xF4 then (0x80, 0x8F)
  else (0x80, 0xBF)

/-- The code point and the number of bytes of the character that a text starts with. -/
def sequence? : Text → Option (Nat × Nat)
  | [] => none
  | a :: text =>
    if a < 0x80 then some (a.toNat, 1)
    else if 0xC2 ≤ a && a ≤ 0xDF then
      match text with
      | b :: _ => if isTail b then some (a.toNat % 0x20 * 0x40 + tailBits b, 2) else none
      | _ => none
    else if 0xE0 ≤ a && a ≤ 0xEF then
      match text with
      | b :: c :: _ =>
        if (secondBounds a).1 ≤ b && b ≤ (secondBounds a).2 && isTail c then
          some (a.toNat % 0x10 * 0x1000 + tailBits b * 0x40 + tailBits c, 3)
        else none
      | _ => none
    else if 0xF0 ≤ a && a ≤ 0xF4 then
      match text with
      | b :: c :: d :: _ =>
        if (secondBounds a).1 ≤ b && b ≤ (secondBounds a).2 && isTail c && isTail d then
          some (a.toNat % 0x08 * 0x40000 + tailBits b * 0x1000 + tailBits c * 0x40 + tailBits d, 4)
        else none
      | _ => none
    else none

/-- The pieces of a text, after passing over `skip` bytes of a character already read. -/
def decodeFrom : Nat → Text → List Piece
  | _, [] => []
  | skip + 1, _ :: text => decodeFrom skip text
  | 0, b :: text =>
    match sequence? (b :: text) with
    | some (code, width) => .scalar code :: decodeFrom (width - 1) text
    | none => .stray b :: decodeFrom 0 text

/-- The pieces of a text. -/
def decode (text : Text) : List Piece := decodeFrom 0 text

/-- The bytes of a piece. -/
def Piece.bytes : Piece → Text
  | .scalar code => encode code
  | .stray byte => [byte]

/-- The code point of a piece, an unreadable byte counting as the replacement character. -/
def Piece.code : Piece → Nat
  | .scalar code => code
  | .stray _ => replacement

/-- The bytes of a sequence of pieces. -/
def bytes (pieces : List Piece) : Text := pieces.flatMap Piece.bytes

end HeaderMacros.Utf8
