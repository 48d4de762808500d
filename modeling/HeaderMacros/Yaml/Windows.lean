import HeaderMacros.Yaml.Character
import HeaderMacros.Yaml.Failure

/-!
# Loading a text

The characters of a text are given in UTF-8 or, after a byte order mark, in UTF-16. They are loaded
in windows of 512 bytes, each when it is needed. A character that a window cuts in two belongs to
the next window. A window with a byte that belongs to no character, or with a control character,
cannot be loaded, and neither can anything behind it; a text that is settled before such a window is
none the worse for it.
-/

namespace HeaderMacros.Yaml

/-- How characters are written as bytes. -/
inductive Encoding where
  /-- In one to four bytes. -/
  | utf8
  /-- In units of two bytes, with the higher one first or last. -/
  | utf16 (highFirst : Bool)
  deriving DecidableEq, Repr

/-- What some bytes start with. -/
inductive Decoded where
  /-- A character, with so many bytes after its first one. -/
  | character (code : Character) (further : Nat)
  /-- A part of a character that is not all there. -/
  | incomplete
  /-- No character. -/
  | invalid
  deriving DecidableEq, Repr

/-- The number of bytes that follow the first byte of a character in UTF-8. -/
def furtherBytes? (first : UInt8) : Option Nat :=
  if first < 0x80 then some 0
  else if first < 0xC0 then none
  else if first < 0xE0 then some 1
  else if first < 0xF0 then some 2
  else if first < 0xF8 then some 3
  else none

/-- The character in UTF-8 at the start of some bytes. -/
def decodeUtf8 (first : UInt8) (more : Text) : Decoded :=
  match furtherBytes? first with
  | none => .invalid
  | some further =>
    -- Only a character that is all there is looked at further.
    if (more.take further).length < further then .incomplete
    else
      match Utf8.sequence? (first :: more) with
      | some (code, _) => .character code further
      | none => .invalid

/-- A unit of UTF-16. -/
def utf16Unit (highFirst : Bool) (a b : UInt8) : Nat :=
  if highFirst then a.toNat * 0x100 + b.toNat else b.toNat * 0x100 + a.toNat

/-- The character in UTF-16 at the start of some bytes. -/
def decodeUtf16 (highFirst : Bool) (first : UInt8) (more : Text) : Decoded :=
  match more with
  | [] => .incomplete
  | second :: rest =>
    let unit := utf16Unit highFirst first second
    if unit < 0xD800 ∨ 0xE000 ≤ unit then .character unit 1
    else if 0xDC00 ≤ unit then .invalid
    else
      match rest with
      | a :: b :: _ =>
        let low := utf16Unit highFirst a b
        if 0xDC00 ≤ low ∧ low < 0xE000 then
          .character (0x10000 + (unit - 0xD800) * 0x400 + (low - 0xDC00)) 3
        else .invalid
      | _ => .incomplete

/-- The character at the start of some bytes. -/
def Encoding.decode (e : Encoding) (first : UInt8) (more : Text) : Decoded :=
  match e with
  | .utf8 => decodeUtf8 first more
  | .utf16 highFirst => decodeUtf16 highFirst first more

/-- The characters that are all there in a window, and the number of their bytes. -/
def Encoding.window (e : Encoding) : Text → Except Problem (List Character × Nat)
  | [] => .ok ([], 0)
  | first :: more =>
    match e.decode first more with
    | .incomplete => .ok ([], 0)
    | .invalid => .error .encoding
    | .character c further =>
      if isAllowed c then
        match e.window (more.drop further) with
        | .error problem => .error problem
        | .ok (cs, used) => .ok (c :: cs, used + further + 1)
      else .error .controlCharacter
termination_by bytes => bytes.length
decreasing_by simp only [List.length_drop, List.length_cons]; omega

/-- A text cut into windows. -/
structure Windows where
  /-- The characters of all windows before the first one that cannot be loaded. -/
  characters : List Character
  /-- The number of characters in each of these windows. -/
  sizes : List Nat
  /-- Why the window after these cannot be loaded, if there is one. -/
  failure : Option Problem
  deriving Repr

namespace Windows

/-- The number of bytes in a window. -/
def size : Nat := 512

/-- Cuts bytes into windows, where the first one has the given size. -/
def cut (e : Encoding) (firstSize : Nat) (bytes : Text) : Windows :=
  if bytes = [] then ⟨[], [], none⟩
  else
    match e.window (bytes.take firstSize) with
    | .error problem => ⟨[], [], some problem⟩
    | .ok (cs, used) =>
      -- The text ends inside a character.
      if used = 0 then ⟨[], [], some .incompleteCharacter⟩
      else
        let rest := cut e size (bytes.drop used)
        ⟨cs ++ rest.characters, cs.length :: rest.sizes, rest.failure⟩
termination_by bytes.length
decreasing_by
  have := List.length_pos_iff.mpr (by assumption : ¬ bytes = [])
  simp only [List.length_drop]
  omega

/-- Cuts a text into windows, in the encoding that a byte order mark tells. The mark is part of the
first window, but no character of the text. -/
def ofText (text : Text) : Windows :=
  match text with
  | 0xFF :: 0xFE :: rest => cut (.utf16 false) (size - 2) rest
  | 0xFE :: 0xFF :: rest => cut (.utf16 true) (size - 2) rest
  | 0xEF :: 0xBB :: 0xBF :: rest => cut .utf8 (size - 3) rest
  | _ => cut .utf8 size text

end Windows

end HeaderMacros.Yaml
