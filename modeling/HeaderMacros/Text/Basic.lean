/-!
# Texts

Every text of this library is a sequence of bytes. A header may be written in any encoding, so no
operation here decodes anything: the byte classes below speak about ASCII, and every byte from
`0x80` up belongs to none of them.

The module also holds the general operations on byte sequences that later modules share: splitting
at a separator, finding a pattern, replacing a pattern, and the decimal spelling of a number.
-/

namespace HeaderMacros

/-- A text is a sequence of bytes. -/
abbrev Text := List UInt8

namespace Byte

/-- The line separator. -/
abbrev newline : UInt8 := 0x0A

/-- The carriage return, which may stand before a line separator. -/
abbrev carriageReturn : UInt8 := 0x0D

/-- The horizontal tab. -/
abbrev tab : UInt8 := 0x09

/-- The space. -/
abbrev space : UInt8 := 0x20

/-- The double quote. -/
abbrev doubleQuote : UInt8 := 0x22

/-- The single quote. -/
abbrev singleQuote : UInt8 := 0x27

/-- The opening parenthesis. -/
abbrev openParen : UInt8 := 0x28

/-- The closing parenthesis. -/
abbrev closeParen : UInt8 := 0x29

/-- The slash. -/
abbrev slash : UInt8 := 0x2F

/-- The backslash. -/
abbrev backslash : UInt8 := 0x5C

/-- The less-than sign. -/
abbrev lessThan : UInt8 := 0x3C

/-- The greater-than sign. -/
abbrev greaterThan : UInt8 := 0x3E

/-- The equals sign. -/
abbrev equals : UInt8 := 0x3D

/-- The comma. -/
abbrev comma : UInt8 := 0x2C

/-- The semicolon. -/
abbrev semicolon : UInt8 := 0x3B

/-- The hyphen. -/
abbrev hyphen : UInt8 := 0x2D

/-- The full stop. -/
abbrev dot : UInt8 := 0x2E

/-- The number sign. -/
abbrev hash : UInt8 := 0x23

/-- The six ASCII white space bytes. -/
def isSpace (b : UInt8) : Bool :=
  b == 0x20 || b == 0x09 || b == 0x0A || b == 0x0D || b == 0x0B || b == 0x0C

/-- The white space bytes that do not end a line: space, tab, vertical tab and form feed. -/
def isHorizontalSpace (b : UInt8) : Bool :=
  b == 0x20 || b == 0x09 || b == 0x0B || b == 0x0C

/-- The decimal digits. -/
def isDigit (b : UInt8) : Bool := 0x30 ≤ b && b ≤ 0x39

/-- The bytes that may start an identifier: ASCII letters and the underscore. -/
def isIdentStart (b : UInt8) : Bool :=
  b == 0x5F || (0x41 ≤ b && b ≤ 0x5A) || (0x61 ≤ b && b ≤ 0x7A)

/-- The bytes of a word: letters, digits and the underscore. -/
def isWordByte (b : UInt8) : Bool := isIdentStart b || isDigit b

/-- The value of a hexadecimal digit of either case. -/
def hexValue? (b : UInt8) : Option Nat :=
  if 0x30 ≤ b && b ≤ 0x39 then some (b.toNat - 0x30)
  else if 0x41 ≤ b && b ≤ 0x46 then some (b.toNat - 0x41 + 10)
  else if 0x61 ≤ b && b ≤ 0x66 then some (b.toNat - 0x61 + 10)
  else none

/-- The lower-case hexadecimal digit of a value below sixteen. -/
def hexDigit (n : Nat) : UInt8 :=
  if n < 10 then UInt8.ofNat (0x30 + n) else UInt8.ofNat (0x61 + (n - 10))

end Byte

/-- The bytes of a literal whose characters are all ASCII. -/
def ascii (s : String) : Text := s.toList.map fun c => UInt8.ofNat c.toNat

namespace Text

/-- The part of a text after a given start, if it starts so. -/
def dropPrefix? : Text → Text → Option Text
  | [], text => some text
  | _ :: _, [] => none
  | p :: ps, b :: rest => if p = b then dropPrefix? ps rest else none

/-- Whether a text starts with a given start. -/
def startsWith (start text : Text) : Bool := (dropPrefix? start text).isSome

/-- A text that starts with `start` is `start` followed by what remains. -/
theorem eq_append_of_dropPrefix? {start text rest : Text} (h : dropPrefix? start text = some rest) :
    text = start ++ rest := by
  fun_induction dropPrefix? start text with
  | case1 text => simpa using h
  | case2 => simp at h
  | case3 ps b more ih => simp [ih h]
  | case4 => simp at h

/-- Splits a text around the first occurrence of a pattern, which both parts leave out. -/
def cut? (pattern : Text) : Text → Option (Text × Text)
  | [] => if pattern = [] then some ([], []) else none
  | b :: text =>
    match dropPrefix? pattern (b :: text) with
    | some after => some ([], after)
    | none => (cut? pattern text).map fun parts => (b :: parts.1, parts.2)

/-- Cutting loses nothing but the pattern. -/
theorem eq_append_of_cut? {pattern text before after : Text}
    (h : cut? pattern text = some (before, after)) : text = before ++ pattern ++ after := by
  induction text generalizing before with
  | nil =>
    by_cases hp : pattern = [] <;> simp_all [cut?]
  | cons b text ih =>
    rw [cut?] at h
    split at h
    · rename_i rest hrest
      simp only [Option.some.injEq, Prod.mk.injEq] at h
      obtain ⟨rfl, rfl⟩ := h
      simpa using eq_append_of_dropPrefix? hrest
    · obtain ⟨⟨l, r⟩, hparts, heq⟩ := Option.map_eq_some_iff.1 h
      simp only [Prod.mk.injEq] at heq
      obtain ⟨rfl, rfl⟩ := heq
      simp [ih hparts]

/-- The pieces of a text between the occurrences of a separator byte. There is one piece more than
there are separators, so the empty text has one empty piece. -/
def splitOn (sep : UInt8) : Text → List Text
  | [] => [[]]
  | b :: rest =>
    if b = sep then [] :: splitOn sep rest else (splitOn sep rest).modifyHead (b :: ·)

/-- The pieces of a text put together with a separator between them. -/
def join (sep : Text) : List Text → Text
  | [] => []
  | [piece] => piece
  | piece :: next :: rest => piece ++ sep ++ join sep (next :: rest)

/-- The lines of a text: what stands between its newlines. -/
def lines (text : Text) : List Text := splitOn Byte.newline text

/-- Lines put together again. -/
def unlines (ls : List Text) : Text := join [Byte.newline] ls

/-- The pieces of a text between occurrences of a separator byte, at most `count + 1` of them: the
last one is not split any further. -/
def splitAtMost (sep : UInt8) : Nat → Text → List Text
  | 0, text => [text]
  | count + 1, text =>
    match cut? [sep] text with
    | none => [text]
    | some (piece, rest) => piece :: splitAtMost sep count rest

/-- A text with every line end written as carriage return and newline turned into a newline. -/
def unifyLineEnds : Text → Text
  | [] => []
  | [b] => [b]
  | b :: c :: rest =>
    if b = Byte.carriageReturn ∧ c = Byte.newline then c :: unifyLineEnds rest
    else b :: unifyLineEnds (c :: rest)

/-- A text without one given last byte, if it has it. -/
def dropLastIf (b : UInt8) (text : Text) : Text :=
  if text.getLast? = some b then text.dropLast else text

/-- A text without the trailing bytes that satisfy a predicate. -/
def dropRightWhile (p : UInt8 → Bool) (text : Text) : Text :=
  (text.reverse.dropWhile p).reverse

/-- Replaces every occurrence of a non-empty pattern, from left to right; `skip` bytes of an
occurrence already replaced are passed over first. -/
def replaceFrom (pattern replacement : Text) : Nat → Text → Text
  | _, [] => []
  | skip + 1, _ :: rest => replaceFrom pattern replacement skip rest
  | 0, b :: rest =>
    if startsWith pattern (b :: rest) then
      replacement ++ replaceFrom pattern replacement (pattern.length - 1) rest
    else b :: replaceFrom pattern replacement 0 rest

/-- Replaces every occurrence of a non-empty pattern, from left to right. -/
def replace (pattern replacement text : Text) : Text := replaceFrom pattern replacement 0 text

/-- The decimal digits of a natural number. -/
def ofNat (n : Nat) : Text := (Nat.toDigits 10 n).map fun c => UInt8.ofNat c.toNat

/-- The decimal spelling of an integer, with a hyphen before a negative one. -/
def ofInt (n : Int) : Text :=
  if n < 0 then Byte.hyphen :: ofNat n.natAbs else ofNat n.natAbs

/-- The order of two texts by their first differing byte, a text coming after its beginnings. -/
def precedes : Text → Text → Bool
  | [], _ => true
  | _ :: _, [] => false
  | a :: as, b :: bs => a < b || (a == b && precedes as bs)

end Text

end HeaderMacros
