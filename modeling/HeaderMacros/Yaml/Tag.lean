import HeaderMacros.Yaml.Cursor
import HeaderMacros.Yaml.Token

/-!
# Anchors, tags and directives of the settings notation

How the properties of a node and the directives before a document are read.
-/

namespace HeaderMacros.Yaml

open Scan

/-- Reads the name of an anchor or an alias, from its sign on. -/
def anchorName : Scan Text := do
  let start := (← get).line
  skip
  let name ← takeWhile isNameCharacter
  let c ← get
  if name.isEmpty || !(isGap (c.peek? 0) || c.seesAny "?:,]\x7d%@`") then fail .anchorName start
  else return toText name

/-! ### Tags -/

/-- A character that may occur in a tag, percent escapes apart. -/
def isTagCharacter (c : Character) : Bool :=
  isNameCharacter c || (chars ";/?:@&=+$,.!~*'()[]").contains c

/-- Reads a percent escape, which gives a byte. -/
def percentByte (start : Nat) : Scan UInt8 := do
  need 3
  match (← get).rest with
  | 0x25 :: a :: b :: _ =>
    match hexNumber? [a, b] with
    | some n =>
      pass 0 3
      return UInt8.ofNat n
    | none => fail .tagEscape start
  | _ => fail .tagEscape start

/-- Reads percent escapes of bytes that continue a character. -/
def percentTail (start : Nat) : Nat → Scan Text
  | 0 => return []
  | n + 1 => do
    let b ← percentByte start
    if Utf8.isTail b then return b :: (← percentTail start n)
    else fail .tagTrailingOctet start

/-- Reads the percent escapes of a character. -/
def percentCharacter (start : Nat) : Scan Text := do
  let b ← percentByte start
  match furtherBytes? b with
  | some further => return b :: (← percentTail start further)
  | none => fail .tagLeadingOctet start

/-- Reads the text of a tag, of which `done` is read. -/
def tagTextFrom (start : Nat) : Text → Nat → Scan Text
  | done, 0 => return done
  | done, fuel + 1 => do
    let text := done ++ toText (← takeWhile isTagCharacter)
    if (← get).sees 0 '%' then
      let escaped ← percentCharacter start
      tagTextFrom start (text ++ escaped) fuel
    else return text

/-- Reads the text of a tag. Some text there must be, unless a beginning is read already. -/
def tagText (start : Nat) (begun : Option Text) : Scan Text := do
  let text ← repeated (tagTextFrom start (begun.getD []))
  if text.isEmpty && begun.isNone then fail .tagText start else return text

/-- Reads a tag handle: an exclamation mark, name characters, and maybe another mark. -/
def tagHandle : Scan Text := do
  need 1
  skip
  let handle := ascii "!" ++ toText (← takeWhile isNameCharacter)
  if (← get).sees 0 '!' then
    skip
    return handle ++ ascii "!"
  else return handle

/-- Whether a handle is more than one exclamation mark and ends in one. -/
def isFullHandle (handle : Text) : Bool := 1 < handle.length && handle.getLast? == some 0x21

/-- Reads a tag that is written out between angle brackets. -/
def verbatimTag (start : Nat) : Scan Text := do
  pass 0 2
  let text ← tagText start none
  if (← get).sees 0 '>' then
    skip
    return text
  else fail .tagClose start

/-- Reads a tag that starts with a handle, as a handle and the text behind it. What looks like a
handle and does not end in a mark is text behind the shortest handle. -/
def handledTag (start : Nat) : Scan (Text × Text) := do
  let handle ← tagHandle
  if isFullHandle handle then return (handle, ← tagText start none)
  else
    let text ← tagText start (some (handle.drop 1))
    return if text = [] then ([], handle) else (ascii "!", text)

/-- Reads a tag as a handle and the text behind it. A verbatim tag has no handle. -/
def tag : Scan (Text × Text) := do
  need 2
  let c ← get
  let (handle, text) ←
    if c.sees 1 '<' then do pure ([], ← verbatimTag c.line) else handledTag c.line
  need 1
  if isGap ((← get).peek? 0) then return (handle, text) else fail .tagEnd c.line

/-! ### Directives -/

/-- The longest number in a version. -/
def maxVersionLength : Nat := 2

/-- Reads a number of a version. -/
def versionNumber (start : Nat) : Scan Nat := do
  need 1
  -- One digit more than there may be shows that there are too many.
  let digits := ((← get).rest.take (maxVersionLength + 1)).takeWhile isDigit
  pass 1 digits.length
  if maxVersionLength < digits.length then fail .versionLength start
  else if digits.isEmpty then fail .versionNumber start
  else return digits.foldl (fun n d => n * 10 + (d - 0x30)) 0

/-- Reads the value of a version directive. -/
def versionDirective (start : Nat) : Scan TokenKind := do
  skipWhile isBlank
  let major ← versionNumber start
  if (← get).sees 0 '.' then
    skip
    return .versionDirective major (← versionNumber start)
  else fail .versionPoint start

/-- Reads the value of a tag directive: a handle and what it stands for. -/
def tagDirective (start : Nat) : Scan TokenKind := do
  skipWhile isBlank
  if !(← get).sees 0 '!' then fail .handleMark start
  let handle ← tagHandle
  if !isFullHandle handle && handle != ascii "!" then fail .handleMark start
  need 1
  if !((← get).peek? 0).any isBlank then fail .handleEnd start
  skipWhile isBlank
  let text ← tagText start none
  if isGap ((← get).peek? 0) then return .tagDirective handle text else fail .tagEnd start

/-- Reads a directive. -/
def directive : Scan TokenKind := do
  let start := (← get).line
  skip
  let name ← takeWhile isNameCharacter
  if name.isEmpty then fail .directiveName start
  if !isGap ((← get).peek? 0) then fail .directiveNameEnd start
  let kind ←
    if name = chars "YAML" then versionDirective start
    else if name = chars "TAG" then tagDirective start
    else fail .unknownDirective start
  endOfLine start
  return kind

end HeaderMacros.Yaml
