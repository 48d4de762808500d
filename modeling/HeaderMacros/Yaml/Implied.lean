import HeaderMacros.Text.Basic

/-!
# Implied meanings

A plain scalar means what its text implies: null, a truth value, a number, a date, or a text if it
is none of these. Numbers may have underscores in them; the base of an integer is told by its start,
and a decimal number with a fraction or an exponent is a float, as is one that is too large for 64
bits.
-/

namespace HeaderMacros.Yaml

namespace Tag

/-- The tag of texts. -/
def str : Text := ascii "!!str"

/-- The tag of null. -/
def null : Text := ascii "!!null"

/-- The tag of truth values. -/
def bool : Text := ascii "!!bool"

/-- The tag of integers. -/
def int : Text := ascii "!!int"

/-- The tag of floats. -/
def float : Text := ascii "!!float"

/-- The tag of dates and times. -/
def timestamp : Text := ascii "!!timestamp"

/-- The tag of bytes written in base 64. -/
def binary : Text := ascii "!!binary"

/-- The tag of the key that merges mappings. -/
def merge : Text := ascii "!!merge"

/-- The tag of sequences. -/
def seq : Text := ascii "!!seq"

/-- The tag of mappings. -/
def map : Text := ascii "!!map"

/-- What the tags of the notation itself start with when they are written out. -/
def long : Text := ascii "tag:yaml.org,2002:"

/-- A tag in its short form. -/
def short (tag : Text) : Text :=
  match Text.dropPrefix? long tag with
  | some rest => ascii "!!" ++ rest
  | none => tag

end Tag

/-- What a text implies. -/
inductive Implied where
  /-- Nothing. -/
  | null
  /-- A truth value. -/
  | bool (value : Bool)
  /-- An integer of 64 bits; `wide` says that it takes all of them, without a sign. -/
  | int (wide : Bool)
  /-- A float. -/
  | float
  /-- A date, with or without a time. -/
  | timestamp
  /-- A text. -/
  | text
  deriving DecidableEq, Repr

/-- The tag of what a text implies. -/
def Implied.tag : Implied → Text
  | .null => Tag.null
  | .bool _ => Tag.bool
  | .int _ => Tag.int
  | .float => Tag.float
  | .timestamp => Tag.timestamp
  | .text => Tag.str

/-- The texts with a fixed meaning. -/
def fixedScalars : List (Text × Implied) :=
  (["true", "True", "TRUE"].map fun s => (ascii s, .bool true)) ++
    (["false", "False", "FALSE"].map fun s => (ascii s, .bool false)) ++
    (["", "~", "null", "Null", "NULL"].map fun s => (ascii s, .null)) ++
    ([".nan", ".NaN", ".NAN", ".inf", ".Inf", ".INF", "+.inf", "+.Inf", "+.INF", "-.inf", "-.Inf",
      "-.INF"].map fun s => (ascii s, .float))

/-! ### Integers -/

/-- A text without its sign, and whether the sign is negative. -/
def unsigned (text : Text) : Bool × Text :=
  match text with
  | 0x2B :: rest => (false, rest)
  | 0x2D :: rest => (true, rest)
  | _ => (false, text)

/-- Whether a text starts with a sign. -/
def hasSign (text : Text) : Bool := text.head? == some 0x2B || text.head? == some 0x2D

/-- The number that some digits of a base give, if there is at least one and all are such digits. -/
def digitsIn (base : Nat) (text : Text) : Option Nat :=
  if text = [] then none
  else
    text.foldlM (fun n b =>
      match Byte.hexValue? b with
      | some d => if d < base then some (n * base + d) else none
      | none => none) 0

/-- The number that a text without sign gives, with the base told by its start. -/
def magnitude? (text : Text) : Option Nat :=
  match text with
  | 0x30 :: x :: rest =>
    if x = 0x78 ∨ x = 0x58 then digitsIn 16 rest
    else if x = 0x62 ∨ x = 0x42 then digitsIn 2 rest
    else if x = 0x6F ∨ x = 0x4F then digitsIn 8 rest
    else digitsIn 8 (x :: rest)
  | _ => digitsIn 10 text

/-- The integer of the given size and sign, if it fits 64 bits. -/
def signedInteger? (negative : Bool) (magnitude : Nat) : Option Implied :=
  if magnitude < 0x8000000000000000 then some (.int false)
  else if negative && magnitude == 0x8000000000000000 then some (.int false)
  else none

/-- The integer that a text is. Without a sign it may use all 64 bits. -/
def integer? (text : Text) : Option Implied := do
  let (negative, rest) := unsigned text
  let n ← magnitude? rest
  if hasSign text then signedInteger? negative n
  else if n < 0x8000000000000000 then some (.int false)
  else if n < 0x10000000000000000 then some (.int true)
  else none

/-- The integer that a text is if a sign stands behind the mark of its base. -/
def integerWithInnerSign? (text : Text) : Option Implied :=
  match text with
  | 0x30 :: mark :: rest => do
    let base ← if mark = 0x62 then some 2 else if mark = 0x6F then some 8 else none
    let (negative, digits) := unsigned rest
    signedInteger? negative (← digitsIn base digits)
  | _ => none

/-! ### Floats -/

/-- The exponent that some digits give. Digits behind one that makes it large do not count. -/
def exponent? (digits : Text) : Option Nat :=
  if digits = [] then none
  else
    digits.foldlM (fun n b =>
      if Byte.isDigit b then some (if n < 10000 then n * 10 + (b.toNat - 0x30) else n) else none) 0

/-- The parts of a decimal number without sign: the digits before and after the point, and the
exponent. -/
def decimalParts? (text : Text) : Option (Text × Text × Int) :=
  let whole := text.takeWhile Byte.isDigit
  let afterWhole := text.dropWhile Byte.isDigit
  let fraction? : Option Text :=
    match afterWhole with
    | 0x2E :: rest => some (rest.takeWhile Byte.isDigit)
    | _ => none
  let fraction := fraction?.getD []
  let afterFraction := afterWhole.drop (if fraction?.isSome then fraction.length + 1 else 0)
  if whole = [] ∧ fraction = [] then none
  else
    match afterFraction with
    | [] => some (whole, fraction, 0)
    | e :: rest =>
      if e = 0x65 ∨ e = 0x45 then
        let (negative, digits) := unsigned rest
        (exponent? digits).map fun n =>
          (whole, fraction, if negative then -Int.ofNat n else Int.ofNat n)
      else none

/-- The least number that is too large for a float of 64 bits. -/
def floatLimit : Nat := Nat.pow 2 1024 - Nat.pow 2 970

/-- Whether a decimal number fits a float of 64 bits. -/
def fitsFloat (whole fraction : Text) (exponent : Int) : Bool :=
  match digitsIn 10 (whole ++ fraction) with
  | none => false
  | some n =>
    let scale := exponent - Int.ofNat fraction.length
    if n = 0 then true
    else if scale ≤ 0 then
      -- A fraction of this size cannot matter, so the power stays small.
      n < floatLimit * Nat.pow 10 (min scale.natAbs (whole.length + fraction.length))
    else if 400 < scale then false
    else n * Nat.pow 10 scale.natAbs < floatLimit

/-- Whether a text is a decimal number that fits a float. -/
def isFloat (text : Text) : Bool :=
  match decimalParts? (unsigned text).2 with
  | some (whole, fraction, exponent) => fitsFloat whole fraction exponent
  | none => false

/-! ### Dates and times -/

/-- Reads a number of one or two digits, within bounds. -/
def shortNumber? (low high : Nat) (text : Text) : Option (Nat × Text) :=
  let digits := (text.take 2).takeWhile Byte.isDigit
  match digitsIn 10 digits with
  | some n => if low ≤ n ∧ n ≤ high then some (n, text.drop digits.length) else none
  | none => none

/-- Reads a given byte. -/
def expect? (b : UInt8) (text : Text) : Option Text :=
  match text with
  | x :: rest => if x = b then some rest else none
  | [] => none

/-- The number of days in a month. -/
def daysIn (year month : Nat) : Nat :=
  if month = 2 then
    if year % 4 = 0 ∧ (year % 100 ≠ 0 ∨ year % 400 = 0) then 29 else 28
  else if month = 4 ∨ month = 6 ∨ month = 9 ∨ month = 11 then 30
  else 31

/-- Reads a date. -/
def date? (text : Text) : Option Text := do
  let year := text.takeWhile Byte.isDigit
  if year.length ≠ 4 then none
  let (month, rest) ← shortNumber? 1 12 (← expect? 0x2D (text.drop 4))
  let (_, rest) ← shortNumber? 1 (daysIn ((digitsIn 10 year).getD 0) month) (← expect? 0x2D rest)
  return rest

/-- Reads a fraction of a second, if there is one. -/
def fractionOfSecond (text : Text) : Text :=
  match text with
  | p :: d :: rest =>
    if (p = 0x2E ∨ p = 0x2C) ∧ Byte.isDigit d then rest.dropWhile Byte.isDigit else text
  | _ => text

/-- Reads a time of day. -/
def clock? (text : Text) : Option Text := do
  let (_, rest) ← shortNumber? 0 23 text
  let (_, rest) ← shortNumber? 0 59 (← expect? 0x3A rest)
  let (_, rest) ← shortNumber? 0 59 (← expect? 0x3A rest)
  return fractionOfSecond rest

/-- Whether a text is a time zone: the letter Z, or a difference in hours and minutes. -/
def isZone (text : Text) : Bool :=
  match text with
  | [0x5A] => true
  | [s, h, h', 0x3A, m, m'] =>
    (s == 0x2B || s == 0x2D) && ((digitsIn 10 [h, h']).any (· ≤ 24)) &&
      ((digitsIn 10 [m, m']).any (· ≤ 60))
  | _ => false

/-- Reads what stands between a date and a time: a letter, or spaces. The answer says whether a time
zone follows the time. -/
def timeSign? (text : Text) : Option (Bool × Text) :=
  match text with
  | sep :: rest =>
    if sep = 0x54 ∨ sep = 0x74 then some (true, rest)
    else if sep = Byte.space then some (false, rest.dropWhile (· == Byte.space))
    else none
  | [] => none

/-- Whether a text is a date, with or without a time. -/
def isTimestamp (text : Text) : Bool :=
  match date? text with
  | none => false
  | some [] => true
  | some rest =>
    match timeSign? rest with
    | none => false
    | some (zoned, time) =>
      match clock? time with
      | none => false
      | some zone => if zoned then isZone zone else zone == []

/-! ### The meaning of a text -/

/-- The sign that may stand between digits. -/
def underscore : UInt8 := 0x5F

/-- A text without its underscores. -/
def withoutUnderscores (text : Text) : Text := text.filter (· != underscore)

/-- Whether every underscore stands between two digits; `digit` tells of a digit before the text. -/
def underscoresBetweenDigits : Bool → Text → Bool
  | _, [] => true
  | digit, b :: rest =>
    if b = underscore then
      digit && rest.head?.any Byte.isDigit && underscoresBetweenDigits false rest
    else underscoresBetweenDigits (Byte.isDigit b) rest

/-- What a text implies that starts with a digit or a sign; dates are told from numbers only where
`dates` allows them. -/
def impliedNumber (dates : Bool) (text : Text) : Implied :=
  let plain := withoutUnderscores text
  if dates && isTimestamp text then .timestamp
  else
    match integer? plain with
    | some int => int
    | none => if isFloat plain then .float else (integerWithInnerSign? plain).getD .text

/-- What the text of a plain scalar implies. -/
def implied (dates : Bool) (text : Text) : Implied :=
  match fixedScalars.lookup text with
  | some fixed => fixed
  | none =>
    if text.head? == some Byte.dot then
      if underscoresBetweenDigits false text && isFloat (withoutUnderscores text) then .float
      else .text
    else if text.head?.any Byte.isDigit || hasSign text then impliedNumber dates text
    else .text

end HeaderMacros.Yaml
