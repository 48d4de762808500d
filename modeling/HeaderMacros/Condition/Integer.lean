import HeaderMacros.Fault

/-!
# Integers in conditions

Conditions compute with signed integers of 32 bits. A literal is decimal with at most one sign, or
hexadecimal after `0x`, with any number of the suffix letters `L` and `l`. A hexadecimal literal
gives the 32 bits of the value, so it may be negative; a leading zero means nothing.
-/

namespace HeaderMacros.Condition

/-- The suffix letters of an integer literal. -/
def isSuffix (b : UInt8) : Bool := b == 0x4C || b == 0x6C

/-- The number that some digits spell, if there is at least one and all are digits of the base. -/
def digits? (base : Nat) (value? : UInt8 → Option Nat) (text : Text) : Option Nat :=
  match text.mapM value? with
  | none => none
  | some [] => none
  | some (d :: ds) => some ((d :: ds).foldl (fun n digit => n * base + digit) 0)

/-- The value of a decimal digit. -/
def decimalValue? (b : UInt8) : Option Nat :=
  if Byte.isDigit b then some (b.toNat - 0x30) else none

/-- The integer that a decimal literal without suffix spells. -/
def signed? (text : Text) : Option Int :=
  match text with
  | [] => none
  | b :: rest =>
    if b = 0x2B then (digits? 10 decimalValue? rest).map Int.ofNat
    else if b = Byte.hyphen then (digits? 10 decimalValue? rest).map fun n => -Int.ofNat n
    else (digits? 10 decimalValue? text).map Int.ofNat

/-- What follows the mark of a hexadecimal literal. -/
def hexadecimal? (text : Text) : Option Text :=
  match text with
  | zero :: x :: rest => if zero = 0x30 ∧ (x = 0x78 ∨ x = 0x58) then some rest else none
  | _ => none

/-- The value of an integer literal, if it is one. -/
def integer? (text : Text) : Option Int32 :=
  let literal := Text.dropRightWhile isSuffix text
  match hexadecimal? literal with
  | some rest =>
    match digits? 16 Byte.hexValue? rest with
    | some n => if n < 0x100000000 then some (Int32.ofNat n) else none
    | none => none
  | none =>
    match signed? literal with
    | some n => if -0x80000000 ≤ n ∧ n < 0x80000000 then some (Int32.ofInt n) else none
    | none => none

/-- The value of an integer literal. -/
def integer (text : Text) : Except Cause Int32 :=
  match integer? text with
  | some n => .ok n
  | none => .error (.valueless .invalidInteger text)

end HeaderMacros.Condition
