import HeaderMacros.Text.Basic

/-!
# Base 64

Bytes written in base 64: four signs stand for three bytes. The last group may stand for fewer, and
is then filled up with equals signs. Line ends between the signs do not count.
-/

namespace HeaderMacros.Text

/-- The value of a sign. -/
def signValue? (b : UInt8) : Option Nat :=
  if 0x41 ≤ b && b ≤ 0x5A then some (b.toNat - 0x41)
  else if 0x61 ≤ b && b ≤ 0x7A then some (b.toNat - 0x61 + 26)
  else if 0x30 ≤ b && b ≤ 0x39 then some (b.toNat - 0x30 + 52)
  else if b = 0x2B then some 62
  else if b = 0x2F then some 63
  else none

/-- The three bytes that four values stand for. -/
def groupBytes (a b c d : Nat) : Text :=
  [UInt8.ofNat (a * 4 + b / 16), UInt8.ofNat (b % 16 * 16 + c / 4), UInt8.ofNat (c % 4 * 64 + d)]

/-- The bytes that signs without line ends stand for. -/
def ofSigns? : Text → Option Text
  | [] => some []
  | a :: b :: c :: d :: rest => do
    let x ← signValue? a
    let y ← signValue? b
    if d = Byte.equals ∧ rest = [] then
      if c = Byte.equals then return (groupBytes x y 0 0).take 1
      else return (groupBytes x y (← signValue? c) 0).take 2
    else
      let more ← ofSigns? rest
      return groupBytes x y (← signValue? c) (← signValue? d) ++ more
  | _ => none

/-- The bytes that a text in base 64 stands for. -/
def ofBase64? (text : Text) : Option Text :=
  ofSigns? (text.filter fun b => b != Byte.newline && b != Byte.carriageReturn)

end HeaderMacros.Text
