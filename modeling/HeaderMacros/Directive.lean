import HeaderMacros.Fault
import HeaderMacros.Token.Basic

/-!
# Directives

A line whose first token is the number sign is a directive: a name, and the tokens after it without
white space at their ends. A number sign alone is a directive with an empty name.
-/

namespace HeaderMacros

/-- A directive line. -/
structure Directive where
  /-- The name after the number sign, empty if there is none. -/
  name : Text
  /-- The tokens after the name, without white space at their ends. -/
  params : List Token
  deriving DecidableEq, Repr

/-- The directive that a line is, if it is one. -/
def Directive.ofTokens? : List Token → Option Directive
  | [] => none
  | first :: rest =>
    if first.is [Byte.hash] then
      match Tokens.trimLeft rest with
      | [] => some ⟨[], []⟩
      | name :: params => some ⟨name.text, Tokens.trim params⟩
    else none

/-- A space or a tab. -/
def Include.isBlank (b : UInt8) : Bool := b == Byte.space || b == Byte.tab

/-- The include that a text spells. The name is read from the text and not from the tokens, because
a token may straddle the end of the name. -/
def Include.ofText (text : Text) : Except Cause Include :=
  match text with
  | [] => .error (.malformed .badInclude text)
  | b :: rest =>
    if b = Byte.doubleQuote then
      match Text.cut? [Byte.doubleQuote] rest with
      | none => .error (.malformed .badInclude text)
      | some (name, _) => .ok ⟨name, .quoted⟩
    else if b = Byte.lessThan then
      let named := rest.dropWhile Include.isBlank
      let ends (c : UInt8) : Bool := c == Byte.greaterThan || Include.isBlank c
      let name := named.takeWhile fun c => !ends c
      if name = [] ∨ name = named then .error (.malformed .badInclude text)
      else .ok ⟨name, .angled⟩
    else .error (.malformed .badInclude text)

/-- The include that the parameters of a directive spell. -/
def Include.ofTokens (params : List Token) : Except Cause Include :=
  Include.ofText (Tokens.text params)

end HeaderMacros
