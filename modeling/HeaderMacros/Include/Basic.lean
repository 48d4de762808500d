import HeaderMacros.Text.Basic

/-!
# Includes

An include names a file and says how the name was spelled, between double quotes or between angle
brackets. Both kinds are looked up alike.
-/

namespace HeaderMacros

/-- How an include spells its file name. -/
inductive IncludeKind where
  /-- Between double quotes. -/
  | quoted
  /-- Between angle brackets. -/
  | angled
  deriving DecidableEq, Repr

/-- The spelling of a name in an include of a kind. -/
def IncludeKind.quote (kind : IncludeKind) (name : Text) : Text :=
  match kind with
  | .quoted => Byte.doubleQuote :: name ++ [Byte.doubleQuote]
  | .angled => Byte.lessThan :: name ++ [Byte.greaterThan]

/-- A request for a file. -/
structure Include where
  /-- The name of the file. -/
  name : Text
  /-- How the name was spelled. -/
  kind : IncludeKind
  deriving DecidableEq, Repr

/-- The spelling of an include. -/
def Include.spelling (i : Include) : Text := i.kind.quote i.name

end HeaderMacros
