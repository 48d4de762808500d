import HeaderMacros.Text.Base64
import HeaderMacros.Yaml.Failure
import HeaderMacros.Yaml.Implied

/-!
# Values of scalars

What a scalar stands for, as far as settings need to know: nothing, a truth value, a text, or
something else, such as a number, of which only the spelling matters here.
-/

namespace HeaderMacros.Yaml

/-- What a scalar stands for. -/
inductive ScalarValue where
  /-- Nothing. -/
  | null
  /-- A truth value. -/
  | bool (value : Bool)
  /-- A text. -/
  | text (value : Text)
  /-- A number, a date or a time. -/
  | other
  deriving DecidableEq, Repr

/-- The tags of scalars whose spelling must fit the tag. -/
def checkedTags : List Text := [Tag.bool, Tag.int, Tag.float, Tag.null, Tag.timestamp]

/-- Whether what a spelling implies fits a tag. An integer may stand for a float, but not a wide
one. -/
def Implied.fits (i : Implied) (tag : Text) : Bool :=
  i.tag == tag || (i == .int false && tag == Tag.float)

/-- What a scalar stands for. -/
def scalarValue (tag value : Text) : Except Failure ScalarValue :=
  if tag = Tag.binary then
    match Text.ofBase64? value with
    | some bytes => .ok (.text bytes)
    | none => .error ⟨.base64, 0⟩
  else if !checkedTags.contains tag then .ok (.text value)
  else
    let found := implied (tag == Tag.timestamp) value
    if !found.fits tag then .error ⟨.tagMismatch found.tag value tag, 0⟩
    else
      match found with
      | .null => .ok .null
      | .bool b => .ok (.bool b)
      | _ => .ok .other

end HeaderMacros.Yaml
