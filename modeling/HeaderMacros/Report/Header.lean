import HeaderMacros.Text.Blank

/-!
# The root document of a harvest

Harvesting several headers is a run over a document that includes them in order.
-/

namespace HeaderMacros.Report

/-- The line that includes a header. A name already between quotes or brackets is kept as it is,
and a blank name has no line. -/
def includeLine (header : Text) : Text :=
  match Text.trim header with
  | [] => []
  | b :: rest =>
    let name := b :: rest
    if b = Byte.doubleQuote ∨ b = Byte.lessThan then ascii "#include " ++ name ++ ascii "\n"
    else ascii "#include <" ++ name ++ ascii ">\n"

/-- The document that includes headers in order. -/
def rootDocument (headers : List Text) : Text := headers.flatMap includeLine

end HeaderMacros.Report
