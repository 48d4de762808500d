import HeaderMacros.Source.Comment
import HeaderMacros.Source.Splice
import HeaderMacros.Source.Whitespace

/-!
# Normalized source text

Header text is prepared for reading line by line in four steps: line ends are unified, continued
lines are joined, comments are removed and white space is coalesced. Each step keeps every line in
its place.
-/

namespace HeaderMacros.Source

/-- A text ready for reading line by line, or the line on which a comment opens that is never
closed. -/
def normalize (text : Text) : Except Nat Text :=
  (strip (splice (Text.unifyLineEnds text))).map coalesce

end HeaderMacros.Source
