import HeaderMacros.Text.Basic

/-!
# Joining continued lines

A line that ends in a backslash continues on the next one. `splice` joins every run of continued
lines onto the first line of the run and leaves the other lines of the run empty, so that every
later line keeps its number.
-/

namespace HeaderMacros.Source

/-- Whether a line continues on the next one. -/
def isContinued (line : Text) : Bool := line.getLast? == some Byte.backslash

/-- Joins continued lines, where `current` is the line being put together and `emptied` the number
of lines already joined onto it. -/
def spliceLinesFrom (current : Text) (emptied : Nat) : List Text → List Text
  | [] => current :: List.replicate emptied []
  | next :: rest =>
    if isContinued current then spliceLinesFrom (current.dropLast ++ next) (emptied + 1) rest
    else current :: List.replicate emptied [] ++ spliceLinesFrom next 0 rest

/-- Joins every run of continued lines onto its first line and leaves its other lines empty. -/
def spliceLines : List Text → List Text
  | [] => []
  | first :: rest => spliceLinesFrom first 0 rest

/-- Joining lines keeps their number. -/
theorem length_spliceLinesFrom (current : Text) (emptied : Nat) (rest : List Text) :
    (spliceLinesFrom current emptied rest).length = emptied + rest.length + 1 := by
  induction rest generalizing current emptied with
  | nil => simp [spliceLinesFrom]
  | cons next rest ih =>
    rw [spliceLinesFrom]
    split
    · rw [ih]
      simp only [List.length_cons]
      omega
    · simp only [List.cons_append, List.length_cons, List.length_append, List.length_replicate, ih]
      omega

/-- The text with its continued lines joined. -/
def splice (text : Text) : Text := Text.unlines (spliceLines (Text.lines text))

end HeaderMacros.Source
