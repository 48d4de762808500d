import HeaderMacros.Source.Literal

/-!
# Coalescing white space

Outside literals, a run of white space inside a line becomes one space, and white space at the
start of a line is dropped. Newlines stay, so every line keeps its number.
-/

namespace HeaderMacros.Source

/-- White space inside a line; a carriage return that ends no line counts. -/
def isLineSpace (b : UInt8) : Bool := Byte.isHorizontalSpace b || b == Byte.carriageReturn

/-- A stretch of source text, as far as white space goes. -/
inductive Stretch where
  /-- A literal. -/
  | literal (text : Text)
  /-- A line end. -/
  | newline
  /-- A run of white space inside a line. -/
  | gap (run : Text)
  /-- Any other byte. -/
  | plain (byte : UInt8)
  deriving DecidableEq, Repr

/-- The bytes a stretch stands for. -/
def Stretch.source : Stretch → Text
  | .literal text => text
  | .newline => [Byte.newline]
  | .gap run => run
  | .plain byte => [byte]

/-- The first stretch of a non-empty text, and the text after it. -/
def stretch (before : Text) (b : UInt8) (text : Text) : Stretch × Text :=
  match literal? before (b :: text) with
  | some (lit, after) => (.literal lit, after)
  | none =>
    if b = Byte.newline then (.newline, text)
    else if isLineSpace b then
      (.gap (b :: text.takeWhile isLineSpace), text.dropWhile isLineSpace)
    else (.plain b, text)

/-- A stretch and the text after it are the whole text. -/
theorem source_stretch (before : Text) (b : UInt8) (text : Text) :
    b :: text = (stretch before b text).1.source ++ (stretch before b text).2 := by
  unfold stretch
  split
  · rename_i hlit
    exact (literal?_eq_append hlit).1
  · repeat' split
    · rename_i hb
      simp [Stretch.source, hb]
    · simp [Stretch.source, List.takeWhile_append_dropWhile]
    · rfl

/-- A stretch takes at least the first byte. -/
theorem length_rest_stretch_le (before : Text) (b : UInt8) (text : Text) :
    (stretch before b text).2.length ≤ text.length := by
  unfold stretch
  split
  · rename_i hlit
    have := length_rest_literal? hlit
    simp only [List.length_cons] at this
    exact Nat.le_of_lt_succ this
  · repeat' split
    · exact Nat.le_refl _
    · exact (List.dropWhile_sublist _).length_le
    · exact Nat.le_refl _

/-- The stretches of a text; `before` is the text before it in reverse. -/
def stretchesFrom (before : Text) : Text → List Stretch
  | [] => []
  | b :: text =>
    (stretch before b text).1 ::
      stretchesFrom ((stretch before b text).1.source.reverse ++ before) (stretch before b text).2
termination_by text => text.length
decreasing_by
  have := length_rest_stretch_le before b text
  simp only [List.length_cons]
  omega

/-- The stretches of a text. -/
def stretches (text : Text) : List Stretch := stretchesFrom [] text

/-- The stretches that follow any text lose nothing. -/
theorem source_stretchesFrom (before text : Text) :
    (stretchesFrom before text).flatMap Stretch.source = text := by
  fun_induction stretchesFrom before text with
  | case1 => rfl
  | case2 before b text ih => rw [List.flatMap_cons, ih, ← source_stretch]

/-- The stretches of a text lose nothing. -/
theorem source_stretches (text : Text) : (stretches text).flatMap Stretch.source = text :=
  source_stretchesFrom [] text

/-- Writes stretches with their gaps coalesced; `atStart` says whether a line starts here. -/
def coalesceStretches (atStart : Bool) : List Stretch → Text
  | [] => []
  | .literal text :: rest => text ++ coalesceStretches false rest
  | .newline :: rest => Byte.newline :: coalesceStretches true rest
  | .gap _ :: rest =>
    if atStart then coalesceStretches atStart rest
    else Byte.space :: coalesceStretches atStart rest
  | .plain byte :: rest => byte :: coalesceStretches false rest

/-- A text with its white space coalesced. -/
def coalesce (text : Text) : Text := coalesceStretches true (stretches text)

end HeaderMacros.Source
