import HeaderMacros.Source.Literal

/-!
# Comments

A text is read as a sequence of segments: literals, comments and single bytes outside both. Inside
a literal nothing starts a comment, and inside a comment nothing starts a literal. Stripping a text
keeps the literals and the single bytes, and of a block comment the newlines.

`segments` loses nothing (`source_segments`), so the line of a segment is found by counting the
newlines before it.
-/

namespace HeaderMacros.Source

/-- A stretch of source text, as far as comments go. -/
inductive Segment where
  /-- A literal. -/
  | literal (text : Text)
  /-- A block comment with what stands between its two marks. -/
  | blockComment (body : Text)
  /-- A block comment that is never closed, with all that follows its mark. -/
  | openComment (body : Text)
  /-- A line comment with what follows its mark on the line. -/
  | lineComment (body : Text)
  /-- A byte outside literals and comments. -/
  | plain (byte : UInt8)
  deriving DecidableEq, Repr

/-- The mark that opens a block comment. -/
def blockOpen : Text := ascii "/*"

/-- The mark that closes a block comment. -/
def blockClose : Text := ascii "*/"

/-- The mark that opens a line comment. -/
def lineOpen : Text := ascii "//"

/-- The bytes a segment stands for. -/
def Segment.source : Segment → Text
  | .literal text => text
  | .blockComment body => blockOpen ++ body ++ blockClose
  | .openComment body => blockOpen ++ body
  | .lineComment body => lineOpen ++ body
  | .plain byte => [byte]

/-- The first segment of a non-empty text, and the text after it. -/
def segment (before : Text) (b : UInt8) (text : Text) : Segment × Text :=
  match literal? before (b :: text) with
  | some (lit, after) => (.literal lit, after)
  | none =>
    match Text.dropPrefix? blockOpen (b :: text) with
    | some body =>
      match Text.cut? blockClose body with
      | some (comment, after) => (.blockComment comment, after)
      | none => (.openComment body, [])
    | none =>
      match Text.dropPrefix? lineOpen (b :: text) with
      | some body =>
        (.lineComment (body.takeWhile (· != Byte.newline)), body.dropWhile (· != Byte.newline))
      | none => (.plain b, text)

/-- A segment and the text after it are the whole text. -/
theorem source_segment (before : Text) (b : UInt8) (text : Text) :
    b :: text = (segment before b text).1.source ++ (segment before b text).2 := by
  unfold segment
  split
  · rename_i hlit
    exact (literal?_eq_append hlit).1
  · split
    · rename_i body hbody
      have hopen := Text.eq_append_of_dropPrefix? hbody
      split
      · rename_i comment after hcut
        rw [hopen, Text.eq_append_of_cut? hcut]
        simp [Segment.source]
      · simp [Segment.source, hopen]
    · split
      · rename_i body hbody
        rw [Text.eq_append_of_dropPrefix? hbody]
        simp [Segment.source, List.takeWhile_append_dropWhile]
      · rfl

/-- A segment takes at least the first byte. -/
theorem length_rest_segment_le (before : Text) (b : UInt8) (text : Text) :
    (segment before b text).2.length ≤ text.length := by
  have hlen := congrArg List.length (source_segment before b text)
  have hpos : 0 < (segment before b text).1.source.length := by
    rw [List.length_pos_iff]
    unfold segment
    split
    · rename_i hlit
      exact (literal?_eq_append hlit).2
    · repeat' split
      all_goals simp [Segment.source, blockOpen, lineOpen, ascii]
  simp only [List.length_cons, List.length_append] at hlen
  omega

/-- The segments of a text; `before` is the text before it in reverse. -/
def segmentsFrom (before : Text) : Text → List Segment
  | [] => []
  | b :: text =>
    (segment before b text).1 ::
      segmentsFrom ((segment before b text).1.source.reverse ++ before) (segment before b text).2
termination_by text => text.length
decreasing_by
  have := length_rest_segment_le before b text
  simp only [List.length_cons]
  omega

/-- The segments of a text. -/
def segments (text : Text) : List Segment := segmentsFrom [] text

/-- The segments that follow any text lose nothing. -/
theorem source_segmentsFrom (before text : Text) :
    (segmentsFrom before text).flatMap Segment.source = text := by
  fun_induction segmentsFrom before text with
  | case1 => rfl
  | case2 before b text ih => rw [List.flatMap_cons, ih, ← source_segment]

/-- The segments of a text lose nothing. -/
theorem source_segments (text : Text) : (segments text).flatMap Segment.source = text :=
  source_segmentsFrom [] text

/-- The number of newlines in a text. -/
def newlines (text : Text) : Nat := text.count Byte.newline

/-- What stripping leaves of a segment, or nothing for a comment that is never closed. -/
def Segment.kept? : Segment → Option Text
  | .literal text => some text
  | .blockComment body => some (List.replicate (newlines body) Byte.newline)
  | .openComment _ => none
  | .lineComment _ => some []
  | .plain byte => some [byte]

/-- Puts together what stripping leaves of segments that start on the given line. A comment that is
never closed is an error, told by its line. -/
def stripSegments (line : Nat) : List Segment → Except Nat Text
  | [] => .ok []
  | seg :: rest =>
    match seg.kept? with
    | none => .error line
    | some kept => (stripSegments (line + newlines seg.source) rest).map (kept ++ ·)

/-- A text without its comments, or the line on which a comment opens that is never closed. -/
def strip (text : Text) : Except Nat Text := stripSegments 1 (segments text)

end HeaderMacros.Source
