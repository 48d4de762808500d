import HeaderMacros.Token.Basic

/-!
# The lexer

`Token.tokenize` cuts a line into tokens by maximal munch: white space runs, word runs, the fixed
operators of several characters, single operator characters, and runs of anything else. A run of
anything else ends only at white space or a word, so it may contain operator characters that are
not at its start.

Each step takes at least one byte (`length_rest_lex_le`), so cutting ends.
-/

namespace HeaderMacros.Token

/-- The first operator of several characters that a text starts with, and what follows it. -/
def multiCharOperator? (text : Text) : Option (Text × Text) :=
  multiCharOperators.findSome? fun op => (Text.dropPrefix? op text).map fun rest => (op, rest)

/-- A byte that belongs to a run of anything else once such a run has started. -/
def isOther (b : UInt8) : Bool := !Byte.isSpace b && !Byte.isWordByte b

/-- A token made of a first byte and the bytes after it that satisfy a predicate, with the rest. -/
def lexRun (kind : TokenKind) (p : UInt8 → Bool) (b : UInt8) (text : Text) : Token × Text :=
  (⟨kind, b :: text.takeWhile p⟩, text.dropWhile p)

/-- The first token of a text that starts with the byte `b`, and the rest of the text. -/
def lex (b : UInt8) (text : Text) : Token × Text :=
  if Byte.isSpace b then lexRun .space Byte.isSpace b text
  else if Byte.isWordByte b then lexRun .word Byte.isWordByte b text
  else
    match multiCharOperator? (b :: text) with
    | some (op, rest) => (⟨.operator, op⟩, rest)
    | none =>
      if singleCharOperators.contains b then (⟨.operator, [b]⟩, text)
      else lexRun .unknown isOther b text

/-- An operator of several characters is followed by less than what was there. -/
theorem length_rest_multiCharOperator? {text op rest : Text}
    (h : multiCharOperator? text = some (op, rest)) : rest.length < text.length := by
  obtain ⟨pattern, hmem, hsome⟩ := List.exists_of_findSome?_eq_some h
  obtain ⟨r, hr, heq⟩ := Option.map_eq_some_iff.1 hsome
  simp only [Prod.mk.injEq] at heq
  obtain ⟨rfl, rfl⟩ := heq
  have hne : pattern ≠ [] := by
    intro hnil
    subst hnil
    exact absurd hmem (by decide)
  have hlen := congrArg List.length (Text.eq_append_of_dropPrefix? hr)
  have hpos := List.length_pos_iff.2 hne
  simp only [List.length_append] at hlen
  omega

/-- A token takes at least its first byte. -/
theorem length_rest_lex_le (b : UInt8) (text : Text) : (lex b text).2.length ≤ text.length := by
  have hdrop (p : UInt8 → Bool) : (text.dropWhile p).length ≤ text.length :=
    (List.dropWhile_sublist p).length_le
  unfold lex lexRun
  split
  · exact hdrop _
  · split
    · exact hdrop _
    · split
      · rename_i op rest hop
        have := length_rest_multiCharOperator? hop
        simp only [List.length_cons] at this
        exact Nat.le_of_lt_succ this
      · split
        · exact Nat.le_refl _
        · exact hdrop _

/-- The tokens of a line. -/
def tokenize : Text → List Token
  | [] => []
  | b :: text => (lex b text).1 :: tokenize (lex b text).2
termination_by text => text.length
decreasing_by
  have := length_rest_lex_le b text
  simp only [List.length_cons]
  omega

end HeaderMacros.Token
