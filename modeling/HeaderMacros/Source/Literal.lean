import HeaderMacros.Text.Basic

/-!
# Literals in source text

String literals, character literals and raw string literals are kept byte for byte while comments
are removed and white space is coalesced. `literal?` recognizes the literal that starts at a place
of a text. Because a raw string may carry an encoding mark before its `R`, it is told what stands
before that place; `before` is always the preceding text in reverse.

A recognized literal is a non-empty start of the text (`literal?_eq_append`, `literal?_ne_nil`).
-/

namespace HeaderMacros.Source

/-- What remains of a quoted literal after its opening quote, up to and with the closing quote, and
the text after it. The literal closes on its line; a backslash protects the byte after it. -/
def closeQuote? (quote : UInt8) : Text → Option (Text × Text)
  | [] => none
  | b :: text =>
    if b = Byte.backslash then
      match text with
      | [] => none
      | c :: more =>
        if c = Byte.newline then none
        else (closeQuote? quote more).map fun parts => (b :: c :: parts.1, parts.2)
    else if b = Byte.newline then none
    else if b = quote then some ([b], text)
    else (closeQuote? quote text).map fun parts => (b :: parts.1, parts.2)

/-- Closing a quote loses nothing. -/
theorem eq_append_of_closeQuote? {quote : UInt8} {text close after : Text}
    (h : closeQuote? quote text = some (close, after)) : text = close ++ after := by
  fun_induction closeQuote? quote text generalizing close with
  | case1 => simp at h
  | case2 => simp at h
  | case3 => simp at h
  | case4 c more _ ih =>
    obtain ⟨⟨l, r⟩, hparts, heq⟩ := Option.map_eq_some_iff.1 h
    simp only [Prod.mk.injEq] at heq
    obtain ⟨rfl, rfl⟩ := heq
    simp [ih hparts]
  | case5 => simp at h
  | case6 =>
    simp only [Option.some.injEq, Prod.mk.injEq] at h
    obtain ⟨rfl, rfl⟩ := h
    rfl
  | case7 b text _ _ _ ih =>
    obtain ⟨⟨l, r⟩, hparts, heq⟩ := Option.map_eq_some_iff.1 h
    simp only [Prod.mk.injEq] at heq
    obtain ⟨rfl, rfl⟩ := heq
    simp [ih hparts]

/-- Whether a word could start after the given text, which is in reverse. -/
def atWordStart : Text → Bool
  | [] => true
  | b :: _ => !Byte.isWordByte b

/-- Whether an `R` after the given text, which is in reverse, can open a raw string literal: it
starts a word, or follows one of the encoding marks `u8`, `L`, `u` and `U` that does. -/
def opensRawString (before : Text) : Bool :=
  match before with
  | [] => true
  | b :: more =>
    -- The mark of two bytes is tried first, since its last byte is no mark by itself.
    if b = 0x38 ∧ more.head? = some 0x75 then atWordStart more.tail
    else if b = 0x4C ∨ b = 0x75 ∨ b = 0x55 then atWordStart more
    else atWordStart before

/-- A byte that cannot occur in the delimiter of a raw string literal. -/
def isDelimiterStop (b : UInt8) : Bool :=
  b == Byte.space || b == Byte.backslash || b == Byte.closeParen || b == Byte.tab ||
    b == Byte.newline

/-- The longest delimiter of a raw string literal. -/
def maxDelimiterLength : Nat := 16

/-- What remains of a raw string literal after its opening quote, and the text after it: a
delimiter, the body in parentheses, the delimiter again and a quote. -/
def closeRawString? (text : Text) : Option (Text × Text) :=
  let delimiter := text.takeWhile (· != Byte.openParen)
  match text.dropWhile (· != Byte.openParen) with
  | [] => none
  | paren :: bodyOn =>
    if delimiter.length > maxDelimiterLength ∨ delimiter.any isDelimiterStop then none
    else
      let closing := Byte.closeParen :: delimiter ++ [Byte.doubleQuote]
      (Text.cut? closing bodyOn).map fun parts =>
        (delimiter ++ paren :: parts.1 ++ closing, parts.2)

/-- Closing a raw string loses nothing. -/
theorem eq_append_of_closeRawString? {text close after : Text}
    (h : closeRawString? text = some (close, after)) : text = close ++ after := by
  unfold closeRawString? at h
  have hsplit := List.takeWhile_append_dropWhile (l := text) (p := (· != Byte.openParen))
  simp only at h
  split at h
  · simp at h
  · rename_i paren bodyOn hdrop
    split at h
    · simp at h
    · obtain ⟨⟨body, rest⟩, hcut, heq⟩ := Option.map_eq_some_iff.1 h
      simp only [Prod.mk.injEq] at heq
      obtain ⟨rfl, rfl⟩ := heq
      have hbody := Text.eq_append_of_cut? hcut
      rw [hdrop, hbody] at hsplit
      simpa using hsplit.symm

/-- The literal that starts a text, and the text after it. `before` is the text before it in
reverse. -/
def literal? (before text : Text) : Option (Text × Text) :=
  match text with
  | [] => none
  | b :: rest =>
    if b = Byte.doubleQuote ∨ b = Byte.singleQuote then
      (closeQuote? b rest).map fun parts => (b :: parts.1, parts.2)
    else if b = 0x52 then
      match rest with
      | c :: more =>
        if c = Byte.doubleQuote ∧ opensRawString before then
          (closeRawString? more).map fun parts => (b :: c :: parts.1, parts.2)
        else none
      | [] => none
    else none

/-- A literal and the text after it are the whole text, and a literal has a first byte. -/
theorem literal?_eq_append {before text lit after : Text}
    (h : literal? before text = some (lit, after)) :
    text = lit ++ after ∧ lit ≠ [] := by
  cases text with
  | nil => simp [literal?] at h
  | cons b rest =>
    simp only [literal?] at h
    split at h
    · obtain ⟨⟨l, r⟩, hparts, heq⟩ := Option.map_eq_some_iff.1 h
      simp only [Prod.mk.injEq] at heq
      obtain ⟨rfl, rfl⟩ := heq
      simp [eq_append_of_closeQuote? hparts]
    · split at h
      · cases rest with
        | nil => simp at h
        | cons c more =>
          simp only at h
          split at h
          · obtain ⟨⟨l, r⟩, hparts, heq⟩ := Option.map_eq_some_iff.1 h
            simp only [Prod.mk.injEq] at heq
            obtain ⟨rfl, rfl⟩ := heq
            simp [eq_append_of_closeRawString? hparts]
          · simp at h
      · simp at h

/-- What follows a literal is shorter than the text that starts with it. -/
theorem length_rest_literal? {before text lit after : Text}
    (h : literal? before text = some (lit, after)) : after.length < text.length := by
  obtain ⟨htext, hlit⟩ := literal?_eq_append h
  have := List.length_pos_iff.2 hlit
  rw [htext, List.length_append]
  omega

/-- The first position and the end of the literal at each position of a text that has one;
`before` is the text before it in reverse and `start` their common position. -/
def literalSpansFrom (before : Text) (start : Nat) : Text → List (Nat × Nat)
  | [] => []
  | b :: text =>
    match literal? before (b :: text) with
    | some (lit, _) => (start, start + lit.length) :: literalSpansFrom (b :: before) (start + 1) text
    | none => literalSpansFrom (b :: before) (start + 1) text

/-- The first position and the end of the literal at each position of a text that has one. -/
def literalSpans (text : Text) : List (Nat × Nat) := literalSpansFrom [] 0 text

end HeaderMacros.Source
