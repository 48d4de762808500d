import HeaderMacros.Proofs.Text.Lines
import HeaderMacros.Source.Comment
import HeaderMacros.Source.Whitespace

/-!
# Scanning the parts of a text

Comments are removed and white space is coalesced by two scans that go through a text piece by
piece: `segmentsFrom` and `stretchesFrom`. Both recognize the same literals and know what was read
before a piece only through `opensRawString`.

`IsScan` says what the two have in common. From it follows what a scan makes of the text before and
after a piece (`IsScan.around`):

- The pieces before it are those of the text before it alone. What is found in a text is found in
  the part of it that it takes, whatever follows (`literal?_append`).
- If it ends in a quote, the pieces after it are those of the text after a quote. No byte before a
  quote takes part in the start of a raw string.
-/

namespace HeaderMacros.Source

/-! ## Literals -/

/-- A quote that is closed is closed there whatever follows. -/
theorem closeQuote?_append {quote : UInt8} {text close after : Text}
    (h : closeQuote? quote text = some (close, after)) (rest : Text) :
    closeQuote? quote (close ++ rest) = some (close, rest) := by
  fun_induction closeQuote? quote text generalizing close with
  | case1 => cases h
  | case2 => cases h
  | case3 => cases h
  | case4 c more hc ih =>
    obtain ⟨⟨close', after'⟩, hclose, heq⟩ := Option.map_eq_some_iff.1 h
    cases heq
    rw [List.cons_append, List.cons_append, closeQuote?, if_pos rfl]
    dsimp only
    rw [if_neg hc, ih hclose]
    rfl
  | case5 => cases h
  | case6 text hb hb' =>
    cases h
    rw [List.cons_append, closeQuote?.eq_def]
    dsimp only
    rw [if_neg hb, if_neg hb', if_pos rfl, List.nil_append]
  | case7 b text hb hb' hquote ih =>
    obtain ⟨⟨close', after'⟩, hclose, heq⟩ := Option.map_eq_some_iff.1 h
    cases heq
    rw [List.cons_append, closeQuote?.eq_def]
    dsimp only
    rw [if_neg hb, if_neg hb', if_neg hquote, ih hclose]
    rfl

/-- What closes the body of a raw string. -/
def rawStringEnd (delimiter : Text) : Text := Byte.closeParen :: delimiter ++ [Byte.doubleQuote]

/-- A text that can be the delimiter of a raw string. -/
def IsDelimiter (delimiter : Text) : Prop :=
  Byte.openParen ∉ delimiter ∧
    ¬ (delimiter.length > maxDelimiterLength ∨ delimiter.any isDelimiterStop = true)

/-- A raw string is a delimiter, and a body that ends where the delimiter is found again. -/
theorem closeRawString?_eq_some_iff {text close after : Text} :
    closeRawString? text = some (close, after) ↔
      ∃ delimiter bodyOn body, text = delimiter ++ Byte.openParen :: bodyOn ∧
        IsDelimiter delimiter ∧
        Text.cut? (rawStringEnd delimiter) bodyOn = some (body, after) ∧
        close = delimiter ++ Byte.openParen :: body ++ rawStringEnd delimiter := by
  have hparen {delimiter : Text} (h : Byte.openParen ∉ delimiter) :
      ∀ b ∈ delimiter, (b != Byte.openParen) = true := by
    intro b hb
    rw [bne_iff_ne]
    rintro rfl
    exact h hb
  constructor
  · intro h
    unfold closeRawString? at h
    dsimp only at h
    have hsplit := List.takeWhile_append_dropWhile (l := text) (p := (· != Byte.openParen))
    split at h
    · cases h
    rename_i paren bodyOn hdrop
    split at h
    · cases h
    rename_i hlegal
    obtain ⟨⟨body, after'⟩, hcut, heq⟩ := Option.map_eq_some_iff.1 h
    cases heq
    -- The delimiter is what stands before the first parenthesis, so a parenthesis ends it.
    obtain rfl : paren = Byte.openParen := by
      have hhead := List.head?_dropWhile_not (· != Byte.openParen) text
      rw [hdrop] at hhead
      simpa using hhead
    rw [hdrop] at hsplit
    refine ⟨_, bodyOn, body, hsplit.symm, ⟨?_, hlegal⟩, hcut, rfl⟩
    intro hmem
    exact absurd (List.all_eq_true.1 List.all_takeWhile _ hmem) (by decide)
  · rintro ⟨delimiter, bodyOn, body, rfl, ⟨hmem, hlegal⟩, hcut, rfl⟩
    -- The delimiter has no parenthesis, so it is found again as what stands before the first one.
    have htake : (delimiter ++ Byte.openParen :: bodyOn).takeWhile (· != Byte.openParen) =
        delimiter := by
      rw [List.takeWhile_append_of_pos (hparen hmem), List.takeWhile_cons_of_neg (by simp),
        List.append_nil]
    have hdrop : (delimiter ++ Byte.openParen :: bodyOn).dropWhile (· != Byte.openParen) =
        Byte.openParen :: bodyOn := by
      rw [List.dropWhile_append_of_pos (hparen hmem), List.dropWhile_cons_of_neg (by simp)]
    unfold closeRawString?
    dsimp only
    rw [htake, hdrop]
    dsimp only
    rw [if_neg hlegal]
    exact Option.map_eq_some_iff.2 ⟨(body, after), hcut, rfl⟩

theorem closeRawString?_append {text close after : Text}
    (h : closeRawString? text = some (close, after)) (rest : Text) :
    closeRawString? (close ++ rest) = some (close, rest) := by
  obtain ⟨delimiter, bodyOn, body, rfl, hdelimiter, hcut, rfl⟩ := closeRawString?_eq_some_iff.1 h
  refine closeRawString?_eq_some_iff.2 ⟨delimiter, body ++ (rawStringEnd delimiter ++ rest), body,
    by simp, hdelimiter, Text.cut?_append hcut rest, rfl⟩

/-- A literal is a quote up to the next one, or a raw string where one can start. -/
theorem literal?_eq_some_iff {before text lit after : Text} :
    literal? before text = some (lit, after) ↔
      (∃ quote rest close, (quote = Byte.doubleQuote ∨ quote = Byte.singleQuote) ∧
        text = quote :: rest ∧ closeQuote? quote rest = some (close, after) ∧
        lit = quote :: close) ∨
      (∃ rest close, opensRawString before = true ∧ text = 0x52 :: Byte.doubleQuote :: rest ∧
        closeRawString? rest = some (close, after) ∧ lit = 0x52 :: Byte.doubleQuote :: close) := by
  constructor
  · intro h
    unfold literal? at h
    split at h
    · cases h
    rename_i b rest
    split at h
    · -- A quote opens the literal.
      rename_i hquote
      obtain ⟨⟨close, after'⟩, hclose, heq⟩ := Option.map_eq_some_iff.1 h
      cases heq
      exact .inl ⟨b, rest, close, hquote, rfl, hclose, rfl⟩
    · split at h
      · rename_i hr
        split at h
        · -- The letter and a double quote open it, where the text before does not forbid it.
          rename_i c more
          split at h
          · rename_i hopens
            obtain ⟨⟨close, after'⟩, hclose, heq⟩ := Option.map_eq_some_iff.1 h
            cases heq
            obtain ⟨rfl, hopens⟩ := hopens
            exact .inr ⟨more, close, hopens, by rw [hr], hclose, by rw [hr]⟩
          · cases h
        · cases h
      · cases h
  · rintro (⟨quote, rest, close, hquote, rfl, hclose, rfl⟩ |
      ⟨rest, close, hopens, rfl, hclose, rfl⟩)
    · rw [literal?.eq_def]
      dsimp only
      rw [if_pos hquote, hclose]
      rfl
    · rw [literal?.eq_def]
      dsimp only
      rw [if_neg (by decide), if_pos rfl, if_pos ⟨rfl, hopens⟩, hclose]
      rfl

/-- What is recognized as a literal is recognized whatever follows. -/
theorem literal?_append {before text lit after : Text}
    (h : literal? before text = some (lit, after)) (rest : Text) :
    literal? before (lit ++ rest) = some (lit, rest) := by
  rw [literal?_eq_some_iff] at h ⊢
  rcases h with ⟨quote, more, close, hquote, -, hclose, rfl⟩ | ⟨more, close, hopens, -, hclose, rfl⟩
  · exact .inl ⟨quote, close ++ rest, close, hquote, rfl, closeQuote?_append hclose rest, rfl⟩
  · exact .inr ⟨close ++ rest, close, hopens, rfl, closeRawString?_append hclose rest, rfl⟩

/-- A literal that ends within a part of a text is recognized in the part. -/
theorem literal?_of_append {before part rest lit after : Text}
    (h : literal? before (part ++ rest) = some (lit, after ++ rest)) :
    literal? before part = some (lit, after) := by
  have hpart : part = lit ++ after := by
    have hwhole := (literal?_eq_append h).1
    rw [← List.append_assoc] at hwhole
    exact List.append_cancel_right hwhole
  rw [hpart]
  exact literal?_append h after

/-- Where no literal is recognized, none is recognized in a part of the text. -/
theorem literal?_eq_none_of_append {before part rest : Text}
    (h : literal? before (part ++ rest) = none) : literal? before part = none := by
  rw [Option.eq_none_iff_forall_ne_some]
  rintro ⟨lit, after⟩ hpart
  rw [(literal?_eq_append hpart).1, List.append_assoc, literal?_append hpart] at h
  cases h

/-- Of what was read before, a literal depends on whether a raw string can start only. -/
theorem literal?_congr {before before' : Text}
    (h : opensRawString before = opensRawString before') :
    literal? before = literal? before' := by
  funext text
  unfold literal?
  rw [h]

/-- What was read before a byte that is not of a word does not decide whether a raw string can start
after it. -/
theorem opensRawString_append {b : UInt8} (hb : Byte.isWordByte b = false) (middle before : Text) :
    opensRawString (middle ++ b :: before) = opensRawString middle := by
  -- The encoding marks are of words.
  have hmark : b ≠ 0x38 ∧ b ≠ 0x4C ∧ b ≠ 0x75 ∧ b ≠ 0x55 := by
    refine ⟨?_, ?_, ?_, ?_⟩ <;> rintro rfl <;> exact absurd hb (by decide)
  -- The answer is in the last three bytes.
  rcases middle with _ | ⟨c, _ | ⟨d, _ | ⟨e, middle⟩⟩⟩
  all_goals simp [opensRawString, atWordStart, hmark, hb]

/-! ## Pieces -/

/-- What the scans of this library have in common: from left to right, a text is read in pieces. -/
structure IsScan {α : Type} (source : α → Text) (piece : Text → UInt8 → Text → α × Text)
    (scan : Text → Text → List α) : Prop where
  /-- An empty text has no pieces. -/
  nil : ∀ before, scan before [] = []
  /-- The first piece is followed by those of the text after it. -/
  cons : ∀ before b text, scan before (b :: text) = (piece before b text).1 ::
    scan ((source (piece before b text).1).reverse ++ before) (piece before b text).2
  /-- A piece and the text after it are the whole text. -/
  source_piece : ∀ before b text,
    b :: text = source (piece before b text).1 ++ (piece before b text).2
  /-- A piece takes at least the first byte. -/
  length_rest_le : ∀ before b text, (piece before b text).2.length ≤ text.length
  /-- A piece that ends within a part of a text is found in the part. -/
  piece_of_append : ∀ {before b part rest found after},
    piece before b (part ++ rest) = (found, after ++ rest) → piece before b part = (found, after)
  /-- Of what was read before, a piece depends on whether a raw string can start only. -/
  piece_congr : ∀ {before before'}, opensRawString before = opensRawString before' →
    piece before = piece before'

namespace IsScan

variable {α : Type} {source : α → Text} {piece : Text → UInt8 → Text → α × Text}
  {scan : Text → Text → List α}

theorem source_ne_nil (h : IsScan source piece scan) (before : Text) (b : UInt8) (text : Text) :
    source (piece before b text).1 ≠ [] := by
  intro hnil
  have hwhole := congrArg List.length (h.source_piece before b text)
  have hrest := h.length_rest_le before b text
  rw [hnil, List.nil_append, List.length_cons] at hwhole
  omega

/-- The pieces of a text after some of them are those of the text that is left. -/
theorem scan_append (h : IsScan source piece scan) {before text : Text} {front rest : List α}
    (hscan : scan before text = front ++ rest) :
    ∃ after, text = front.flatMap source ++ after ∧
      rest = scan ((front.flatMap source).reverse ++ before) after := by
  induction front generalizing before text with
  | nil => exact ⟨text, rfl, hscan.symm⟩
  | cons first front ih =>
    cases text with
    | nil =>
      rw [h.nil] at hscan
      cases hscan
    | cons b text =>
      rw [h.cons] at hscan
      obtain ⟨rfl, hmore⟩ := List.cons.inj hscan
      obtain ⟨after, htext, hrest⟩ := ih hmore
      refine ⟨after, ?_, ?_⟩
      · rw [h.source_piece before b text, htext, List.flatMap_cons, List.append_assoc]
      · rw [hrest, List.flatMap_cons, List.reverse_append, List.append_assoc]

/-- The pieces of a text up to a place where one ends are those of the text up to there alone. -/
theorem scan_front (h : IsScan source piece scan) {before start after : Text} {front rest : List α}
    (hscan : scan before (start ++ after) = front ++ rest) (hfront : front.flatMap source = start) :
    front = scan before start := by
  induction front generalizing before start with
  | nil => rw [← hfront, List.flatMap_nil, h.nil]
  | cons first front ih =>
    rw [List.flatMap_cons] at hfront
    cases start with
    | nil =>
      -- The first piece has a first byte.
      have hempty := (List.append_eq_nil_iff.1 hfront).1
      rw [List.nil_append] at hscan
      cases after with
      | nil =>
        rw [h.nil] at hscan
        cases hscan
      | cons b after =>
        rw [h.cons] at hscan
        obtain ⟨rfl, -⟩ := List.cons.inj hscan
        exact absurd hempty (h.source_ne_nil before b after)
    | cons b part =>
      rw [List.cons_append, h.cons] at hscan
      obtain ⟨hfirst, hmore⟩ := List.cons.inj hscan
      have hafter : (piece before b (part ++ after)).2 = front.flatMap source ++ after := by
        have hwhole := h.source_piece before b (part ++ after)
        rw [hfirst, ← List.cons_append, ← hfront, List.append_assoc] at hwhole
        exact (List.append_cancel_left hwhole).symm
      have hpiece : piece before b part = (first, front.flatMap source) := by
        apply h.piece_of_append
        rw [← hfirst, ← hafter]
      rw [hfirst, hafter] at hmore
      rw [h.cons, hpiece]
      exact congrArg (first :: ·) (ih hmore rfl)

/-- A piece that ends within a part of a text is the piece of the part. -/
theorem piece_append (h : IsScan source piece scan) {before : Text} {b : UInt8} {part rest : Text}
    (hends : ∃ after, (piece before b (part ++ rest)).2 = after ++ rest) :
    piece before b (part ++ rest) =
      ((piece before b part).1, (piece before b part).2 ++ rest) := by
  obtain ⟨after, hafter⟩ := hends
  have hpart : piece before b part = ((piece before b (part ++ rest)).1, after) :=
    h.piece_of_append (Prod.ext rfl hafter)
  rw [hpart]
  exact Prod.ext rfl hafter

/-- If every piece of a text is the same with more after the text, the pieces of both are those of
the text and those of what follows. -/
theorem scan_text_append (h : IsScan source piece scan) {rest : Text} {P : Text → Text → Prop}
    (hpiece : ∀ {before b part}, P before (b :: part) → piece before b (part ++ rest) =
      ((piece before b part).1, (piece before b part).2 ++ rest))
    (hnext : ∀ {before b part}, P before (b :: part) →
      P ((source (piece before b part).1).reverse ++ before) (piece before b part).2)
    {before text : Text} (htext : P before text) :
    scan before (text ++ rest) = scan before text ++ scan (text.reverse ++ before) rest := by
  induction hlength : text.length using Nat.strongRecOn generalizing before text with
  | ind n ih =>
    cases text with
    | nil =>
      rw [h.nil]
      rfl
    | cons b part =>
      have hshorter : (piece before b part).2.length < n := by
        have hrest := h.length_rest_le before b part
        rw [← hlength, List.length_cons]
        omega
      rw [List.cons_append, h.cons, hpiece htext, h.cons before b part,
        ih _ hshorter (hnext htext) rfl, List.cons_append, ← List.append_assoc,
        ← List.reverse_append, ← h.source_piece]

/-- After a byte that is not of a word, the pieces are those of a text with nothing before it. -/
theorem scan_after (h : IsScan source piece scan) {b : UInt8} (hb : Byte.isWordByte b = false)
    (before text : Text) : scan (b :: before) text = scan [] text := by
  suffices hmiddle : ∀ middle, scan (middle ++ b :: before) text = scan middle text from hmiddle []
  intro middle
  induction hlength : text.length using Nat.strongRecOn generalizing middle text with
  | ind n ih =>
    cases text with
    | nil => rw [h.nil, h.nil]
    | cons c text =>
      have hpiece := h.piece_congr (opensRawString_append hb middle before)
      rw [h.cons, h.cons, hpiece]
      generalize hfound : piece middle c text = found
      have hshorter : found.2.length < n := by
        have hrest := h.length_rest_le middle c text
        rw [hfound] at hrest
        rw [← hlength, List.length_cons]
        omega
      rw [← List.append_assoc, ih _ hshorter _ _ rfl]

/-- What a scan makes of the text before and after a piece that ends in a quote. -/
theorem around (h : IsScan source piece scan) {start body after : Text} {found : α}
    {front rest : List α}
    (hscan : scan [] (start ++ (source found ++ after)) = front ++ found :: rest)
    (hfront : front.flatMap source = start) (hfound : source found = body ++ [Byte.doubleQuote]) :
    front = scan [] start ∧ rest = scan [Byte.doubleQuote] after := by
  refine ⟨h.scan_front hscan hfront, ?_⟩
  obtain ⟨after', hafter', hrest⟩ := h.scan_append (hscan.trans (List.append_cons front found rest))
  rw [List.flatMap_append, hfront, List.flatMap_singleton, List.append_assoc] at hafter'
  have heq : after = after' := List.append_cancel_left (List.append_cancel_left hafter')
  rw [hrest, ← heq, List.flatMap_append, List.flatMap_singleton, hfound, List.reverse_append,
    List.reverse_append, List.reverse_singleton, List.append_assoc, List.append_assoc]
  exact (h.scan_after (by decide) _ after).trans (h.scan_after (by decide) [] after).symm

end IsScan

/-! ## The two scans -/

/-- A run of bytes that ends within a part of a text is the run of the part. -/
theorem takeWhile_of_append {p : UInt8 → Bool} {part rest after : Text}
    (h : (part ++ rest).dropWhile p = after ++ rest) :
    (part ++ rest).takeWhile p = part.takeWhile p ∧ part.dropWhile p = after := by
  induction part with
  | nil =>
    have hsplit := List.takeWhile_append_dropWhile (l := rest) (p := p)
    rw [List.nil_append] at h ⊢
    rw [h, ← List.append_assoc] at hsplit
    have hnil := List.append_eq_nil_iff.1 (List.append_left_eq_self.1 hsplit)
    exact ⟨hnil.1, hnil.2.symm⟩
  | cons b part ih =>
    rw [List.cons_append, List.dropWhile_cons] at h
    rw [List.cons_append, List.takeWhile_cons, List.takeWhile_cons, List.dropWhile_cons]
    split at h
    · rename_i hb
      obtain ⟨htake, hdrop⟩ := ih h
      rw [if_pos hb, if_pos hb, if_pos hb, htake]
      exact ⟨rfl, hdrop⟩
    · rename_i hb
      rw [if_neg hb, if_neg hb, if_neg hb]
      exact ⟨rfl, List.append_cancel_right h⟩

theorem dropPrefix?_of_append {start part rest after : Text}
    (h : Text.dropPrefix? start (part ++ rest) = some (after ++ rest)) :
    Text.dropPrefix? start part = some after := by
  rw [Text.dropPrefix?_eq_some_iff, ← List.append_assoc] at h
  exact Text.dropPrefix?_eq_some_iff.2 (List.append_cancel_right h)

theorem dropPrefix?_eq_none_of_append {start part rest : Text}
    (h : Text.dropPrefix? start (part ++ rest) = none) : Text.dropPrefix? start part = none := by
  rw [Option.eq_none_iff_forall_ne_some]
  intro after hafter
  rw [Text.dropPrefix?_eq_some_iff] at hafter
  have hlong : Text.dropPrefix? start (part ++ rest) = some (after ++ rest) := by
    rw [Text.dropPrefix?_eq_some_iff, hafter, List.append_assoc]
  rw [h] at hlong
  cases hlong

/-- A segment that ends within a part of a text is found in the part. -/
theorem segment_of_append {before : Text} {b : UInt8} {part rest after : Text} {found : Segment}
    (h : segment before b (part ++ rest) = (found, after ++ rest)) :
    segment before b part = (found, after) := by
  have hpart : b :: part = found.source ++ after := by
    have hwhole := source_segment before b (part ++ rest)
    rw [h, ← List.cons_append, ← List.append_assoc] at hwhole
    exact List.append_cancel_right hwhole
  unfold segment at h ⊢
  rw [← List.cons_append] at h
  split at h
  · -- A literal.
    rename_i lit after' hlit
    cases h
    rw [literal?_of_append hlit]
  · rename_i hlit
    rw [literal?_eq_none_of_append hlit]
    dsimp only
    split at h
    · rename_i body hbody
      split at h
      · -- A block comment.
        rename_i comment after' hcut
        cases h
        have hopen : Text.dropPrefix? blockOpen (b :: part) =
            some (comment ++ (blockClose ++ after)) := by
          rw [Text.dropPrefix?_eq_some_iff, hpart, Segment.source, List.append_assoc,
            List.append_assoc]
        rw [hopen]
        dsimp only
        rw [Text.cut?_append hcut]
      · -- A comment that is never closed takes the whole text, so nothing follows the part.
        rename_i hcut
        obtain ⟨rfl, hnil⟩ := Prod.mk.inj h
        obtain ⟨rfl, rfl⟩ := List.append_eq_nil_iff.1 hnil.symm
        rw [List.append_nil] at hbody
        rw [hbody]
        dsimp only
        rw [hcut]
    · rename_i hblock
      rw [dropPrefix?_eq_none_of_append hblock]
      dsimp only
      split at h
      · -- A line comment.
        rename_i body hbody
        obtain ⟨rfl, hafter⟩ := Prod.mk.inj h
        generalize htake : body.takeWhile (· != Byte.newline) = comment at hpart ⊢
        have hsplit := List.takeWhile_append_dropWhile (l := body) (p := (· != Byte.newline))
        rw [htake, hafter, ← List.append_assoc] at hsplit
        rw [← hsplit] at hbody hafter htake
        obtain ⟨htakes, hdrops⟩ := takeWhile_of_append hafter
        rw [dropPrefix?_of_append hbody]
        dsimp only
        rw [← htakes, hdrops, htake]
      · -- A single byte.
        rename_i hline
        rw [dropPrefix?_eq_none_of_append hline]
        obtain ⟨rfl, hafter⟩ := Prod.mk.inj h
        rw [List.append_cancel_right hafter]

theorem isScan_segmentsFrom : IsScan Segment.source segment segmentsFrom where
  nil before := by rw [segmentsFrom]
  cons before b text := by rw [segmentsFrom]
  source_piece := source_segment
  length_rest_le := length_rest_segment_le
  piece_of_append := segment_of_append
  piece_congr h := by
    funext b text
    rw [segment, segment, literal?_congr h]

/-- A stretch that ends within a part of a text is found in the part. -/
theorem stretch_of_append {before : Text} {b : UInt8} {part rest after : Text} {found : Stretch}
    (h : stretch before b (part ++ rest) = (found, after ++ rest)) :
    stretch before b part = (found, after) := by
  unfold stretch at h ⊢
  rw [← List.cons_append] at h
  split at h
  · rename_i lit after' hlit
    cases h
    rw [literal?_of_append hlit]
  · rename_i hlit
    rw [literal?_eq_none_of_append hlit]
    dsimp only
    split at h
    · rename_i hb
      obtain ⟨rfl, hafter⟩ := Prod.mk.inj h
      rw [if_pos hb, List.append_cancel_right hafter]
    · rename_i hb
      rw [if_neg hb]
      split at h
      · rename_i hspace
        obtain ⟨rfl, hafter⟩ := Prod.mk.inj h
        obtain ⟨htake, hdrop⟩ := takeWhile_of_append hafter
        rw [if_pos hspace, htake, hdrop]
      · rename_i hspace
        obtain ⟨rfl, hafter⟩ := Prod.mk.inj h
        rw [if_neg hspace, List.append_cancel_right hafter]

theorem isScan_stretchesFrom : IsScan Stretch.source stretch stretchesFrom where
  nil before := by rw [stretchesFrom]
  cons before b text := by rw [stretchesFrom]
  source_piece := source_stretch
  length_rest_le := length_rest_stretch_le
  piece_of_append := stretch_of_append
  piece_congr h := by
    funext b text
    rw [stretch, stretch, literal?_congr h]

end HeaderMacros.Source
