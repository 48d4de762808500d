import HeaderMacros.Proofs.Source.Continuation
import HeaderMacros.Proofs.Source.Scanning
import HeaderMacros.Source.Normalize
import Mathlib.Data.List.Chain

/-!
# Texts in normal form

A text in which there is nothing to prepare for reading: no literal, no comment, no continued line,
and white space inside a line only as single spaces between other bytes. All of this shows in the
bytes that the text has and in the pairs of bytes that stand side by side, so a text in normal form
can be put together from such texts (`IsNormal.append`). Normalizing leaves it as it is
(`normalize_of_isNormal`).
-/

namespace HeaderMacros.Source

theorem isLineSpace_of_solid {b : UInt8} (h : Byte.isSpace b = false) : isLineSpace b = false := by
  refine Bool.eq_false_iff.2 fun hspace => ?_
  simp only [isLineSpace, Byte.isHorizontalSpace, Bool.or_eq_true, beq_iff_eq, or_assoc] at hspace
  rcases hspace with rfl | rfl | rfl | rfl | rfl <;> exact absurd h (by decide)

/-- Two bytes that may stand side by side where there is nothing to prepare. -/
structure Apart (b c : UInt8) : Prop where
  /-- They do not continue a line. -/
  ended : b = Byte.backslash → c ≠ Byte.newline
  /-- They do not open a block comment. -/
  notBlock : [b, c] ≠ blockOpen
  /-- They do not open a line comment. -/
  notLine : [b, c] ≠ lineOpen
  /-- The second is no white space that would be dropped. -/
  spaced : isLineSpace c = true → b ≠ Byte.newline ∧ isLineSpace b = false

instance : DecidableRel Apart := fun b c =>
  decidable_of_iff ((b = Byte.backslash → c ≠ Byte.newline) ∧ [b, c] ≠ blockOpen ∧
    [b, c] ≠ lineOpen ∧ (isLineSpace c = true → b ≠ Byte.newline ∧ isLineSpace b = false))
    ⟨fun ⟨hended, hblock, hline, hspaced⟩ => ⟨hended, hblock, hline, hspaced⟩,
    fun h => ⟨h.ended, h.notBlock, h.notLine, h.spaced⟩⟩

/-- Only a slash opens a comment. -/
theorem pair_ne_marks {b c : UInt8} (h : b ≠ Byte.slash) :
    [b, c] ≠ blockOpen ∧ [b, c] ≠ lineOpen :=
  ⟨fun heq => h (List.head_eq_of_cons_eq heq), fun heq => h (List.head_eq_of_cons_eq heq)⟩

/-- A byte that is no white space stands apart, unless a comment opens with it. -/
theorem Apart.of_solid {b c : UInt8} (hc : Byte.isSpace c = false) (hblock : [b, c] ≠ blockOpen)
    (hline : [b, c] ≠ lineOpen) : Apart b c := by
  refine ⟨?_, hblock, hline, ?_⟩
  · rintro - rfl
    exact absurd hc (by decide)
  · intro hspace
    rw [isLineSpace_of_solid hc] at hspace
    cases hspace

/-- No quote stands in a text, so no literal starts in it. -/
def Unquoted (text : Text) : Prop := Byte.doubleQuote ∉ text ∧ Byte.singleQuote ∉ text

instance (text : Text) : Decidable (Unquoted text) :=
  inferInstanceAs (Decidable (Byte.doubleQuote ∉ text ∧ Byte.singleQuote ∉ text))

theorem Unquoted.tail {b : UInt8} {text : Text} (h : Unquoted (b :: text)) : Unquoted text :=
  ⟨fun hmem => h.1 (List.mem_cons_of_mem b hmem), fun hmem => h.2 (List.mem_cons_of_mem b hmem)⟩

/-- A text in which there is nothing to prepare for reading. -/
structure IsNormal (text : Text) : Prop where
  /-- There is no literal. -/
  unquoted : Unquoted text
  /-- All white space inside a line is the space. -/
  spaces : ∀ b ∈ text, isLineSpace b = true → b = Byte.space
  /-- It does not start with white space. -/
  start : ∀ b ∈ text.head?, isLineSpace b = false
  /-- No two bytes of it are joined, dropped or taken for a comment. -/
  apart : text.IsChain Apart

theorem isNormal_nil : IsNormal [] where
  unquoted := ⟨List.not_mem_nil, List.not_mem_nil⟩
  spaces _ hb := absurd hb List.not_mem_nil
  start _ hb := absurd hb (by simp)
  apart := .nil

/-- After a line that ends, a text in normal form may follow. -/
theorem IsNormal.append {text rest : Text} (h : IsNormal text)
    (hlast : text.getLast? = some Byte.newline) (hrest : IsNormal rest) :
    IsNormal (text ++ rest) where
  unquoted := by
    simp only [Unquoted, List.mem_append, not_or]
    exact ⟨⟨h.unquoted.1, hrest.unquoted.1⟩, h.unquoted.2, hrest.unquoted.2⟩
  spaces b hb := by
    rcases List.mem_append.1 hb with hb | hb
    · exact h.spaces b hb
    · exact hrest.spaces b hb
  start b hb := by
    have hne : text ≠ [] := by
      rintro rfl
      cases hlast
    rw [List.head?_append_of_ne_nil text hne] at hb
    exact h.start b hb
  apart := by
    refine List.isChain_append.2 ⟨h.apart, hrest.apart, ?_⟩
    -- Where the two meet, a newline comes before a byte that is no white space inside a line.
    intro b hb c hc
    obtain rfl : Byte.newline = b := Option.some.inj (hlast.symm.trans hb)
    obtain ⟨hblock, hline⟩ := pair_ne_marks (c := c) (by decide : Byte.newline ≠ Byte.slash)
    refine ⟨fun hb => absurd hb (by decide), hblock, hline, ?_⟩
    intro hspace
    rw [hrest.start c hc] at hspace
    cases hspace

/-! ## Line ends and continued lines -/

theorem unifyLineEnds_eq_self {text : Text} (h : Byte.carriageReturn ∉ text) :
    Text.unifyLineEnds text = text := by
  fun_induction Text.unifyLineEnds text with
  | case1 => rfl
  | case2 => rfl
  | case3 b c rest hb => exact absurd (hb.1 ▸ List.mem_cons_self) h
  | case4 b c rest hb ih => rw [ih fun hmem => h (List.mem_cons_of_mem b hmem)]

/-- Nothing is joined where no backslash ends a line. -/
theorem splice_eq_self {text : Text} (h : text.IsChain Apart) : splice text = text := by
  rw [splice_eq_spliceFrom]
  induction text using line_induction with
  | last line hline =>
    rw [spliceFrom_last hline, List.replicate_zero, List.append_nil]
  | continued line rest hline hcontinued ih =>
    have hjoint := (List.isChain_append.1 h).2.2 Byte.backslash (beq_iff_eq.1 hcontinued)
      Byte.newline rfl
    exact absurd rfl (hjoint.ended rfl)
  | ended line rest hline hended ih =>
    have hrest : rest.IsChain Apart := (List.isChain_append.1 h).2.1.tail
    rw [spliceFrom_of_not_isContinued hline hended, ih hrest]
    rfl

/-! ## Literals and comments -/

theorem Unquoted.literal?_eq_none {text : Text} (h : Unquoted text) (before : Text) :
    literal? before text = none := by
  rw [Option.eq_none_iff_forall_ne_some]
  rintro ⟨lit, after⟩ hlit
  rcases literal?_eq_some_iff.1 hlit with ⟨quote, rest, close, hquote, rfl, -⟩ |
    ⟨rest, close, -, rfl, -⟩
  · rcases hquote with rfl | rfl
    · exact h.1 List.mem_cons_self
    · exact h.2 List.mem_cons_self
  · exact h.1 (List.mem_cons_of_mem _ List.mem_cons_self)

/-- A mark of two bytes does not start a text whose first two bytes are others. -/
theorem dropPrefix?_pair_eq_none {b x y : UInt8} {text : Text}
    (h : ∀ c ∈ text.head?, [b, c] ≠ [x, y]) : Text.dropPrefix? [x, y] (b :: text) = none := by
  rw [Option.eq_none_iff_forall_ne_some]
  intro rest hrest
  cases Text.eq_append_of_dropPrefix? hrest
  exact h y rfl rfl

/-- The segments of a text with nothing to prepare are its bytes. -/
theorem segmentsFrom_eq_map_plain {text : Text} (hquotes : Unquoted text)
    (h : text.IsChain Apart) (before : Text) :
    segmentsFrom before text = text.map .plain := by
  induction text generalizing before with
  | nil => rw [segmentsFrom, List.map_nil]
  | cons b rest ih =>
    obtain ⟨hnext, hrest⟩ := List.isChain_cons.1 h
    have hsegment : segment before b rest = (.plain b, rest) := by
      have hblock : Text.dropPrefix? blockOpen (b :: rest) = none :=
        dropPrefix?_pair_eq_none fun c hc => (hnext c hc).notBlock
      have hline : Text.dropPrefix? lineOpen (b :: rest) = none :=
        dropPrefix?_pair_eq_none fun c hc => (hnext c hc).notLine
      rw [segment, hquotes.literal?_eq_none]
      simp only [hblock, hline]
    rw [segmentsFrom, hsegment, List.map_cons, ih hquotes.tail hrest]

theorem stripSegments_map_plain (text : Text) (line : Nat) :
    stripSegments line (text.map .plain) = .ok text := by
  induction text generalizing line with
  | nil => rfl
  | cons b rest ih =>
    rw [List.map_cons, stripSegments, Segment.kept?, ih]
    rfl

/-! ## White space -/

/-- Coalescing changes nothing where white space inside a line is a single space between other
bytes. -/
theorem coalesceStretches_stretchesFrom {text : Text} (hquotes : Unquoted text)
    (hspaces : ∀ b ∈ text, isLineSpace b = true → b = Byte.space) (h : text.IsChain Apart)
    {atStart : Bool} (hstart : atStart = true → ∀ b ∈ text.head?, isLineSpace b = false)
    (before : Text) : coalesceStretches atStart (stretchesFrom before text) = text := by
  induction text generalizing before atStart with
  | nil =>
    rw [stretchesFrom]
    rfl
  | cons b rest ih =>
    obtain ⟨hnext, hrest⟩ := List.isChain_cons.1 h
    have hfollow {atStart : Bool}
        (hstart : atStart = true → ∀ c ∈ rest.head?, isLineSpace c = false) (before : Text) :
        coalesceStretches atStart (stretchesFrom before rest) = rest :=
      ih hquotes.tail (fun c hc => hspaces c (List.mem_cons_of_mem b hc)) hrest hstart before
    -- Without quotes there are no literals, so every byte stands by itself or in a gap.
    rw [stretchesFrom, stretch, hquotes.literal?_eq_none]
    dsimp only
    split_ifs with hnewline hspace
    · -- No white space follows a newline, so a line starts here with nothing to drop.
      subst hnewline
      rw [coalesceStretches, hfollow]
      intro _ c hc
      exact Bool.eq_false_iff.2 fun hspace => ((hnext c hc).spaced hspace).1 rfl
    · -- The gap is one space: what follows it is no white space.
      have hstop : ∀ c ∈ rest.head?, isLineSpace c = false := fun c hc =>
        Bool.eq_false_iff.2 fun hc' => by
          rw [((hnext c hc).spaced hc').2] at hspace
          cases hspace
      obtain ⟨htake, hdrop⟩ : rest.takeWhile isLineSpace = [] ∧
          rest.dropWhile isLineSpace = rest := by
        cases rest with
        | nil => exact ⟨rfl, rfl⟩
        | cons c more => simp [hstop c rfl]
      have hinside : ¬ atStart = true := fun hstart' => by
        rw [hstart hstart' b rfl] at hspace
        cases hspace
      rw [htake, hdrop, coalesceStretches, if_neg hinside, hfollow fun _ => hstop,
        hspaces b List.mem_cons_self hspace]
    · rw [coalesceStretches, hfollow]
      exact fun hfalse => absurd hfalse Bool.false_ne_true

/-- Normalizing leaves a text in normal form as it is. -/
theorem normalize_of_isNormal {text : Text} (h : IsNormal text) : normalize text = .ok text := by
  have hreturn : Byte.carriageReturn ∉ text := fun hmem =>
    absurd (h.spaces _ hmem (by decide)) (by decide)
  have hstrip : strip text = .ok text := by
    rw [strip, segments, segmentsFrom_eq_map_plain h.unquoted h.apart,
      stripSegments_map_plain]
  have hcoalesce : coalesce text = text :=
    coalesceStretches_stretchesFrom h.unquoted h.spaces h.apart (fun _ => h.start) []
  rw [normalize, unifyLineEnds_eq_self hreturn, splice_eq_self h.apart, hstrip]
  show Except.ok (coalesce text) = .ok text
  rw [hcoalesce]

end HeaderMacros.Source
