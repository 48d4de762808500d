import HeaderMacros.Text.Basic

/-!
# Splitting and joining texts

Pieces without separators, put together with separators between them, are split into the same pieces
(`splitOn_join`), and a text is cut where a pattern occurs first or not at all.
-/

namespace HeaderMacros.Text

variable {sep : UInt8}

/-! ## Pieces -/

theorem splitOn_ne_nil (sep : UInt8) (text : Text) : splitOn sep text ≠ [] := by
  induction text with
  | nil => exact List.cons_ne_nil _ _
  | cons b text ih =>
    rw [splitOn]
    split
    · exact List.cons_ne_nil _ _
    · cases h : splitOn sep text with
      | nil => exact absurd h ih
      | cons piece pieces => exact List.cons_ne_nil _ _

theorem splitOn_cons_of_ne {b : UInt8} (h : b ≠ sep) {text piece : Text} {pieces : List Text}
    (htext : splitOn sep text = piece :: pieces) :
    splitOn sep (b :: text) = (b :: piece) :: pieces := by
  rw [splitOn, if_neg h, htext, List.modifyHead_cons]

/-- A separator ends a piece. -/
theorem splitOn_append_sep (before after : Text) :
    splitOn sep (before ++ sep :: after) = splitOn sep before ++ splitOn sep after := by
  induction before with
  | nil => exact if_pos rfl
  | cons b before ih =>
    rw [List.cons_append, splitOn, splitOn, ih]
    obtain ⟨piece, pieces, h⟩ := List.exists_cons_of_ne_nil (splitOn_ne_nil sep before)
    split
    · rw [List.cons_append]
    · rw [h, List.cons_append, List.modifyHead_cons, List.modifyHead_cons, List.cons_append]

/-- Text without separators belongs to the first piece. -/
theorem splitOn_append_of_notMem {before : Text} (h : sep ∉ before) {text piece : Text}
    {pieces : List Text} (htext : splitOn sep text = piece :: pieces) :
    splitOn sep (before ++ text) = (before ++ piece) :: pieces := by
  induction before with
  | nil => exact htext
  | cons b before ih =>
    rw [List.mem_cons, not_or] at h
    exact splitOn_cons_of_ne (Ne.symm h.1) (ih h.2)

theorem splitOn_of_notMem {text : Text} (h : sep ∉ text) : splitOn sep text = [text] := by
  have hone : splitOn sep (text ++ []) = [text ++ []] := splitOn_append_of_notMem h rfl
  rwa [List.append_nil] at hone

/-- No piece has a separator. -/
theorem notMem_of_mem_splitOn {text piece : Text} (h : piece ∈ splitOn sep text) : sep ∉ piece := by
  induction text generalizing piece with
  | nil => rw [List.mem_singleton.1 h]; exact List.not_mem_nil
  | cons b text ih =>
    rw [splitOn] at h
    split at h
    · rcases List.mem_cons.1 h with rfl | h
      · exact List.not_mem_nil
      · exact ih h
    · rename_i hb
      obtain ⟨first, pieces, heq⟩ := List.exists_cons_of_ne_nil (splitOn_ne_nil sep text)
      rw [heq, List.modifyHead_cons] at h
      rw [heq] at ih
      rcases List.mem_cons.1 h with rfl | h
      · rw [List.mem_cons, not_or]
        exact ⟨Ne.symm hb, ih List.mem_cons_self⟩
      · exact ih (List.mem_cons_of_mem first h)

/-- The pieces of a longer text before the last one of its start are those of the start. -/
theorem getElem?_splitOn_append_of_lt {start : Text} {k : Nat} (h : k < start.count sep)
    (text : Text) : (splitOn sep (start ++ text))[k]? = (splitOn sep start)[k]? := by
  induction start generalizing k with
  | nil => exact absurd h (Nat.not_lt_zero k)
  | cons b start ih =>
    rw [List.cons_append, splitOn, splitOn]
    split
    · rename_i hb
      rw [hb, List.count_cons_self] at h
      cases k with
      | zero => rfl
      | succ k =>
        rw [List.getElem?_cons_succ, List.getElem?_cons_succ]
        exact ih (by omega)
    · rename_i hb
      rw [List.count_cons_of_ne hb] at h
      rw [List.getElem?_modifyHead, List.getElem?_modifyHead, ih h]

/-- The pieces of a longer text after the last one of its start are those of the rest. -/
theorem getElem?_splitOn_append_of_gt {start : Text} {k : Nat} (h : start.count sep < k)
    (text : Text) :
    (splitOn sep (start ++ text))[k]? = (splitOn sep text)[k - start.count sep]? := by
  induction start generalizing k with
  | nil => rfl
  | cons b start ih =>
    rw [List.cons_append, splitOn]
    split
    · rename_i hb
      rw [hb, List.count_cons_self] at h ⊢
      obtain ⟨k, rfl⟩ := Nat.exists_eq_succ_of_ne_zero (Nat.ne_zero_of_lt h)
      rw [List.getElem?_cons_succ, ih (by omega)]
      congr 1
      omega
    · rename_i hb
      rw [List.count_cons_of_ne hb] at h ⊢
      rw [List.getElem?_modifyHead, if_neg (Nat.ne_zero_of_lt h), ih h]

/-! ## Joining -/

theorem join_cons {pieces : List Text} (h : pieces ≠ []) (sep piece : Text) :
    join sep (piece :: pieces) = piece ++ sep ++ join sep pieces := by
  cases pieces with
  | nil => exact absurd rfl h
  | cons next rest => rfl

/-- Pieces without separators, put together, are split into the same pieces. -/
theorem splitOn_join {pieces : List Text} (hne : pieces ≠ []) (h : ∀ piece ∈ pieces, sep ∉ piece) :
    splitOn sep (join [sep] pieces) = pieces := by
  induction pieces with
  | nil => exact absurd rfl hne
  | cons piece pieces ih =>
    have hpiece := splitOn_of_notMem (h piece List.mem_cons_self)
    cases pieces with
    | nil => exact hpiece
    | cons next rest =>
      have hrest := ih (List.cons_ne_nil next rest)
        fun other hother => h other (List.mem_cons_of_mem piece hother)
      rw [join_cons (List.cons_ne_nil next rest), List.append_assoc, List.singleton_append,
        splitOn_append_sep, hpiece, hrest, List.singleton_append]

/-- The pieces of a text, put together, are the text. -/
theorem join_splitOn (sep : UInt8) (text : Text) : join [sep] (splitOn sep text) = text := by
  induction text with
  | nil => rfl
  | cons b text ih =>
    obtain ⟨piece, pieces, h⟩ := List.exists_cons_of_ne_nil (splitOn_ne_nil sep text)
    by_cases hb : b = sep
    · rw [splitOn, if_pos hb, join_cons (splitOn_ne_nil sep text), ih, hb]
      rfl
    · rw [splitOn_cons_of_ne hb h]
      rw [h] at ih
      cases pieces with
      | nil => exact congrArg (b :: ·) ih
      | cons next rest => exact congrArg (b :: ·) ih

/-- Joining adds a separator after each piece but the last. -/
theorem length_join {pieces : List Text} (h : pieces ≠ []) (sep : UInt8) :
    (join [sep] pieces).length + 1 = pieces.flatten.length + pieces.length := by
  induction pieces with
  | nil => exact absurd rfl h
  | cons piece pieces ih =>
    cases pieces with
    | nil => simp [join]
    | cons next rest =>
      have hrest := ih (List.cons_ne_nil next rest)
      rw [join_cons (List.cons_ne_nil next rest), List.flatten_cons, List.length_cons]
      simp only [List.length_append, List.length_singleton]
      omega

theorem length_splitOn (sep : UInt8) (text : Text) :
    (splitOn sep text).length = text.count sep + 1 := by
  induction text with
  | nil => rfl
  | cons b text ih =>
    rw [splitOn, List.count_cons]
    split
    · rename_i hb
      rw [List.length_cons, ih, if_pos (beq_iff_eq.2 hb)]
    · rename_i hb
      rw [List.length_modifyHead, ih, if_neg (by rwa [beq_iff_eq])]

theorem mem_join {sep : Text} {pieces : List Text} {b : UInt8} (h : b ∈ join sep pieces) :
    b ∈ sep ∨ ∃ piece ∈ pieces, b ∈ piece := by
  induction pieces with
  | nil => cases h
  | cons piece pieces ih =>
    cases pieces with
    | nil => exact .inr ⟨piece, List.mem_cons_self, h⟩
    | cons next rest =>
      rw [join_cons (List.cons_ne_nil next rest), List.append_assoc, List.mem_append,
        List.mem_append] at h
      rcases h with h | h | h
      · exact .inr ⟨piece, List.mem_cons_self, h⟩
      · exact .inl h
      · rcases ih h with h | ⟨other, hother, h⟩
        · exact .inl h
        · exact .inr ⟨other, List.mem_cons_of_mem piece hother, h⟩

theorem notMem_join {sep : Text} {b : UInt8} (hsep : b ∉ sep) {pieces : List Text}
    (h : ∀ piece ∈ pieces, b ∉ piece) : b ∉ join sep pieces := by
  intro hmem
  rcases mem_join hmem with hmem | ⟨piece, hpiece, hmem⟩
  · exact hsep hmem
  · exact h piece hpiece hmem

/-- The bytes of the pieces are bytes of the text that they are put together to. -/
theorem mem_join_of_mem {sep : Text} {pieces : List Text} {piece : Text} (hpiece : piece ∈ pieces)
    {b : UInt8} (hb : b ∈ piece) : b ∈ join sep pieces := by
  induction pieces with
  | nil => cases hpiece
  | cons first rest ih =>
    cases rest with
    | nil => exact List.mem_singleton.1 hpiece ▸ hb
    | cons next rest =>
      rw [join_cons (List.cons_ne_nil next rest), List.append_assoc, List.mem_append,
        List.mem_append]
      rcases List.mem_cons.1 hpiece with rfl | hpiece
      · exact .inl hb
      · exact .inr (.inr (ih hpiece))

/-- The bytes of the pieces of a text are bytes of the text. -/
theorem mem_of_mem_splitOn {text piece : Text} (hpiece : piece ∈ splitOn sep text) {b : UInt8}
    (hb : b ∈ piece) : b ∈ text := by
  rw [← join_splitOn sep text]
  exact mem_join_of_mem hpiece hb

/-! ## Finding a pattern -/

theorem dropPrefix?_eq_some_iff {start text rest : Text} :
    dropPrefix? start text = some rest ↔ text = start ++ rest := by
  refine ⟨eq_append_of_dropPrefix?, ?_⟩
  rintro rfl
  induction start with
  | nil => rfl
  | cons b start ih => rw [List.cons_append, dropPrefix?, if_pos rfl, ih]

/-- A text that cannot be cut does not have the pattern. -/
theorem not_isInfix_of_cut? {pattern text : Text} (h : cut? pattern text = none) :
    ¬ pattern <:+: text := by
  induction text with
  | nil =>
    intro hpattern
    rw [List.infix_nil] at hpattern
    rw [cut?, if_pos hpattern] at h
    cases h
  | cons b text ih =>
    rw [cut?] at h
    split at h
    · cases h
    · rename_i hstart
      intro hpattern
      rcases List.infix_cons_iff.1 hpattern with ⟨rest, hrest⟩ | hpattern
      · rw [dropPrefix?_eq_some_iff.2 hrest.symm] at hstart
        cases hstart
      · exact ih (Option.map_eq_none_iff.1 h) hpattern

/-- Where a text is cut does not depend on what follows the pattern there. -/
theorem cut?_append {pattern text before after : Text}
    (h : cut? pattern text = some (before, after)) (rest : Text) :
    cut? pattern (before ++ (pattern ++ rest)) = some (before, rest) := by
  have hstart : cut? pattern (pattern ++ rest) = some ([], rest) := by
    have hdrop : dropPrefix? pattern (pattern ++ rest) = some rest := dropPrefix?_eq_some_iff.2 rfl
    cases hwhole : pattern ++ rest with
    | nil =>
      obtain ⟨rfl, rfl⟩ := List.append_eq_nil_iff.1 hwhole
      rfl
    | cons b text => rw [cut?, ← hwhole, hdrop]
  induction text generalizing before with
  | nil =>
    rw [cut?] at h
    split at h
    · cases h
      exact hstart
    · cases h
  | cons b text ih =>
    have htext := eq_append_of_cut? h
    rw [cut?] at h
    split at h
    · cases h
      exact hstart
    · rename_i hnone
      obtain ⟨⟨before', after'⟩, hcut, heq⟩ := Option.map_eq_some_iff.1 h
      cases heq
      -- The pattern cannot start earlier: it would end before the rest, and be found in the text.
      have hlater : dropPrefix? pattern (b :: (before' ++ (pattern ++ rest))) = none := by
        rw [Option.eq_none_iff_forall_ne_some]
        intro other hother
        have hprefix : pattern <+: b :: before' ++ pattern := by
          have hlong : b :: before' ++ pattern <+: b :: (before' ++ (pattern ++ rest)) :=
            ⟨rest, by simp⟩
          have hlength : pattern.length ≤ (b :: before' ++ pattern).length := by
            rw [List.length_append]
            omega
          exact List.prefix_of_prefix_length_le
            ⟨other, (dropPrefix?_eq_some_iff.1 hother).symm⟩ hlong hlength
        obtain ⟨more, hmore⟩ := hprefix
        have hfound : dropPrefix? pattern (b :: text) = some (more ++ after') := by
          rw [dropPrefix?_eq_some_iff, htext, ← hmore, List.append_assoc]
        rw [hfound] at hnone
        cases hnone
      rw [List.cons_append, cut?, hlater, ih hcut]
      rfl

/-! ## Cutting at the first separator -/

theorem cut?_append_sep {before : Text} (h : sep ∉ before) (after : Text) :
    cut? [sep] (before ++ sep :: after) = some (before, after) := by
  induction before with
  | nil => rw [List.nil_append, cut?, dropPrefix?, if_pos rfl, dropPrefix?]
  | cons b before ih =>
    rw [List.mem_cons, not_or] at h
    rw [List.cons_append, cut?, dropPrefix?, if_neg h.1, ih h.2, Option.map_some]

/-- A text has one first separator. -/
theorem eq_of_append_sep {before before' after after' : Text} (hbefore : sep ∉ before)
    (hbefore' : sep ∉ before') (h : before ++ sep :: after = before' ++ sep :: after') :
    before = before' ∧ after = after' := by
  have hcut := congrArg (cut? [sep]) h
  rw [cut?_append_sep hbefore, cut?_append_sep hbefore'] at hcut
  exact Prod.mk.inj (Option.some.inj hcut)

/-- A text is cut at its first separator. -/
theorem cut?_sep_eq_some_iff {text before after : Text} :
    cut? [sep] text = some (before, after) ↔ text = before ++ sep :: after ∧ sep ∉ before := by
  constructor
  · intro h
    by_cases hmem : sep ∈ text
    · obtain ⟨first, rest, rfl, hfirst⟩ := List.eq_append_cons_of_mem hmem
      rw [cut?_append_sep hfirst] at h
      cases h
      exact ⟨rfl, hfirst⟩
    · rw [eq_append_of_cut? h] at hmem
      exact absurd (by simp) hmem
  · rintro ⟨rfl, hbefore⟩
    exact cut?_append_sep hbefore after

theorem splitAtMost_append_sep {before : Text} (h : sep ∉ before) (count : Nat) (after : Text) :
    splitAtMost sep (count + 1) (before ++ sep :: after) =
      before :: splitAtMost sep count after := by
  rw [splitAtMost, cut?_append_sep h]

/-- Every piece but the last one goes on to the next separator. -/
theorem splitAtMost_eq_cons {count : Nat} {text piece next : Text} {rest : List Text}
    (h : splitAtMost sep (count + 1) text = piece :: next :: rest) :
    ∃ after, text = piece ++ sep :: after ∧ sep ∉ piece ∧
      splitAtMost sep count after = next :: rest := by
  rw [splitAtMost] at h
  split at h
  · cases h
  · rename_i first after hcut
    obtain ⟨rfl, hafter⟩ := List.cons.inj h
    obtain ⟨htext, hpiece⟩ := cut?_sep_eq_some_iff.1 hcut
    exact ⟨after, htext, hpiece, hafter⟩

/-! ## The ends of a text -/

/-- A run of bytes goes on to a text that does not start with one of them. -/
theorem span_append {p : UInt8 → Bool} {front rest : Text} (hfront : ∀ b ∈ front, p b = true)
    (hrest : ∀ b ∈ rest.head?, p b = false) :
    (front ++ rest).takeWhile p = front ∧ (front ++ rest).dropWhile p = rest := by
  have hstop : rest.takeWhile p = [] ∧ rest.dropWhile p = rest := by
    cases rest with
    | nil => exact ⟨rfl, rfl⟩
    | cons c rest =>
      have hc : ¬ p c = true := Bool.eq_false_iff.1 (hrest c rfl)
      exact ⟨List.takeWhile_cons_of_neg hc, List.dropWhile_cons_of_neg hc⟩
  rw [List.takeWhile_append_of_pos hfront, List.dropWhile_append_of_pos hfront, hstop.1, hstop.2,
    List.append_nil]
  exact ⟨rfl, rfl⟩

/-- Every text is a run of bytes and what follows it. -/
theorem exists_span (p : UInt8 → Bool) (text : Text) : ∃ front rest : Text, text = front ++ rest ∧
    (∀ b ∈ front, p b = true) ∧ ∀ b ∈ rest.head?, p b = false := by
  refine ⟨text.takeWhile p, text.dropWhile p, List.takeWhile_append_dropWhile.symm,
    fun b hb => List.all_eq_true.1 List.all_takeWhile b hb, fun b hb => ?_⟩
  have hstop := List.head?_dropWhile_not p text
  rw [Option.mem_def.1 hb] at hstop
  exact hstop

theorem dropLastIf_isPrefix (b : UInt8) (text : Text) : dropLastIf b text <+: text := by
  rw [dropLastIf]
  split
  · exact List.dropLast_prefix text
  · exact List.prefix_rfl

end HeaderMacros.Text
