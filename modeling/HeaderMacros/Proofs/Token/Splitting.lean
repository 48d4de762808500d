import HeaderMacros.Token.Basic
import Mathlib.Data.List.TakeDrop
import Mathlib.Data.List.TakeWhile

/-!
# Splitting tokens around a text

What it means that tokens are split around the first or the last token with a given text: the parts
make up the whole, and the text does not occur in the part that was passed over. At commas tokens
are split into groups, of which there is at least one.
-/

namespace HeaderMacros.Tokens

variable {text : Text} {ts before after rest : List Token}

/-! ## The first token with a text -/

theorem splitFirst?_append {t : Token} (hbefore : ∀ u ∈ before, u.is text = false)
    (ht : t.is text = true) (after : List Token) :
    splitFirst? text (before ++ t :: after) = some (before, after) := by
  have hpass : ∀ u ∈ before, (!u.is text) = true := by
    intro u hu
    simp [hbefore u hu]
  rw [splitFirst?, List.span_eq_takeWhile_dropWhile, List.takeWhile_append_of_pos hpass,
    List.dropWhile_append_of_pos hpass]
  simp [ht]

/-- Either no token has the text, or there is a first one. -/
theorem forall_or_exists_first (text : Text) (ts : List Token) :
    (∀ u ∈ ts, u.is text = false) ∨
      ∃ front t back, ts = front ++ t :: back ∧ t.is text = true ∧
        ∀ u ∈ front, u.is text = false := by
  cases hfound : ts.find? fun u => u.is text with
  | none => exact .inl (by simpa using hfound)
  | some t =>
    obtain ⟨ht, front, back, hts, hfront⟩ := List.find?_eq_some_iff_append.1 hfound
    exact .inr ⟨front, t, back, hts, ht, by simpa using hfront⟩

theorem splitFirst?_eq_none_iff : splitFirst? text ts = none ↔ ∀ u ∈ ts, u.is text = false := by
  constructor
  · intro h
    rcases forall_or_exists_first text ts with hall | ⟨front, t, back, rfl, ht, hfront⟩
    · exact hall
    · rw [splitFirst?_append hfront ht] at h
      cases h
  · intro h
    have hdrop : ts.dropWhile (fun u => !u.is text) = [] := by
      simpa [List.dropWhile_eq_nil_iff] using h
    rw [splitFirst?, List.span_eq_takeWhile_dropWhile, hdrop]

theorem splitFirst?_eq_some_iff :
    splitFirst? text ts = some (before, after) ↔
      ∃ t, ts = before ++ t :: after ∧ t.is text = true ∧ ∀ u ∈ before, u.is text = false := by
  constructor
  · intro h
    rcases forall_or_exists_first text ts with hall | ⟨front, t, back, rfl, ht, hfront⟩
    · rw [splitFirst?_eq_none_iff.2 hall] at h
      cases h
    · rw [splitFirst?_append hfront ht] at h
      cases h
      exact ⟨t, rfl, ht, hfront⟩
  · rintro ⟨t, rfl, ht, hbefore⟩
    exact splitFirst?_append hbefore ht after

/-! ## The last token with a text -/

theorem splitLastFrom_of_forall (h : ∀ u ∈ ts, u.is text = false) (passed : List Token)
    (found : Option (List Token × List Token)) : splitLastFrom text passed found ts = found := by
  induction ts generalizing passed with
  | nil => rfl
  | cons t ts ih =>
    rw [splitLastFrom, h t List.mem_cons_self, if_neg Bool.false_ne_true]
    exact ih (fun u hu => h u (List.mem_cons_of_mem t hu)) _

theorem splitLastFrom_append {t : Token} (ht : t.is text = true)
    (hrest : ∀ u ∈ rest, u.is text = false) (front passed : List Token)
    (found : Option (List Token × List Token)) :
    splitLastFrom text passed found (front ++ t :: rest) =
      some (front.reverse ++ passed, rest) := by
  induction front generalizing passed found with
  | nil =>
    rw [List.nil_append, splitLastFrom, if_pos ht, splitLastFrom_of_forall hrest]
    rfl
  | cons u front ih =>
    rw [List.cons_append, splitLastFrom, ih]
    simp

theorem splitLast?_append {t : Token} (ht : t.is text = true)
    (hrest : ∀ u ∈ rest, u.is text = false) (front : List Token) :
    splitLast? text (front ++ t :: rest) = some (front.reverse, rest) := by
  have hany : (front ++ t :: rest).any (fun u => u.is text) = true := by simp [ht]
  rw [splitLast?, if_pos hany, splitLastFrom_append ht hrest, List.append_nil]

/-- Either no token has the text, or there is a last one. -/
theorem forall_or_exists_last (text : Text) (ts : List Token) :
    (∀ u ∈ ts, u.is text = false) ∨
      ∃ front t back, ts = front ++ t :: back ∧ t.is text = true ∧
        ∀ u ∈ back, u.is text = false := by
  rcases forall_or_exists_first text ts.reverse with hall | ⟨front, t, back, hts, ht, hfront⟩
  · exact .inl (by simpa using hall)
  · refine .inr ⟨back.reverse, t, front.reverse, ?_, ht, by simpa using hfront⟩
    simpa using congrArg List.reverse hts

theorem splitLast?_eq_none_iff : splitLast? text ts = none ↔ ∀ u ∈ ts, u.is text = false := by
  constructor
  · intro h
    rcases forall_or_exists_last text ts with hall | ⟨front, t, back, rfl, ht, hback⟩
    · exact hall
    · rw [splitLast?_append ht hback] at h
      cases h
  · intro h
    have hany : ts.any (fun u => u.is text) = false := by simpa using h
    rw [splitLast?, hany, if_neg Bool.false_ne_true]

/-- The tokens before the last one with a text are given in reverse. -/
theorem splitLast?_eq_some_iff :
    splitLast? text ts = some (before, rest) ↔
      ∃ t, ts = before.reverse ++ t :: rest ∧ t.is text = true ∧ ∀ u ∈ rest, u.is text = false := by
  constructor
  · intro h
    rcases forall_or_exists_last text ts with hall | ⟨front, t, back, rfl, ht, hback⟩
    · rw [splitLast?_eq_none_iff.2 hall] at h
      cases h
    · rw [splitLast?_append ht hback] at h
      cases h
      exact ⟨t, by rw [List.reverse_reverse], ht, hback⟩
  · rintro ⟨t, rfl, ht, hrest⟩
    rw [splitLast?_append ht hrest, List.reverse_reverse]

/-! ## Groups between commas -/

theorem splitOnCommas_ne_nil (ts : List Token) : splitOnCommas ts ≠ [] := by
  induction ts with
  | nil => simp [splitOnCommas]
  | cons t ts ih =>
    rw [splitOnCommas]
    split
    · simp
    · obtain ⟨first, groups, hgroups⟩ := List.exists_cons_of_ne_nil ih
      simp [hgroups]

/-- A single group is all the tokens. -/
theorem splitOnCommas_eq_singleton {ts : List Token}
    (h : (splitOnCommas ts).length = 1) : splitOnCommas ts = [ts] := by
  induction ts with
  | nil => rfl
  | cons t ts ih =>
    rw [splitOnCommas] at h ⊢
    split at h
    · have hne := List.length_pos_iff.2 (splitOnCommas_ne_nil ts)
      rw [List.length_cons] at h
      omega
    · rename_i hcomma
      rw [List.length_modifyHead] at h
      rw [if_neg hcomma, ih h, List.modifyHead_cons]

/-- Tokens with commas between them are split into one group for each of them. -/
theorem splitOnCommas_intersperse {comma : Token} (hcomma : comma.is [Byte.comma] = true)
    {ts : List Token} (hne : ts ≠ []) (h : ∀ t ∈ ts, t.is [Byte.comma] = false) :
    splitOnCommas (ts.intersperse comma) = ts.map ([·]) := by
  induction ts with
  | nil => exact absurd rfl hne
  | cons t ts ih =>
    obtain ⟨ht, hts⟩ := List.forall_mem_cons.1 h
    cases ts with
    | nil =>
      rw [List.intersperse_singleton, splitOnCommas, ht, if_neg Bool.false_ne_true]
      rfl
    | cons next rest =>
      rw [List.intersperse_cons_cons, splitOnCommas, ht, if_neg Bool.false_ne_true, splitOnCommas,
        if_pos hcomma, ih (List.cons_ne_nil next rest) hts]
      rfl

theorem mem_of_mem_splitOnCommas {ts group : List Token} (h : group ∈ splitOnCommas ts)
    {t : Token} (ht : t ∈ group) : t ∈ ts := by
  induction ts generalizing group with
  | nil => rw [List.mem_singleton.1 h] at ht; cases ht
  | cons u ts ih =>
    rw [splitOnCommas] at h
    split at h
    · rcases List.mem_cons.1 h with rfl | h
      · cases ht
      · exact List.mem_cons_of_mem u (ih h ht)
    · -- A token that is no comma joins the first group.
      cases hgroups : splitOnCommas ts with
      | nil => rw [hgroups] at h; cases h
      | cons first groups =>
        rw [hgroups, List.modifyHead_cons] at h
        rw [hgroups] at ih
        rcases List.mem_cons.1 h with rfl | h
        · rcases List.mem_cons.1 ht with rfl | ht
          · exact List.mem_cons_self
          · exact List.mem_cons_of_mem u (ih List.mem_cons_self ht)
        · exact List.mem_cons_of_mem u (ih (List.mem_cons_of_mem first h) ht)

end HeaderMacros.Tokens
