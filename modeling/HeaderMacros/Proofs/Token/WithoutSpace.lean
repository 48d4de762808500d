import HeaderMacros.Proofs.Token.Splitting

/-!
# Tokens without white space

What is left of tokens when those of white space are taken away. A search that passes over white
space finds the same with and without it: the first token that is none, the tokens up to one with
some property, and the groups between commas.
-/

namespace HeaderMacros

theorem Token.isIdent_of_isSpace {t : Token} (h : t.isSpace = true) : t.isIdent = false := by
  have hkind : t.kind = .space := beq_iff_eq.1 h
  simp [isIdent, hkind]

theorem Token.isSpace_ofBool (v : Bool) : (ofBool v).isSpace = false := by
  cases v <;> rfl

namespace Tokens

variable {ts before after : List Token} {t : Token}

theorem withoutSpace_append (ts us : List Token) :
    withoutSpace (ts ++ us) = withoutSpace ts ++ withoutSpace us := List.filter_append ..

theorem withoutSpace_cons_of_space (h : t.isSpace = true) (ts : List Token) :
    withoutSpace (t :: ts) = withoutSpace ts := by
  simp [withoutSpace, h]

theorem withoutSpace_cons_of_solid (h : t.isSpace = false) (ts : List Token) :
    withoutSpace (t :: ts) = t :: withoutSpace ts := by
  simp [withoutSpace, h]

theorem withoutSpace_reverse (ts : List Token) :
    withoutSpace ts.reverse = (withoutSpace ts).reverse := List.filter_reverse ..

@[simp]
theorem withoutSpace_withoutSpace (ts : List Token) :
    withoutSpace (withoutSpace ts) = withoutSpace ts := by
  simp [withoutSpace]

theorem mem_of_mem_withoutSpace (h : t ∈ withoutSpace ts) : t ∈ ts := (List.mem_filter.1 h).1

theorem isSpace_of_mem_withoutSpace (h : t ∈ withoutSpace ts) : t.isSpace = false := by
  simpa using (List.mem_filter.1 h).2

/-- Without white space there is nothing to trim. -/
theorem trimLeft_withoutSpace (ts : List Token) :
    trimLeft (withoutSpace ts) = withoutSpace ts := by
  rw [trimLeft]
  cases hts : withoutSpace ts with
  | nil => rfl
  | cons t rest =>
    have ht : t.isSpace = false := isSpace_of_mem_withoutSpace (hts ▸ List.mem_cons_self)
    simp [ht]

/-- Trimming takes white space only. -/
theorem withoutSpace_trimLeft (ts : List Token) :
    withoutSpace (trimLeft ts) = withoutSpace ts := by
  induction ts with
  | nil => rfl
  | cons t ts ih =>
    cases ht : t.isSpace with
    | true => rw [trimLeft, List.dropWhile_cons_of_pos ht, withoutSpace_cons_of_space ht, ← ih, trimLeft]
    | false => rw [trimLeft, List.dropWhile_cons_of_neg (by simp [ht])]

theorem withoutSpace_trim (ts : List Token) : withoutSpace (trim ts) = withoutSpace ts := by
  have hright (us : List Token) : withoutSpace (trimRight us) = withoutSpace us := by
    show withoutSpace (trimLeft us.reverse).reverse = withoutSpace us
    rw [withoutSpace_reverse, withoutSpace_trimLeft, withoutSpace_reverse, List.reverse_reverse]
  rw [trim, hright, withoutSpace_trimLeft]

theorem isSpace_of_trimLeft (h : trimLeft ts = t :: after) : t.isSpace = false := by
  have hstop := List.head?_dropWhile_not Token.isSpace ts
  rw [← trimLeft, h] at hstop
  simpa using hstop

theorem trim_eq_nil_iff : trim ts = [] ↔ withoutSpace ts = [] := by
  rw [← withoutSpace_trimLeft, trim, trimRight, List.reverse_eq_nil_iff, List.dropWhile_eq_nil_iff]
  simp [withoutSpace]

/-- Where white space is passed over, it may be taken away before or after. -/
theorem takeWhile_withoutSpace {p : Token → Bool} (h : ∀ t ∈ ts, t.isSpace = true → p t = true) :
    (withoutSpace ts).takeWhile p = withoutSpace (ts.takeWhile p) := by
  induction ts with
  | nil => rfl
  | cons t ts ih =>
    rw [List.forall_mem_cons] at h
    cases ht : t.isSpace with
    | true =>
      rw [withoutSpace_cons_of_space ht, List.takeWhile_cons_of_pos (h.1 ht),
        withoutSpace_cons_of_space ht, ih h.2]
    | false =>
      rw [withoutSpace_cons_of_solid ht, List.takeWhile_cons, List.takeWhile_cons]
      split_ifs
      · rw [withoutSpace_cons_of_solid ht, ih h.2]
      · rfl

theorem dropWhile_withoutSpace {p : Token → Bool} (h : ∀ t ∈ ts, t.isSpace = true → p t = true) :
    (withoutSpace ts).dropWhile p = withoutSpace (ts.dropWhile p) := by
  induction ts with
  | nil => rfl
  | cons t ts ih =>
    rw [List.forall_mem_cons] at h
    cases ht : t.isSpace with
    | true => rw [withoutSpace_cons_of_space ht, List.dropWhile_cons_of_pos (h.1 ht), ih h.2]
    | false =>
      rw [withoutSpace_cons_of_solid ht, List.dropWhile_cons, List.dropWhile_cons]
      split_ifs
      · exact ih h.2
      · rw [withoutSpace_cons_of_solid ht]

/-- Commas separate the same groups with and without white space. -/
theorem splitOnCommas_withoutSpace (h : ∀ t ∈ ts, t.is [Byte.comma] = true → t.isSpace = false) :
    splitOnCommas (withoutSpace ts) = (splitOnCommas ts).map withoutSpace := by
  induction ts with
  | nil => rfl
  | cons t ts ih =>
    rw [List.forall_mem_cons] at h
    obtain ⟨group, groups, hgroups⟩ := List.exists_cons_of_ne_nil (splitOnCommas_ne_nil ts)
    have ih := ih h.2
    rw [hgroups] at ih
    cases ht : t.isSpace with
    | true =>
      have hcomma : t.is [Byte.comma] ≠ true := fun hcomma => by simp [h.1 hcomma] at ht
      rw [withoutSpace_cons_of_space ht, ih, splitOnCommas, if_neg hcomma, hgroups]
      simp [withoutSpace_cons_of_space ht]
    | false =>
      rw [withoutSpace_cons_of_solid ht, splitOnCommas, splitOnCommas, ih, hgroups]
      split_ifs
      · rfl
      · simp [withoutSpace_cons_of_solid ht]

end Tokens

end HeaderMacros
