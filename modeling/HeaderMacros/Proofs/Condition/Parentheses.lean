import HeaderMacros.Proofs.Condition.Step
import HeaderMacros.Proofs.Macro.Parsed

/-!
# Balanced parentheses

`depth` counts how many parentheses are open after some tokens. A step of an expansion takes away or
brings in balanced tokens only, if the replacements of all macros are balanced, so it leaves the depth
as it is (`keepsDepth_of_expandOnce`).
-/

namespace HeaderMacros.Condition

/-- The number of parentheses open after some tokens, if `d` are open before them and no more are
closed than are open. -/
def depth (d : Nat) : List Token → Option Nat
  | [] => some d
  | t :: ts =>
    if t.is [Byte.openParen] then depth (d + 1) ts
    else if t.is [Byte.closeParen] then
      match d with
      | 0 => none
      | d + 1 => depth d ts
    else depth d ts

/-- Every parenthesis has its partner. -/
def Balanced (ts : List Token) : Prop := depth 0 ts = some 0

instance (ts : List Token) : Decidable (Balanced ts) := inferInstanceAs (Decidable (_ = _))

/-- A token that is not a parenthesis. -/
def isPlain (t : Token) : Bool := !t.is [Byte.openParen] && !t.is [Byte.closeParen]

variable {lookup : Lookup} {t : Token} {ts : List Token} {d e : Nat}

theorem isPlain_eq_true_iff :
    isPlain t = true ↔ t.is [Byte.openParen] = false ∧ t.is [Byte.closeParen] = false := by
  simp [isPlain]

@[simp]
theorem depth_nil : depth d [] = some d := rfl

theorem depth_open (h : t.is [Byte.openParen] = true) : depth d (t :: ts) = depth (d + 1) ts := by
  simp [depth, h]

theorem not_open_of_close (h : t.is [Byte.closeParen] = true) : t.is [Byte.openParen] = false := by
  rw [Token.is, beq_iff_eq.1 h]
  decide

theorem depth_close (h : t.is [Byte.closeParen] = true) : depth (d + 1) (t :: ts) = depth d ts := by
  simp [depth, h, not_open_of_close h]

theorem depth_close_zero (h : t.is [Byte.closeParen] = true) : depth 0 (t :: ts) = none := by
  simp [depth, h, not_open_of_close h]

theorem depth_plain (h : isPlain t = true) : depth d (t :: ts) = depth d ts := by
  obtain ⟨hopen, hclose⟩ := isPlain_eq_true_iff.1 h
  simp [depth, hopen, hclose]

theorem depth_append (d : Nat) (front back : List Token) :
    depth d (front ++ back) = (depth d front).bind fun k => depth k back := by
  fun_induction depth d front with
  | case1 => rfl
  | case2 d t front hopen ih => rw [List.cons_append, depth_open hopen, ih]
  | case3 t front _ hclose => simp [depth_close_zero hclose]
  | case4 t front _ hclose d ih => rw [List.cons_append, depth_close hclose, ih]
  | case5 d t front hopen hclose ih =>
    rw [List.cons_append, depth_plain (isPlain_eq_true_iff.2 (by simp [hopen, hclose])), ih]

/-- More parentheses that are open before some tokens are open after them too. -/
theorem depth_add (k : Nat) (h : depth d ts = some e) : depth (d + k) ts = some (e + k) := by
  fun_induction depth d ts with
  | case1 => simpa using h
  | case2 d t ts hopen ih =>
    rw [depth_open hopen, Nat.add_right_comm]
    exact ih h
  | case3 => cases h
  | case4 t ts _ hclose d ih =>
    rw [Nat.succ_add, depth_close hclose]
    exact ih h
  | case5 d t ts hopen hclose ih =>
    rw [depth_plain (isPlain_eq_true_iff.2 (by simp [hopen, hclose]))]
    exact ih h

theorem Balanced.depth_eq (h : Balanced ts) (d : Nat) : depth d ts = some d := by
  simpa using depth_add d h

theorem balanced_of_plain (h : ∀ t ∈ ts, isPlain t = true) : Balanced ts := by
  induction ts with
  | nil => rfl
  | cons t ts ih =>
    rw [Balanced, depth_plain (h t List.mem_cons_self)]
    exact ih fun u hu => h u (List.mem_cons_of_mem t hu)

/-- Balanced tokens can be put in the place of others without a difference to the depth. -/
theorem Balanced.depth_append_cancel (h : Balanced ts) (d : Nat) (front back : List Token) :
    depth d (front ++ (ts ++ back)) = depth d (front ++ back) := by
  simp [depth_append, h.depth_eq]

/-! ## Parentheses that are closed -/

/-- Without opening parentheses, every closing one closes one that was open before. -/
theorem depth_of_forall_not_open (hopen : ∀ t ∈ ts, t.is [Byte.openParen] = false)
    (h : depth d ts = some e) : e + ts.countP (fun t => t.is [Byte.closeParen]) = d := by
  induction ts generalizing d with
  | nil => simpa using h.symm
  | cons t ts ih =>
    have hrest : ∀ u ∈ ts, u.is [Byte.openParen] = false := fun u hu =>
      hopen u (List.mem_cons_of_mem t hu)
    by_cases hclose : t.is [Byte.closeParen] = true
    · rw [List.countP_cons_of_pos (p := fun t : Token => t.is [Byte.closeParen]) hclose]
      cases d with
      | zero => simp [depth_close_zero hclose] at h
      | succ d =>
        rw [depth_close hclose] at h
        rw [← ih hrest h, Nat.add_assoc]
    · have hplain : isPlain t = true := by simp [isPlain, hclose, hopen t List.mem_cons_self]
      rw [List.countP_cons_of_neg (p := fun t : Token => t.is [Byte.closeParen]) hclose]
      rw [depth_plain hplain] at h
      exact ih hrest h

theorem Balanced.not_close (h : Balanced ts) (hopen : ∀ t ∈ ts, t.is [Byte.openParen] = false) :
    ∀ t ∈ ts, t.is [Byte.closeParen] = false := by
  have hcount := depth_of_forall_not_open hopen h
  rw [Nat.zero_add, List.countP_eq_zero] at hcount
  simpa using hcount

/-- If no parenthesis is left open, the last one that is opened is closed. -/
theorem exists_group_of_depth (h : depth d ts = some 0)
    (hopen : ¬∀ t ∈ ts, t.is [Byte.openParen] = false) :
    ∃ front opening inner closing after, ts = front ++ opening :: (inner ++ closing :: after) ∧
      opening.is [Byte.openParen] = true ∧ closing.is [Byte.closeParen] = true ∧
      (∀ t ∈ inner ++ closing :: after, t.is [Byte.openParen] = false) ∧
      ∀ t ∈ inner, t.is [Byte.closeParen] = false := by
  rcases Tokens.forall_or_exists_last [Byte.openParen] ts with
    hall | ⟨front, opening, back, rfl, hopening, hback⟩
  · exact absurd hall hopen
  rcases Tokens.forall_or_exists_first [Byte.closeParen] back with
    hclose | ⟨inner, closing, after, rfl, hclosing, hinner⟩
  · -- What is open before the tokens at the end is still open after them.
    rw [depth_append] at h
    obtain ⟨k, -, hk⟩ := Option.bind_eq_some_iff.1 h
    rw [depth_open hopening] at hk
    have hcount := depth_of_forall_not_open hback hk
    rw [List.countP_eq_zero.2 (by simpa using hclose)] at hcount
    omega
  · exact ⟨front, opening, inner, closing, after, rfl, hopening, hclosing, hback, hinner⟩

/-! ## Steps -/

/-- A step hands on tokens with the same depth, whatever the truth value of an inner condition. -/
def Progress.KeepsDepth (d e : Nat) : Progress → Prop
  | .finished => True
  | .expanded next => depth d next = some e
  | .nested before _ after => ∀ v, depth d (before.reverse ++ Token.ofBool v :: after) = some e

theorem isPlain_ofBool (v : Bool) : isPlain (Token.ofBool v) = true := by
  cases v <;> decide

/-- Words and white space are not parentheses. -/
theorem isPlain_of_proper (ht : t.Proper) (h : t.isIdent = true ∨ t.isSpace = true) :
    isPlain t = true := by
  refine isPlain_eq_true_iff.2 ⟨?_, ?_⟩
  all_goals
    refine Bool.eq_false_iff.2 fun hparen => ?_
    rw [ht.eq_classify hparen] at h
    revert h
    decide

/-- Putting arguments without parentheses in the places of parameters keeps the depth. -/
theorem depth_flatMap_substituteToken {params : List Text} {argTokens : List Token}
    (hparams : ∀ p ∈ params, p ≠ [Byte.openParen] ∧ p ≠ [Byte.closeParen])
    (hargs : ∀ t ∈ argTokens, isPlain t = true) (d : Nat) (value : List Token) :
    depth d (value.flatMap (substituteToken params (Tokens.splitOnCommas argTokens))) =
      depth d value := by
  induction value generalizing d with
  | nil => rfl
  | cons t value ih =>
    rw [List.flatMap_cons]
    by_cases hplain : isPlain t = true
    · have hbody : Balanced (substituteToken params (Tokens.splitOnCommas argTokens) t) := by
        apply balanced_of_plain
        intro u hu
        rcases mem_substituteToken hu with rfl | hu
        · exact hplain
        · exact hargs u hu
      rw [depth_append, hbody.depth_eq, Option.bind_some, ih, depth_plain hplain]
    · -- A parenthesis is no parameter, so it stays.
      have hnone : parameterIndex? params t.text = none := by
        rw [parameterIndex?, List.findIdx?_eq_none_iff]
        intro p hp
        have hne : p ≠ t.text := by
          rintro rfl
          refine hplain (isPlain_eq_true_iff.2 ⟨?_, ?_⟩)
          · exact beq_false_of_ne (hparams _ hp).1
          · exact beq_false_of_ne (hparams _ hp).2
        simp [hne]
      simp only [substituteToken, hnone]
      show depth d ([t] ++ _) = depth d ([t] ++ value)
      simp only [depth_append, ih]

/-- A step keeps the depth, if the macros are regular and their replacements balanced. -/
theorem keepsDepth_of_expandOnce (hregular : ∀ name, (lookup name).toMacro.Regular)
    (hbalanced : ∀ name, Balanced (lookup name).toMacro.value) (hts : ∀ t ∈ ts, t.Proper)
    (h : depth d ts = some e) {progress : Progress} (hstep : expandOnce lookup ts = .ok progress) :
    progress.KeepsDepth d e := by
  have hshape := stepsTo_expandOnce lookup ts
  generalize expandOnce lookup ts = result at hstep hshape
  cases hshape with
  | finished =>
    cases hstep
    trivial
  | @replaced front after name hname =>
    cases hstep
    have hplain := isPlain_of_proper (hts name (by simp)) (.inl hname)
    show depth d _ = some e
    rw [(hbalanced _).depth_append_cancel, ← h]
    simp only [depth_append, depth_plain hplain]
  | @tested front spaces rest name tested hname _ hspaces htested =>
    cases hstep
    show depth d _ = some e
    have hplain := isPlain_of_proper (hts name (by simp)) (.inl hname)
    have hplain' := isPlain_of_proper (hts tested (by simp)) (.inl htested)
    have hbetween : Balanced spaces := balanced_of_plain fun t ht =>
      isPlain_of_proper (hts t (by simp [ht])) (.inr (hspaces t ht))
    rw [← h]
    simp only [depth_append, depth_plain hplain, depth_plain hplain', hbetween.depth_eq,
      depth_plain (isPlain_ofBool _), Option.bind_some]
  | untested | unclosed => cases hstep
  | @invoked front spaces inner after name opening closing hname hspaces hopening hclosing hopen
      hclose =>
    cases hbody : substitute name.text (lookup name.text).toMacro inner with
    | error cause => simp [hbody, Except.map] at hstep
    | ok body =>
      simp only [hbody, Except.map, Except.ok.injEq] at hstep
      subst hstep
      show depth d _ = some e
      have hplain := isPlain_of_proper (hts name (by simp)) (.inl hname)
      have hbetween : Balanced spaces := balanced_of_plain fun t ht =>
        isPlain_of_proper (hts t (by simp [ht])) (.inr (hspaces t ht))
      have hinner : ∀ t ∈ inner, isPlain t = true := fun t ht =>
        isPlain_eq_true_iff.2 ⟨hopen t (by simp [ht]), hclose t ht⟩
      -- Between the parentheses of an invocation there are none, so its arguments are balanced.
      obtain ⟨params, hparams, rfl⟩ := substitute_eq_ok hbody
      have hvalue : Balanced (_ : List Token) :=
        (depth_flatMap_substituteToken (by simpa [hparams] using (hregular name.text).params)
          hinner 0 (lookup name.text).toMacro.value).trans (hbalanced name.text)
      rw [hvalue.depth_append_cancel, ← h]
      simp only [depth_append, depth_plain hplain, hbetween.depth_eq, depth_open hopening,
        (balanced_of_plain hinner).depth_eq, depth_close hclosing, Option.bind_some]
  | @nested front inner after opening closing hcallee hopening hclosing hopen hclose =>
    cases hstep
    intro v
    have hinner : ∀ t ∈ inner, isPlain t = true := fun t ht =>
      isPlain_eq_true_iff.2 ⟨hopen t (by simp [ht]), hclose t ht⟩
    rw [← h, List.reverse_reverse]
    simp only [depth_append, depth_plain (isPlain_ofBool v), depth_open hopening,
      (balanced_of_plain hinner).depth_eq, depth_close hclosing, Option.bind_some]

end HeaderMacros.Condition
