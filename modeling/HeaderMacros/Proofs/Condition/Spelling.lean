import HeaderMacros.Proofs.Condition.Decimal
import HeaderMacros.Proofs.Condition.Layers

/-!
# How expressions are spelled

An expression is spelled by operands with operators between them, an operand being an integer word
after any number of negations. `Spells` says so and gives the values of the operands.

Reduction gives a value to nothing else: undoing a step in a spelled expression gives a spelled
expression again, so tokens that reduce to a number are spelled like that from the start
(`spelled_of_reduceSolid`), unless they are one token.
-/

namespace HeaderMacros.Condition

/-- The token of negation. -/
def notToken : Token := ⟨.operator, notSymbol⟩

/-- The token of an operator. -/
def BinaryOp.token (op : BinaryOp) : Token := ⟨.operator, op.symbol⟩

/-- A token is a word that spells an integer. -/
def IsInteger (t : Token) (v : Int32) : Prop := t.isWord = true ∧ integer? t.text = some v

/-- Tokens spell an operand of the value `v`, followed by operators that each have an operand of the
given value after them. An operand is an integer word with any number of negations before it. -/
inductive Spells : List Token → Int32 → List (BinaryOp × Int32) → Prop where
  /-- The last operand. -/
  | last {t : Token} {v : Int32} (h : IsInteger t v) : Spells [t] v []
  /-- An operand with an operator after it. -/
  | more {t : Token} {v w : Int32} {ts : List Token} {rest : List (BinaryOp × Int32)}
    (op : BinaryOp) (h : IsInteger t v) (next : Spells ts w rest) :
    Spells (t :: op.token :: ts) v ((op, w) :: rest)
  /-- A negation of the first operand. -/
  | negation {v : Int32} {ts : List Token} {rest : List (BinaryOp × Int32)}
    (next : Spells ts v rest) : Spells (notToken :: ts) (negated v) rest

/-- Tokens spell an expression. -/
def Spelled (ts : List Token) : Prop := ∃ v rest, Spells ts v rest

/-! ## Tokens of expressions -/

theorem integer?_notSymbol : integer? notSymbol = none := by decide +kernel

theorem integer?_symbol (op : BinaryOp) : integer? op.symbol = none := by
  cases op <;> decide +kernel

theorem symbol_ne_notSymbol (op : BinaryOp) : op.symbol ≠ notSymbol := by
  cases op <;> decide

theorem symbol_injective {o op : BinaryOp} (h : o.symbol = op.symbol) : o = op := by
  cases o <;> cases op <;> first | rfl | exact absurd h (by decide)

theorem text_ne_notSymbol {t : Token} {v : Int32} (h : integer? t.text = some v) :
    t.text ≠ notSymbol := by
  intro heq
  rw [heq, integer?_notSymbol] at h
  cases h

theorem text_ne_symbol {t : Token} {v : Int32} (h : integer? t.text = some v) (op : BinaryOp) :
    t.text ≠ op.symbol := by
  intro heq
  rw [heq, integer?_symbol] at h
  cases h

theorem integer?_resultToken (n : Int32) : integer? (resultToken n).text = some n := by
  rw [resultToken, Token.text_classify, integer?_ofInt]

theorem isInteger_resultToken {n : Int32} (h : 0 ≤ n.toInt) : IsInteger (resultToken n) n :=
  ⟨by rw [isWord_resultToken, decide_eq_true h], integer?_resultToken n⟩

/-- The tokens of an expression are words, negations and operators. -/
theorem Spells.isWord_or {ts : List Token} {v : Int32} {rest : List (BinaryOp × Int32)}
    (h : Spells ts v rest) :
    ∀ t ∈ ts, t.isWord = true ∨ t = notToken ∨ ∃ op : BinaryOp, t = op.token := by
  induction h with
  | last h => exact fun t ht => .inl (List.mem_singleton.1 ht ▸ h.1)
  | more op h next ih =>
    intro t ht
    rcases List.mem_cons.1 ht with rfl | ht
    · exact .inl h.1
    · rcases List.mem_cons.1 ht with rfl | ht
      · exact .inr (.inr ⟨op, rfl⟩)
      · exact ih t ht
  | negation next ih =>
    intro t ht
    rcases List.mem_cons.1 ht with rfl | ht
    · exact .inr (.inl rfl)
    · exact ih t ht

/-- Tokens spell one expression at most. -/
theorem Spells.unique {ts : List Token} {v w : Int32} {rest more : List (BinaryOp × Int32)}
    (h : Spells ts v rest) (h' : Spells ts w more) : v = w ∧ rest = more := by
  -- The first token tells which way an expression goes on: an integer is no negation.
  induction h generalizing w more with
  | last h =>
    cases h' with
    | last h' => exact ⟨Option.some.inj (h.2.symm.trans h'.2), rfl⟩
    | negation next => exact absurd rfl (text_ne_notSymbol h.2)
  | @more t v u ts rest op h next ih =>
    generalize hts : t :: op.token :: ts = ts' at h'
    cases h' with
    | last h' => cases hts
    | more op' h' next' =>
      rw [List.cons.injEq, List.cons.injEq] at hts
      obtain ⟨rfl, hop, rfl⟩ := hts
      obtain rfl : op = op' := symbol_injective (congrArg Token.text hop)
      obtain ⟨rfl, rfl⟩ := ih next'
      exact ⟨Option.some.inj (h.2.symm.trans h'.2), rfl⟩
    | negation next' =>
      obtain ⟨rfl, -⟩ := List.cons.inj hts
      exact absurd rfl (text_ne_notSymbol h.2)
  | negation next ih =>
    generalize hts : notToken :: _ = ts' at h'
    cases h' with
    | last h' =>
      obtain ⟨rfl, -⟩ := List.cons.inj hts
      exact absurd rfl (text_ne_notSymbol h'.2)
    | more op h' next' =>
      obtain ⟨rfl, -⟩ := List.cons.inj hts
      exact absurd rfl (text_ne_notSymbol h'.2)
    | negation next' =>
      obtain ⟨-, rfl⟩ := List.cons.inj hts
      obtain ⟨rfl, rfl⟩ := ih next'
      exact ⟨rfl, rfl⟩

theorem Spells.of_singleton {t : Token} {v : Int32} {rest : List (BinaryOp × Int32)}
    (h : Spells [t] v rest) : rest = [] ∧ IsInteger t v := by
  cases h with
  | last h => exact ⟨rfl, h⟩
  | negation next => cases next

/-- An operand without negations may be another integer. -/
theorem Spells.replaceFirst {t u : Token} {v w : Int32} {ts : List Token}
    {rest : List (BinaryOp × Int32)} (h : Spells (t :: ts) v rest) (ht : t.text ≠ notSymbol)
    (hu : IsInteger u w) : Spells (u :: ts) w rest := by
  cases h with
  | last h => exact .last hu
  | more op h next => exact .more op hu next
  | negation next => exact absurd rfl ht

/-! ## What a step takes -/

/-- A negation stands before a word. -/
theorem negation?_eq_some {ts : List Token} {r : Redex} (h : negation? ts = some r) :
    ∃ sign x, ts = r.before ++ sign :: x :: r.after ∧ r.operation = .negation x ∧
      sign.text = notSymbol ∧ x.isWord = true := by
  fun_induction negation? ts generalizing r with
  | case1 sign x rest hsign =>
    rw [Bool.and_eq_true] at hsign
    cases h
    exact ⟨sign, x, rfl, rfl, beq_iff_eq.1 hsign.1, hsign.2⟩
  | case2 sign x rest hsign ih =>
    obtain ⟨r', hr', rfl⟩ := Option.map_eq_some_iff.1 h
    obtain ⟨sign', x', hts, hrest⟩ := ih hr'
    exact ⟨sign', x', congrArg (sign :: ·) hts, hrest⟩
  | case3 => cases h

/-- An operator stands between words. -/
theorem application?_eq_some {op : BinaryOp} {ts : List Token} {r : Redex}
    (h : application? op ts = some r) :
    ∃ x sign y, ts = r.before ++ x :: sign :: y :: r.after ∧ r.operation = .binary op x y ∧
      sign.text = op.symbol ∧ x.isWord = true ∧ y.isWord = true := by
  fun_induction application? op ts generalizing r with
  | case1 x sign y rest hsign =>
    rw [Bool.and_eq_true, Bool.and_eq_true] at hsign
    cases h
    exact ⟨x, sign, y, rfl, rfl, beq_iff_eq.1 hsign.1.1, hsign.2, hsign.1.2⟩
  | case2 x sign y rest hsign ih =>
    obtain ⟨r', hr', rfl⟩ := Option.map_eq_some_iff.1 h
    obtain ⟨x', sign', y', hts, hrest⟩ := ih hr'
    exact ⟨x', sign', y', congrArg (x :: ·) hts, hrest⟩
  | case3 => cases h

theorem integer_eq_ok_iff {text : Text} {v : Int32} :
    integer text = .ok v ↔ integer? text = some v := by
  unfold integer
  cases integer? text <;> simp

theorem value_negation_eq_ok_iff {x : Token} {m : Int32} :
    (Operation.negation x).value = .ok m ↔ ∃ v, integer? x.text = some v ∧ negated v = m := by
  rw [Operation.value, integer]
  cases integer? x.text <;> simp [Except.map, applyNot_eq_negated]

theorem value_binary_eq_ok_iff {op : BinaryOp} {x y : Token} {m : Int32} :
    (Operation.binary op x y).value = .ok m ↔
      ∃ v w, integer? x.text = some v ∧ integer? y.text = some w ∧ op.meaning v w = m := by
  rw [Operation.value, integer, integer]
  cases integer? x.text <;> cases integer? y.text <;>
    simp [Bind.bind, Except.bind, pure, Except.pure, BinaryOp.apply_eq_meaning]

/-! ## Undoing a step -/

/-- An operand in an expression may be replaced by anything that may stand in its place at the
start of an expression. -/
theorem Spelled.replace {before mid after : List Token} {t : Token}
    (h : Spelled (before ++ t :: after)) (hnot : t.text ≠ notSymbol)
    (hop : ∀ op : BinaryOp, t.text ≠ op.symbol)
    (hmid : Spelled (t :: after) → Spelled (mid ++ after)) :
    Spelled (before ++ (mid ++ after)) := by
  obtain ⟨v, rest, h⟩ := h
  -- Along the expression until `t` is reached, which is neither an operator nor a negation.
  generalize hts : before ++ t :: after = ts at h
  induction h generalizing before with
  | last h =>
    cases before with
    | nil =>
      rw [List.nil_append] at hts
      exact hmid (hts ▸ ⟨_, _, .last h⟩)
    | cons u before =>
      have := congrArg List.length hts
      simp only [List.length_append, List.length_cons, List.length_nil] at this
      omega
  | more op h next ih =>
    match before with
    | [] =>
      rw [List.nil_append] at hts
      exact hmid (hts ▸ ⟨_, _, .more op h next⟩)
    | [u] =>
      rw [List.cons_append, List.nil_append, List.cons.injEq, List.cons.injEq] at hts
      exact absurd (congrArg Token.text hts.2.1) (hop op)
    | u :: u' :: before =>
      rw [List.cons_append, List.cons_append, List.cons.injEq, List.cons.injEq] at hts
      obtain ⟨rfl, rfl, hts⟩ := hts
      obtain ⟨w, more, hw⟩ := ih hts
      exact ⟨_, _, .more op h hw⟩
  | negation next ih =>
    cases before with
    | nil => exact absurd (congrArg Token.text (List.cons.inj hts).1) hnot
    | cons u before =>
      rw [List.cons_append, List.cons.injEq] at hts
      obtain ⟨rfl, hts⟩ := hts
      obtain ⟨w, more, hw⟩ := ih hts
      exact ⟨_, _, .negation hw⟩

/-- Undoing a step in an expression, or in a single result, gives an expression. -/
theorem spelled_of_step {ts : List Token} {r : Redex} {m : Int32}
    (hts : ∀ t ∈ ts, Token.classify t.text = t) (hr : redex? ts = some r)
    (hm : r.operation.value = .ok m)
    (h : Spelled (r.before ++ resultToken m :: r.after) ∨
      (r.before ++ resultToken m :: r.after).length = 1) : Spelled ts := by
  have hnot := text_ne_notSymbol (integer?_resultToken m)
  have hop := text_ne_symbol (integer?_resultToken m)
  -- The operation may stand in the place of its result, which is an operand or all there is.
  have hput (mid : List Token) (hsingle : Spelled mid)
      (hfirst : Spelled (resultToken m :: r.after) → Spelled (mid ++ r.after)) :
      Spelled (r.before ++ (mid ++ r.after)) := by
    rcases h with h | h
    · exact h.replace hnot hop hfirst
    · rw [List.length_append, List.length_cons] at h
      rw [List.eq_nil_of_length_eq_zero (show r.before.length = 0 by omega),
        List.eq_nil_of_length_eq_zero (show r.after.length = 0 by omega), List.append_nil]
      exact hsingle
  rcases Option.or_eq_some_iff.1 hr with hneg | ⟨-, hsome⟩
  · obtain ⟨sign, x, heq, hoperation, hsign, hx⟩ := negation?_eq_some hneg
    -- The text of a token tells its kind, so the sign is the token of negation.
    obtain rfl : sign = notToken := by
      rw [← hts sign (by simp [heq]), hsign]
      decide
    rw [hoperation, value_negation_eq_ok_iff] at hm
    obtain ⟨v, hv, -⟩ := hm
    rw [heq]
    refine hput [notToken, x] ⟨_, _, .negation (.last ⟨hx, hv⟩)⟩ ?_
    rintro ⟨w, rest, hrest⟩
    exact ⟨_, _, .negation (hrest.replaceFirst hnot ⟨hx, hv⟩)⟩
  · obtain ⟨op, -, happ⟩ := List.exists_of_findSome?_eq_some hsome
    obtain ⟨x, sign, y, heq, hoperation, hsign, hx, hy⟩ := application?_eq_some happ
    obtain rfl : sign = op.token := by
      rw [← hts sign (by simp [heq]), hsign]
      cases op <;> decide
    rw [hoperation, value_binary_eq_ok_iff] at hm
    obtain ⟨v, w, hv, hw, -⟩ := hm
    rw [heq]
    refine hput [x, op.token, y] ⟨_, _, .more op ⟨hx, hv⟩ (.last ⟨hy, hw⟩)⟩ ?_
    rintro ⟨u, rest, hrest⟩
    exact ⟨_, _, .more op ⟨hx, hv⟩ (hrest.replaceFirst hnot ⟨hy, hw⟩)⟩

/-! ## Reduction -/

/-- Reduction goes on with what a step leaves. -/
theorem reduceSolid_of_redex? {ts : List Token} {r : Redex} {m : Int32} (hr : redex? ts = some r)
    (hm : r.operation.value = .ok m) :
    reduceSolid ts = reduceSolid (r.before ++ resultToken m :: r.after) := by
  have hlen := length_redex? hr
  have hstep : step ts = .ok (some (r.before ++ resultToken m :: r.after)) := by
    rw [step, hr]
    simp only [hm, Except.map]
  match ts with
  | [] => exact absurd hlen (by simp)
  | [t] => exact absurd hlen (by simp)
  | t :: u :: ts =>
    rw [reduceSolid]
    split
    · rename_i c hc; rw [hstep] at hc; cases hc
    · rename_i hc; rw [hstep] at hc; cases hc
    · rename_i next hc; rw [hstep] at hc; cases hc; rfl

/-- A step carries out the operation that is first. -/
theorem step_eq_some {ts next : List Token} (h : step ts = .ok (some next)) :
    ∃ r m, redex? ts = some r ∧ r.operation.value = .ok m ∧
      next = r.before ++ resultToken m :: r.after := by
  unfold step at h
  split at h
  · cases h
  · rename_i r hr
    cases hm : r.operation.value with
    | error c => rw [hm] at h; cases h
    | ok m => rw [hm] at h; cases h; exact ⟨r, m, hr, hm, rfl⟩

/-- A step leaves tokens that have the kinds of their texts. -/
theorem classify_of_redex? {ts : List Token} {r : Redex} (h : redex? ts = some r)
    (hts : ∀ t ∈ ts, Token.classify t.text = t) (m : Int32) :
    ∀ t ∈ r.before ++ resultToken m :: r.after, Token.classify t.text = t := by
  have hmem : ∀ t, t ∈ r.before ∨ t ∈ r.after → t ∈ ts := by
    intro t ht
    rcases Option.or_eq_some_iff.1 h with hneg | ⟨-, hsome⟩
    · obtain ⟨sign, x, rfl, -⟩ := negation?_eq_some hneg
      rcases ht with ht | ht <;> simp [ht]
    · obtain ⟨op, -, happ⟩ := List.exists_of_findSome?_eq_some hsome
      obtain ⟨x, sign, y, rfl, -⟩ := application?_eq_some happ
      rcases ht with ht | ht <;> simp [ht]
  intro t ht
  rcases List.mem_append.1 ht with ht | ht
  · exact hts t (hmem t (.inl ht))
  · rcases List.mem_cons.1 ht with rfl | ht
    · rw [resultToken, Token.text_classify]
    · exact hts t (hmem t (.inr ht))

/-- Tokens that reduce to a number spell an expression, or are one token. -/
theorem spelled_of_reduceSolid {ts : List Token} {n : Int32}
    (hts : ∀ t ∈ ts, Token.classify t.text = t) (h : reduceSolid ts = .ok n) :
    Spelled ts ∨ ts.length = 1 := by
  fun_induction reduceSolid ts with
  | case1 => cases h
  | case2 t => exact .inr rfl
  | case3 => cases h
  | case4 => cases h
  | case5 t u ts next hstep ih =>
    obtain ⟨r, m, hr, hm, rfl⟩ := step_eq_some hstep
    exact .inl (spelled_of_step hts hr hm (ih (classify_of_redex? hr hts m) h))

end HeaderMacros.Condition
