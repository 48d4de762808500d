import HeaderMacros.Proofs.Condition.Spelling

/-!
# Reduction computes the layered value

Reduction carries out the negations first and then, level by level, the operators from left to
right. A step keeps the layered tree of the row that the tokens spell (`Spells.step`), so a whole
run computes the value of the layered tree (`reduceSolid_of_spells`), as long as no result that is
needed as an operand is negative: the text of a negative number is no word.

The main result is `reduce_eq_layered_value`.
-/

namespace HeaderMacros.Condition

open ExprTree

/-- The operators of a row with the values of the trees after them. -/
def values (row : Row) : List (BinaryOp × Int32) :=
  row.map fun next => (next.1, next.2.value)

theorem values_cons (op : BinaryOp) (y : ExprTree) (row : Row) :
    values ((op, y) :: row) = (op, y.value) :: values row := rfl

/-- A row in the middle of a reduction: what has been applied is an operand of what remains, and no
operator that remains binds more tightly. -/
structure Ready (x : ExprTree) (row : Row) : Prop where
  /-- The operands within the trees of the row are not negative. -/
  operands : ∀ y ∈ members x row, y.OperandsNonneg
  /-- The trees of the row that are applications are not negative. -/
  members : ∀ y ∈ members x row, y.isApplication = true → 0 ≤ y.value.toInt
  /-- The operators of the row bind no more tightly than those within its trees. -/
  levels : ∀ y ∈ ExprTree.members x row, ∀ next ∈ row, y.level ≤ next.1.level

/-! ## Negations -/

theorem negation?_cons_of_ne {t : Token} (h : t.text ≠ notSymbol) (ts : List Token) :
    negation? (t :: ts) = (negation? ts).map (Redex.cons t) := by
  cases ts with
  | nil => rfl
  | cons x rest =>
    have hsign : t.is notSymbol = false := beq_eq_false_iff_ne.2 h
    rw [negation?, hsign, Bool.false_and, if_neg Bool.false_ne_true]

/-- Carrying out a negation keeps what is spelled. -/
theorem Spells.of_negation? {ts : List Token} {v : Int32} {rest : List (BinaryOp × Int32)}
    {r : Redex} (h : Spells ts v rest) (hr : negation? ts = some r) :
    ∃ m, r.operation.value = .ok m ∧ Spells (r.before ++ resultToken m :: r.after) v rest := by
  induction h generalizing r with
  | last h => cases hr
  | more op h next ih =>
    rw [negation?_cons_of_ne (text_ne_notSymbol h.2),
      negation?_cons_of_ne (symbol_ne_notSymbol op)] at hr
    -- The integer and the operator are no negations, so it is found behind them.
    obtain ⟨r', hr', rfl⟩ := Option.map_eq_some_iff.1 hr
    obtain ⟨r'', hr'', rfl⟩ := Option.map_eq_some_iff.1 hr'
    obtain ⟨m, hm, hspells⟩ := ih hr''
    exact ⟨m, hm, .more op h hspells⟩
  | @negation v ts rest next ih =>
    cases ts with
    | nil => cases hr
    | cons x ts =>
      rw [negation?] at hr
      split at hr
      · -- The negation stands before a word, so its result takes the place of both.
        rename_i hword
        rw [Bool.and_eq_true] at hword
        cases hr
        have hnonneg : 0 ≤ (negated v).toInt := by
          rw [negated]
          split <;> decide
        have hx : IsInteger x v := by
          cases next with
          | last h => exact h
          | more op h next => exact h
          | negation next => exact absurd hword.2 (by decide)
        exact ⟨negated v, value_negation_eq_ok_iff.2 ⟨v, hx.2, rfl⟩,
          next.replaceFirst (text_ne_notSymbol hx.2) (isInteger_resultToken hnonneg)⟩
      · -- The negation stands before another one, which is carried out first.
        obtain ⟨r', hr', rfl⟩ := Option.map_eq_some_iff.1 hr
        obtain ⟨m, hm, hspells⟩ := ih hr'
        exact ⟨m, hm, .negation hspells⟩

/-- Where no negation can be carried out, the first token is an integer. -/
theorem Spells.isInteger_of_negation?_eq_none {ts : List Token} {v : Int32}
    {rest : List (BinaryOp × Int32)} (h : Spells ts v rest) (hnone : negation? ts = none) :
    ∃ t more, ts = t :: more ∧ IsInteger t v := by
  induction h with
  | last h => exact ⟨_, _, rfl, h⟩
  | more op h next ih => exact ⟨_, _, rfl, h⟩
  | @negation v ts rest next ih =>
    cases ts with
    | nil => cases next
    | cons x ts =>
      rw [negation?] at hnone
      split at hnone
      · cases hnone
      · rename_i hword
        obtain ⟨t, more, heq, ht⟩ := ih (Option.map_eq_none_iff.1 hnone)
        obtain ⟨rfl, rfl⟩ := List.cons.inj heq
        exact absurd (show (notToken.is notSymbol && x.isWord) = true by rw [ht.1]; rfl) hword

/-- Where no negation can be carried out, there is none. -/
theorem Spells.cases_of_negation?_eq_none {ts : List Token} {v : Int32}
    {rest : List (BinaryOp × Int32)} (h : Spells ts v rest) (hnone : negation? ts = none) :
    (∃ t, ts = [t] ∧ rest = [] ∧ IsInteger t v) ∨
    ∃ t op more w next, ts = t :: op.token :: more ∧ rest = (op, w) :: next ∧ IsInteger t v ∧
      Spells more w next ∧ negation? more = none := by
  obtain ⟨t, more, rfl, ht⟩ := h.isInteger_of_negation?_eq_none hnone
  cases h with
  | last h => exact .inl ⟨t, rfl, rfl, h⟩
  | more op h next =>
    rw [negation?_cons_of_ne (text_ne_notSymbol h.2),
      negation?_cons_of_ne (symbol_ne_notSymbol op), Option.map_eq_none_iff,
      Option.map_eq_none_iff] at hnone
    exact .inr ⟨t, op, _, _, _, rfl, rfl, h, next, hnone⟩
  | negation next => exact absurd rfl (text_ne_notSymbol ht.2)

/-! ## Operators -/

theorem Spells.length_eq {ts : List Token} {v : Int32} {rest : List (BinaryOp × Int32)}
    (h : Spells ts v rest) (hnone : negation? ts = none) : ts.length = 2 * rest.length + 1 := by
  induction rest generalizing ts v with
  | nil =>
    rcases h.cases_of_negation?_eq_none hnone with ⟨t, rfl, -⟩ | ⟨t, op, more, w, next, -, h, -⟩
    · rfl
    · cases h
  | cons next rest ih =>
    rcases h.cases_of_negation?_eq_none hnone with
      ⟨t, -, h, -⟩ | ⟨t, op, more, w, _, rfl, heq, -, h, hnone⟩
    · cases h
    · obtain ⟨rfl, rfl⟩ := List.cons.inj heq
      rw [List.length_cons, List.length_cons, ih h hnone, List.length_cons]
      omega

/-- An operator that stands among the tokens is one of the expression. -/
theorem Spells.mem_of_text_eq {ts : List Token} {v : Int32} {rest : List (BinaryOp × Int32)}
    (h : Spells ts v rest) {op : BinaryOp} {t : Token} (ht : t ∈ ts) (htext : t.text = op.symbol) :
    op ∈ rest.map Prod.fst := by
  induction h with
  | last h => exact absurd htext (List.mem_singleton.1 ht ▸ text_ne_symbol h.2 op)
  | more o h next ih =>
    rcases List.mem_cons.1 ht with rfl | ht
    · exact absurd htext (text_ne_symbol h.2 op)
    · rcases List.mem_cons.1 ht with rfl | ht
      · rw [symbol_injective htext]
        exact List.mem_cons_self
      · exact List.mem_cons_of_mem _ (ih ht)
  | negation next ih =>
    rcases List.mem_cons.1 ht with rfl | ht
    · exact absurd htext.symm (symbol_ne_notSymbol op)
    · exact ih ht

theorem application?_cons_of_ne {op : BinaryOp} {sign : Token} (h : sign.text ≠ op.symbol)
    (x : Token) (ts : List Token) :
    application? op (x :: sign :: ts) = (application? op (sign :: ts)).map (Redex.cons x) := by
  cases ts with
  | nil => rfl
  | cons y rest =>
    have hsign : sign.is op.symbol = false := beq_eq_false_iff_ne.2 h
    rw [application?, hsign, Bool.false_and, Bool.false_and, if_neg Bool.false_ne_true]

/-- The leftmost occurrence of an operator is found between its operands. Unless its result is
negative, the tokens after the step spell the row with its application. -/
theorem Spells.application? {ts : List Token} {x : ExprTree} {row : Row}
    (h : Spells ts x.value (values row)) (hnone : negation? ts = none) (op : BinaryOp)
    (hop : op ∈ row.map Prod.fst) :
    ∃ r a b x' row', application? op ts = some r ∧ Contracts op a b x row x' row' ∧
      r.operation.value = .ok (application op a b).value ∧
      (0 ≤ (application op a b).value.toInt →
        Spells (r.before ++ resultToken (application op a b).value :: r.after)
          x'.value (values row')) := by
  induction row generalizing ts x with
  | nil => cases hop
  | cons next row ih =>
    obtain ⟨o, y⟩ := next
    rcases h.cases_of_negation?_eq_none hnone with
      ⟨t, -, hnil, -⟩ | ⟨t, o', more, w, rest, rfl, heq, ht, hmore, hnone'⟩
    · cases hnil
    -- The row starts with `x`, the operator `o` and `y`, the tokens with `t`, `o` and `u`.
    rw [values_cons, List.cons.injEq, Prod.mk.injEq] at heq
    obtain ⟨⟨rfl, rfl⟩, rfl⟩ := heq
    obtain ⟨u, tail, rfl, hu⟩ := hmore.isInteger_of_negation?_eq_none hnone'
    by_cases heq : o = op
    · subst heq
      refine ⟨⟨[], .binary o t u, tail⟩, x, y, _, row, ?_, .here row, ?_, fun hnonneg => ?_⟩
      · rw [Condition.application?, if_pos]
        rw [ht.1, hu.1]
        simp [Token.is, BinaryOp.token]
      · exact value_binary_eq_ok_iff.2 ⟨_, _, ht.2, hu.2, rfl⟩
      · exact hmore.replaceFirst (text_ne_notSymbol hu.2) (isInteger_resultToken hnonneg)
    · have hop' : op ∈ row.map Prod.fst := by
        rcases List.mem_cons.1 hop with h | h
        · exact absurd h.symm heq
        · exact h
      obtain ⟨r, a, b, y', row', hr, hcontracts, hvalue, hspells⟩ := ih hmore hnone' hop'
      refine ⟨(r.cons o.token).cons t, a, b, x, (o, y') :: row', ?_, .there x heq hcontracts,
        hvalue, fun hnonneg => .more o ht (hspells hnonneg)⟩
      have hsign : o.token.text ≠ op.symbol := fun h => heq (symbol_injective h)
      rw [application?_cons_of_ne hsign, application?_cons_of_ne (text_ne_symbol hu.2 op), hr]
      rfl

-- `BinaryOp.all` is sorted by level, so what is tried before an operator has a lower level.
theorem mem_of_level_lt {earlier later : List BinaryOp} {o op : BinaryOp}
    (hall : BinaryOp.all = earlier ++ op :: later) (h : o.level < op.level) : o ∈ earlier := by
  have hsorted : BinaryOp.all.Pairwise fun a b => a.level < b.level := by decide
  have hmem : o ∈ BinaryOp.all := by cases o <;> decide
  rw [hall] at hsorted hmem
  rcases List.mem_append.1 hmem with hmem | hmem
  · exact hmem
  · rcases List.mem_cons.1 hmem with rfl | hmem
    · exact absurd h (Nat.lt_irrefl _)
    · have := (List.pairwise_cons.1 (List.pairwise_append.1 hsorted).2.1).1 o hmem
      omega

/-- Without negations, the first operator of the lowest level is carried out. -/
theorem Spells.redex?_of_negation?_eq_none {ts : List Token} {x : ExprTree}
    {row : Row} (h : Spells ts x.value (values row))
    (hnone : negation? ts = none) (hrow : row ≠ []) :
    ∃ op r, redex? ts = some r ∧ Condition.application? op ts = some r ∧ op ∈ row.map Prod.fst ∧
      ∀ next ∈ row, op.level ≤ next.1.level := by
  have hredex : redex? ts = BinaryOp.all.findSome? fun op => Condition.application? op ts := by
    rw [redex?, hnone, Option.none_or]
  cases hfound : redex? ts with
  | none =>
    -- The first operator of the row at least would have been found.
    obtain ⟨next, row, rfl⟩ := List.exists_cons_of_ne_nil hrow
    obtain ⟨r, -, -, -, -, hr, -⟩ := h.application? hnone next.1 List.mem_cons_self
    rw [hfound, eq_comm, List.findSome?_eq_none_iff] at hredex
    have := hredex next.1 (by cases next.1 <;> decide)
    rw [hr] at this
    cases this
  | some r =>
    rw [hfound, eq_comm, List.findSome?_eq_some_iff] at hredex
    obtain ⟨earlier, op, later, hall, hop, hearlier⟩ := hredex
    obtain ⟨y, sign, z, hts, -, hsign, -⟩ := application?_eq_some hop
    have hmem : op ∈ (values row).map Prod.fst := h.mem_of_text_eq (by simp [hts]) hsign
    refine ⟨op, r, rfl, hop, by simpa [values] using hmem, fun next hnext => ?_⟩
    refine Nat.not_lt.1 fun hlt => ?_
    -- An operator of the row with a lower level would have been found earlier.
    obtain ⟨r', -, -, -, -, hr', -⟩ := h.application? hnone next.1 (List.mem_map_of_mem hnext)
    have := hearlier next.1 (mem_of_level_lt hall hlt)
    rw [hr'] at this
    cases this

/-! ## Steps and runs -/

/-- One step on the tokens of a row: it carries out a negation, which keeps the row, or the leftmost
operator of the lowest level. -/
theorem Spells.step {ts : List Token} {x : ExprTree} {row : Row}
    (h : Spells ts x.value (values row)) (hlen : ts.length ≠ 1) :
    ∃ r m, redex? ts = some r ∧ r.operation.value = .ok m ∧
      (Spells (r.before ++ resultToken m :: r.after) x.value (values row) ∨
        ∃ op a b x' row', Contracts op a b x row x' row' ∧
          (∀ next ∈ row, op.level ≤ next.1.level) ∧ m = (application op a b).value ∧
          (r.before ++ resultToken m :: r.after).length = 2 * row'.length + 1 ∧
          (0 ≤ m.toInt →
            Spells (r.before ++ resultToken m :: r.after) x'.value (values row'))) := by
  cases hneg : negation? ts with
  | some r =>
    obtain ⟨m, hm, hspells⟩ := h.of_negation? hneg
    exact ⟨r, m, by rw [redex?, hneg, Option.some_or], hm, .inl hspells⟩
  | none =>
    have hlength := h.length_eq hneg
    have hrow : row ≠ [] := by
      rintro rfl
      exact hlen hlength
    obtain ⟨op, r, hr, happ, hop, hlevels⟩ := h.redex?_of_negation?_eq_none hneg hrow
    obtain ⟨r', a, b, x', row', hr', hcontracts, hm, hspells⟩ := h.application? hneg op hop
    obtain rfl : r = r' := Option.some.inj (happ.symm.trans hr')
    refine ⟨r, _, hr, hm, .inr ⟨op, a, b, x', row', hcontracts, hlevels, rfl, ?_, hspells⟩⟩
    have hshort := length_application? happ
    have hfewer := hcontracts.length_eq
    rw [values, List.length_map] at hlength
    rw [List.length_append, List.length_cons]
    omega

/-- The operands within an application of trees of the row are not negative. -/
theorem Ready.operandsNonneg_application {a b x : ExprTree} {row : Row}
    (h : Ready x row) (ha : a ∈ ExprTree.members x row) (hb : b ∈ ExprTree.members x row)
    (op : BinaryOp) :
    (application op a b).OperandsNonneg := by
  intro y hy
  rw [ExprTree.operands, List.mem_cons, List.mem_cons, List.mem_append] at hy
  rcases hy with rfl | rfl | hy | hy
  · exact h.members y ha
  · exact h.members y hb
  · exact h.operands a ha y hy
  · exact h.operands b hb y hy

/-- Applying an operator of the lowest level with a result that is not negative leaves a row that
further operators can be applied in. -/
theorem Ready.contracts {op : BinaryOp} {a b x x' : ExprTree} {row row' : Row}
    (h : Ready x row) (hcontracts : Contracts op a b x row x' row')
    (hlevels : ∀ next ∈ row, op.level ≤ next.1.level)
    (hnonneg : 0 ≤ (application op a b).value.toInt) : Ready x' row' := by
  obtain ⟨⟨ha, hb⟩, hmembers, -, hops⟩ := hcontracts.mem
  have hlower : ∀ next ∈ row', ∃ other ∈ row, other.1 = next.1 := fun next hnext =>
    List.mem_map.1 (hops next hnext)
  -- The application is new in the row; all other trees are from before.
  refine ⟨fun y hy => ?_, fun y hy happ => ?_, fun y hy next hnext => ?_⟩
  · rcases hmembers y hy with rfl | hy
    · exact h.operandsNonneg_application ha hb op
    · exact h.operands y hy
  · rcases hmembers y hy with rfl | hy
    · exact hnonneg
    · exact h.members y hy happ
  · obtain ⟨other, hother, heq⟩ := hlower next hnext
    rw [← heq]
    rcases hmembers y hy with rfl | hy
    · exact hlevels other hother
    · exact h.levels y hy other hother

/-- Tokens among which there is a negative result spell nothing. -/
theorem not_spelled_of_negative {before after : List Token} {m : Int32} (hneg : m.toInt < 0) :
    ¬ Spelled (before ++ resultToken m :: after) := by
  rintro ⟨v, rest, h⟩
  rcases h.isWord_or (resultToken m) (by simp) with hword | hnot | ⟨op, hop⟩
  · rw [isWord_resultToken, decide_eq_true_iff] at hword
    omega
  · exact text_ne_notSymbol (integer?_resultToken m) (congrArg Token.text hnot)
  · exact text_ne_symbol (integer?_resultToken m) op (congrArg Token.text hop)

theorem reduceSolid_of_length_eq_one {ts : List Token} {t : Token} {v n : Int32} (ht : t ∈ ts)
    (hlen : ts.length = 1) (hv : integer? t.text = some v) :
    reduceSolid ts = .ok n ↔ v = n := by
  obtain ⟨u, rfl⟩ := List.length_eq_one_iff.1 hlen
  obtain rfl := List.mem_singleton.1 ht
  rw [reduceSolid, integer_eq_ok_iff, hv, Option.some.injEq]

/-- A whole run on the tokens of a row computes the value of its layered tree, unless an application
that is an operand is negative. -/
theorem reduceSolid_of_spells {ts : List Token} {x : ExprTree} {row : Row}
    (hts : ∀ t ∈ ts, Token.classify t.text = t) (h : Spells ts x.value (values row))
    (hready : Ready x row) (n : Int32) :
    reduceSolid ts = .ok n ↔ (x.grow row).OperandsNonneg ∧ (x.grow row).value = n := by
  -- Every step leaves fewer tokens, and all but the last spell a row with the same layered tree.
  induction hlength : ts.length using Nat.strongRecOn generalizing ts x row with
  | ind len ih =>
    subst hlength
    by_cases hlen : ts.length = 1
    · obtain ⟨t, rfl⟩ := List.length_eq_one_iff.1 hlen
      obtain ⟨hrest, ht⟩ := h.of_singleton
      obtain rfl := List.map_eq_nil_iff.1 hrest
      rw [reduceSolid_of_length_eq_one List.mem_cons_self rfl ht.2]
      exact ⟨fun hv => ⟨hready.operands x List.mem_cons_self, hv⟩, fun hv => hv.2⟩
    obtain ⟨r, m, hr, hm, hstep⟩ := h.step hlen
    have hshort : (r.before ++ resultToken m :: r.after).length < ts.length := by
      have := length_redex? hr
      rw [List.length_append, List.length_cons]
      omega
    have hts' := classify_of_redex? hr hts m
    rw [reduceSolid_of_redex? hr hm]
    rcases hstep with hspells | ⟨op, a, b, x', row', hcontracts, hlevels, rfl, hcount, hspells⟩
    · exact ih _ hshort hts' hspells hready rfl
    have ha : a.level ≤ op.level := by
      obtain ⟨next, hnext, rfl⟩ := List.mem_map.1 hcontracts.mem_op
      exact hready.levels a hcontracts.mem.1.1 next hnext
    rw [← hcontracts.grow_eq hlevels ha]
    by_cases hnonneg : 0 ≤ (application op a b).value.toInt
    · exact ih _ hshort hts' (hspells hnonneg) (hready.contracts hcontracts hlevels hnonneg) rfl
    -- A negative result ends the run: it is the value if it is all that is left, and is no operand
    -- otherwise.
    obtain ⟨⟨ha, hb⟩, -, happ, hops⟩ := hcontracts.mem
    by_cases hrow : row' = []
    · subst hrow
      obtain rfl := List.mem_singleton.1 happ
      rw [reduceSolid_of_length_eq_one (List.mem_append_right _ List.mem_cons_self) hcount
        (integer?_resultToken _)]
      exact ⟨fun hv => ⟨hready.operandsNonneg_application ha hb op, hv⟩, fun hv => hv.2⟩
    · -- The application is an operand of the tree, and no step can use its token.
      have hfalse : ¬ (x'.grow row').OperandsNonneg := by
        intro hall
        refine hnonneg (hall _ (mem_operands_of_mem_members happ (fun next hnext => ?_) hrow) rfl)
        obtain ⟨other, hother, heq⟩ := List.mem_map.1 (hops next hnext)
        exact heq ▸ hlevels other hother
      refine ⟨fun hok => ?_, fun hall => absurd hall.1 hfalse⟩
      rcases spelled_of_reduceSolid hts' hok with hspelled | hone
      · exact absurd hspelled (not_spelled_of_negative (by omega))
      · have := List.length_pos_iff.2 hrow
        omega

/-! ## The value of an expression -/

theorem integer_eq_error {text : Text} {cause : Cause} (h : integer text = .error cause) :
    ∃ defect expression, cause = .valueless defect expression := by
  unfold integer at h
  split at h
  · cases h
  · cases h
    exact ⟨_, _, rfl⟩

theorem value_eq_error {operation : Operation} {cause : Cause}
    (h : operation.value = .error cause) :
    ∃ defect expression, cause = .valueless defect expression := by
  cases operation with
  | negation x =>
    cases hx : integer x.text with
    | error c =>
      rw [Operation.value, hx] at h
      cases h
      exact integer_eq_error hx
    | ok v => rw [Operation.value, hx] at h; cases h
  | binary op x y =>
    cases hy : integer y.text with
    | error c =>
      rw [Operation.value, hy] at h
      cases h
      exact integer_eq_error hy
    | ok w =>
      cases hx : integer x.text with
      | error c =>
        rw [Operation.value, hy, hx] at h
        cases h
        exact integer_eq_error hx
      | ok v => rw [Operation.value, hy, hx] at h; cases h

/-- The causes that reduction reports are those of expressions without a value. -/
theorem reduceSolid_eq_error {ts : List Token} {cause : Cause} (h : reduceSolid ts = .error cause) :
    ∃ defect expression, cause = .valueless defect expression := by
  fun_induction reduceSolid ts with
  | case1 => cases h; exact ⟨_, _, rfl⟩
  | case2 t => exact integer_eq_error h
  | case3 t u ts c hstep =>
    cases h
    unfold step at hstep
    split at hstep
    · cases hstep
    · rename_i r hr
      cases hvalue : r.operation.value with
      | error c => rw [hvalue] at hstep; cases hstep; exact value_eq_error hvalue
      | ok m => rw [hvalue] at hstep; cases hstep
  | case4 => cases h; exact ⟨_, _, rfl⟩
  | case5 t u ts next hstep ih => exact ih h

/-- Operands that nothing has been applied to are a row that operators can be applied in. -/
theorem ready_leaves (v : Int32) (rest : List (BinaryOp × Int32)) :
    Ready (leaf v) (leaves rest) := by
  have hleaf : ∀ y ∈ ExprTree.members (leaf v) (leaves rest), ∃ w, y = leaf w := by
    intro y hy
    rcases List.mem_cons.1 hy with rfl | hy
    · exact ⟨v, rfl⟩
    · obtain ⟨next, hnext, rfl⟩ := List.mem_map.1 hy
      obtain ⟨other, -, rfl⟩ := List.mem_map.1 hnext
      exact ⟨other.2, rfl⟩
  refine ⟨fun y hy => ?_, fun y hy happ => ?_, fun y hy next hnext => ?_⟩
  · obtain ⟨w, rfl⟩ := hleaf y hy
    exact fun z hz => absurd hz List.not_mem_nil
  · obtain ⟨w, rfl⟩ := hleaf y hy
    cases happ
  · obtain ⟨w, rfl⟩ := hleaf y hy
    exact Nat.zero_le _

/-- Tokens of lines without white space reduce to a number exactly if they spell an expression whose
layered tree has that value and no negative application as an operand. -/
theorem reduceSolid_eq_ok_iff {ts : List Token} (hts : ∀ t ∈ ts, ∃ line, t ∈ Token.tokenize line)
    (hsolid : ∀ t ∈ ts, t.isSpace = false) (n : Int32) :
    reduceSolid ts = .ok n ↔
      ∃ t : ExprTree, t.Layered ∧ Spells ts t.first t.rest ∧ t.OperandsNonneg ∧ t.value = n := by
  have hclassify : ∀ t ∈ ts, Token.classify t.text = t := by
    intro t ht
    obtain ⟨line, hline⟩ := hts t ht
    exact (Token.eq_classify_of_mem_tokenize hline).1
  have hvalues (rest : List (BinaryOp × Int32)) : values (leaves rest) = rest := by
    rw [values, leaves, List.map_map]
    exact List.map_id rest
  have hrun {v : Int32} {rest : List (BinaryOp × Int32)} (h : Spells ts v rest) :
      reduceSolid ts = .ok n ↔ ((leaf v).grow (leaves rest)).OperandsNonneg ∧
        ((leaf v).grow (leaves rest)).value = n :=
    reduceSolid_of_spells hclassify ((hvalues rest).symm ▸ h) (ready_leaves v rest) n
  refine ⟨fun hok => ?_, ?_⟩
  · have hspelled : Spelled ts := by
      rcases spelled_of_reduceSolid hclassify hok with h | h
      · exact h
      -- A single token of a line that is an integer is a word: the others have no digits.
      obtain ⟨t, rfl⟩ := List.length_eq_one_iff.1 h
      rw [reduceSolid, integer_eq_ok_iff] at hok
      obtain ⟨line, hline⟩ := hts t List.mem_cons_self
      rcases Token.isSpace_or_isWord_or_isOther_of_mem_tokenize hline with hspace | hword | hother
      · exact absurd hspace (Bool.eq_false_iff.1 (hsolid t List.mem_cons_self))
      · exact ⟨n, [], .last ⟨hword, hok⟩⟩
      · rw [integer?_of_isOther hother] at hok
        cases hok
    obtain ⟨v, rest, h⟩ := hspelled
    obtain ⟨hlayered, hfirst, hrest⟩ := layered_grow_leaves rest (t := leaf v) trivial
    obtain ⟨hnonneg, hvalue⟩ := (hrun h).1 hok
    exact ⟨_, hlayered, by rwa [hfirst, hrest], hnonneg, hvalue⟩
  · rintro ⟨t, hlayered, h, hnonneg, hvalue⟩
    rw [hrun h, hlayered.grow_eq]
    exact ⟨hnonneg, hvalue⟩

/-- Reduction gives a value exactly to the expressions of operands, which are integer words with
any number of negations before them, and operators between the operands, if in the layered tree of
the expression no application that is an operand of another one is negative. It gives them the value
of that tree, of which there is one, and reports everything else as an expression without a
value. -/
theorem reduce_eq_layered_value (ts : List Token)
    (hts : ∀ t ∈ ts, ∃ line, t ∈ Token.tokenize line) :
    (∀ n, reduce ts = .ok n ↔
      ∃ t : ExprTree, t.Layered ∧ Spells (Tokens.withoutSpace ts) t.first t.rest ∧
        t.OperandsNonneg ∧ t.value = n) ∧
    (Spelled (Tokens.withoutSpace ts) →
      ∃! t : ExprTree, t.Layered ∧ Spells (Tokens.withoutSpace ts) t.first t.rest) ∧
    ∀ cause, reduce ts = .error cause → ∃ defect text, cause = .valueless defect text := by
  refine ⟨fun n => ?_, ?_, fun cause h => reduceSolid_eq_error h⟩
  · refine reduceSolid_eq_ok_iff (fun t ht => hts t (List.mem_filter.1 ht).1) (fun t ht => ?_) n
    simpa using (List.mem_filter.1 ht).2
  · rintro ⟨v, rest, h⟩
    obtain ⟨t, ⟨hlayered, rfl, rfl⟩, hunique⟩ := existsUnique_layered v rest
    refine ⟨t, ⟨hlayered, h⟩, fun t' ⟨hlayered', h'⟩ => ?_⟩
    obtain ⟨hfirst, hrest⟩ := h'.unique h
    exact hunique t' ⟨hlayered', hfirst, hrest⟩

/-- In `!0 | 8 >> 2 < 3` the shift comes before the comparison and both before the disjunction. -/
theorem reduce_eq_layered_value_shift :
    reduce (Token.tokenize (ascii "!0 | 8 >> 2 < 3")) = .ok 1 := by
  refine ((reduce_eq_layered_value _ fun t ht => ⟨_, ht⟩).1 1).2
    ⟨application .bitOr (leaf 1)
      (application .less (application .shiftRight (leaf 8) (leaf 2)) (leaf 3)), ?_, ?_, ?_, ?_⟩
  · decide
  · have htokens : Tokens.withoutSpace (Token.tokenize (ascii "!0 | 8 >> 2 < 3")) =
        [notToken, .word "0", BinaryOp.bitOr.token, .word "8", BinaryOp.shiftRight.token, .word "2",
          BinaryOp.less.token, .word "3"] := by decide +kernel
    rw [htokens]
    refine .negation (v := 0) (.more _ ⟨rfl, ?_⟩ (.more _ ⟨rfl, ?_⟩ (.more _ ⟨rfl, ?_⟩
      (.last ⟨rfl, ?_⟩))))
    all_goals decide +kernel
  · decide
  · decide

end HeaderMacros.Condition
