import HeaderMacros.Condition.Reduce
import Mathlib.Algebra.Ring.Int.Defs

/-!
# Layered expressions

The operators with two operands have a level each, the shift the lowest. An expression tree is
layered if every operator stands above operators of lower levels, or of its own level on the left
only, so that operators of one level associate to the left.

- `existsUnique_layered`: operands with operators between them have exactly one layered tree.
- `Contracts.grow_eq`: in a row of trees, applying the leftmost operator of the lowest level leaves
  the layered tree of the row as it is.
-/

namespace HeaderMacros.Condition

/-- The level of an operator; a lower level binds more tightly. -/
def BinaryOp.level : BinaryOp → Nat
  | .shiftRight => 1
  | .less => 2
  | .greater => 3
  | .lessEqual => 4
  | .greaterEqual => 5
  | .equal => 6
  | .notEqual => 7
  | .bitAnd => 8
  | .bitOr => 9
  | .logicalAnd => 10
  | .logicalOr => 11

theorem BinaryOp.level_injective {o op : BinaryOp} (h : o.level = op.level) : o = op := by
  cases o <;> cases op <;> first | rfl | exact absurd h (by decide)

/-! ## The meaning of operators -/

/-- What an operator means in terms of integers: a shift divides by a power of two and rounds down,
comparisons and logical operators give one or zero. -/
def BinaryOp.meaning (op : BinaryOp) (x y : Int32) : Int32 :=
  match op with
  | .shiftRight => Int32.ofInt (x.toInt / 2 ^ (y.toInt % 32).toNat)
  | .less => if x.toInt < y.toInt then 1 else 0
  | .greater => if x.toInt > y.toInt then 1 else 0
  | .lessEqual => if x.toInt ≤ y.toInt then 1 else 0
  | .greaterEqual => if x.toInt ≥ y.toInt then 1 else 0
  | .equal => if x = y then 1 else 0
  | .notEqual => if x = y then 0 else 1
  | .bitAnd => x &&& y
  | .bitOr => x ||| y
  | .logicalAnd => if x = 0 ∨ y = 0 then 0 else 1
  | .logicalOr => if x = 0 ∧ y = 0 then 0 else 1

/-- What a negation means. -/
def negated (x : Int32) : Int32 := if x = 0 then 1 else 0

/-- The lowest five bits are the remainder modulo 32. -/
theorem toNat_smod_and (y : BitVec 32) :
    ((y &&& 31#32).smod 32#32).toNat = (y.toInt % 32).toNat := by
  have hand : (y &&& 31#32).toNat = y.toNat % 32 := by
    rw [BitVec.toNat_and]
    exact Nat.and_two_pow_sub_one_eq_mod y.toNat 5
  -- Neither number has its sign bit set, so the signed remainder is the one of natural numbers.
  have hmsb : (y &&& 31#32).msb = false := by
    rw [BitVec.msb_eq_decide, hand, decide_eq_false_iff_not]
    omega
  have hmsb' : (32#32).msb = false := by decide
  have hsmod : ((y &&& 31#32).smod 32#32).toNat = y.toNat % 32 % 32 := by
    rw [BitVec.smod_eq, hmsb, hmsb']
    simp only [BitVec.umod_eq, BitVec.toNat_umod, hand]
    rfl
  have hcond := BitVec.toInt_eq_toNat_cond y
  rw [hsmod]
  split at hcond <;> omega

/-- A shift by the lowest five bits of the count divides by a power of two. -/
theorem toInt_shiftRight_and (x y : Int32) :
    (x >>> (y &&& 31)).toInt = x.toInt / 2 ^ (y.toInt % 32).toNat := by
  have hcount := toNat_smod_and y.toBitVec
  rw [Int32.toInt_toBitVec] at hcount
  rw [← Int32.toInt_toBitVec, Int32.toBitVec_shiftRight, BitVec.sshiftRight',
    BitVec.toInt_sshiftRight, Int.shiftRight_eq_div_pow, Int32.toBitVec_and, Int32.toInt_toBitVec,
    ← hcount]
  norm_cast

/-- The result of an operator is what it means. -/
theorem BinaryOp.apply_eq_meaning (op : BinaryOp) (x y : Int32) :
    op.apply x y = op.meaning x y := by
  cases op with
  | shiftRight =>
    rw [apply, meaning, ← toInt_shiftRight_and, Int32.ofInt_toInt]
  | less => simp [apply, meaning, truth, Int32.lt_iff_toInt_lt]
  | greater => simp [apply, meaning, truth, Int32.lt_iff_toInt_lt]
  | lessEqual => simp [apply, meaning, truth, Int32.le_iff_toInt_le]
  | greaterEqual => simp [apply, meaning, truth, Int32.le_iff_toInt_le]
  | equal => simp [apply, meaning, truth]
  | notEqual => by_cases h : x = y <;> simp [apply, meaning, truth, h]
  | bitAnd => rfl
  | bitOr => rfl
  | logicalAnd =>
    by_cases hx : x = 0 <;> by_cases hy : y = 0 <;> simp [apply, meaning, truth, hx, hy]
  | logicalOr =>
    by_cases hx : x = 0 <;> by_cases hy : y = 0 <;> simp [apply, meaning, truth, hx, hy]

theorem applyNot_eq_negated (x : Int32) : applyNot x = negated x := by
  simp [applyNot, negated, truth]

/-! ## Trees -/

/-- A tree of operators over the values of operands. -/
inductive ExprTree where
  /-- An operand with its value, after its negations. -/
  | leaf (v : Int32)
  /-- An operator applied to two trees. -/
  | application (op : BinaryOp) (l r : ExprTree)

namespace ExprTree

/-- The value of a tree. -/
def value : ExprTree → Int32
  | leaf v => v
  | application op l r => op.meaning l.value r.value

/-- The level of the outermost operator. -/
def level : ExprTree → Nat
  | leaf _ => 0
  | application op _ _ => op.level

/-- Operators of lower levels stand below those of higher levels, and operators of one level
associate to the left. -/
def Layered : ExprTree → Prop
  | leaf _ => True
  | application op l r => l.Layered ∧ r.Layered ∧ l.level ≤ op.level ∧ r.level < op.level

instance decidableLayered : (t : ExprTree) → Decidable t.Layered
  | leaf _ => .isTrue trivial
  | application op l r =>
    have := decidableLayered l
    have := decidableLayered r
    inferInstanceAs
      (Decidable (l.Layered ∧ r.Layered ∧ l.level ≤ op.level ∧ r.level < op.level))

/-- The value of the first operand. -/
def first : ExprTree → Int32
  | leaf v => v
  | application _ l _ => l.first

/-- The operators with the values of the operands after them. -/
def rest : ExprTree → List (BinaryOp × Int32)
  | leaf _ => []
  | application op l r => l.rest ++ (op, r.first) :: r.rest

/-- The trees that an operator is applied to anywhere in a tree. -/
def operands : ExprTree → List ExprTree
  | leaf _ => []
  | application _ l r => l :: r :: (l.operands ++ r.operands)

/-- Whether a tree is the application of an operator. -/
def isApplication : ExprTree → Bool
  | leaf _ => false
  | application _ _ _ => true

/-- No application that is an operand of another one has a negative value. A negation, which is part
of an operand here, has the value zero or one. -/
def OperandsNonneg (t : ExprTree) : Prop :=
  ∀ x ∈ t.operands, x.isApplication = true → 0 ≤ x.value.toInt

instance (t : ExprTree) : Decidable t.OperandsNonneg :=
  inferInstanceAs (Decidable (∀ x ∈ t.operands, x.isApplication = true → 0 ≤ x.value.toInt))

/-! ## The layered tree of a row -/

/-- Adds an operator with its second operand at the end of a tree, below the operators on the right
side that bind less tightly. -/
def insert (t : ExprTree) (op : BinaryOp) (u : ExprTree) : ExprTree :=
  match t with
  | leaf v => application op (leaf v) u
  | application o l r =>
    if o.level ≤ op.level then application op (application o l r) u
    else application o l (r.insert op u)

/-- Operators with the trees after them. With a tree in front they are a row of trees. -/
abbrev Row := List (BinaryOp × ExprTree)

/-- The tree of a row of trees with operators between them. -/
def grow (x : ExprTree) (row : Row) : ExprTree :=
  row.foldl (fun t next => t.insert next.1 next.2) x

/-- The trees of a row. -/
def members (x : ExprTree) (row : Row) : List ExprTree := x :: row.map Prod.snd

/-- The row of operands with given values. -/
def leaves (rest : List (BinaryOp × Int32)) : Row :=
  rest.map fun next => (next.1, leaf next.2)

@[simp]
theorem grow_cons (x y : ExprTree) (op : BinaryOp) (row : Row) :
    grow x ((op, y) :: row) = grow (x.insert op y) row := rfl

theorem insert_of_level_le {t : ExprTree} {op : BinaryOp} (h : t.level ≤ op.level) (u : ExprTree) :
    t.insert op u = application op t u := by
  cases t with
  | leaf v => rfl
  | application o l r => exact if_pos h

/-- An operator that binds more tightly than the outermost one is put below it on the right. -/
theorem insert_of_lt_level {o op : BinaryOp} (h : op.level < o.level) (l r u : ExprTree) :
    (application o l r).insert op u = application o l (r.insert op u) :=
  if_neg (Nat.not_le.2 h)

theorem first_insert (t u : ExprTree) (op : BinaryOp) : (t.insert op u).first = t.first := by
  fun_induction insert t op u with
  | case1 => rfl
  | case2 => rfl
  | case3 => rfl

theorem rest_insert (t u : ExprTree) (op : BinaryOp) :
    (t.insert op u).rest = t.rest ++ (op, u.first) :: u.rest := by
  fun_induction insert t op u with
  | case1 => rfl
  | case2 => rfl
  | case3 o l r hlevel ih =>
    rw [rest, ih, first_insert, rest, List.append_assoc, List.cons_append]

theorem level_insert (t u : ExprTree) (op : BinaryOp) :
    (t.insert op u).level = max t.level op.level := by
  cases t with
  | leaf v => exact (Nat.max_eq_right (Nat.zero_le _)).symm
  | application o l r =>
    rcases Nat.lt_or_ge op.level o.level with h | h
    · rw [insert_of_lt_level h]
      exact (Nat.max_eq_left (Nat.le_of_lt h)).symm
    · rw [insert_of_level_le (show (application o l r).level ≤ op.level from h)]
      exact (Nat.max_eq_right h).symm

/-- Adding an operator with an operand keeps a tree layered. -/
theorem Layered.insert {t : ExprTree} (h : t.Layered) (op : BinaryOp) (v : Int32) :
    (t.insert op (leaf v)).Layered := by
  -- An operand has level zero, so it may stand to the right of any operator.
  have hpos : 0 < op.level := by cases op <;> decide
  fun_induction ExprTree.insert t op (leaf v) with
  | case1 w => exact ⟨trivial, trivial, Nat.zero_le _, hpos⟩
  | case2 o l r hlevel => exact ⟨h, trivial, hlevel, hpos⟩
  | case3 o l r hlevel ih =>
    obtain ⟨hl, hr, hleft, hright⟩ := h
    refine ⟨hl, ih hr, hleft, ?_⟩
    rw [level_insert]
    omega

/-- The layered tree of a row of operands is layered and has the operands of the row. -/
theorem layered_grow_leaves (rest : List (BinaryOp × Int32)) {t : ExprTree} (h : t.Layered) :
    (t.grow (leaves rest)).Layered ∧ (t.grow (leaves rest)).first = t.first ∧
      (t.grow (leaves rest)).rest = t.rest ++ rest := by
  induction rest generalizing t with
  | nil => exact ⟨h, rfl, (List.append_nil _).symm⟩
  | cons next rest ih =>
    obtain ⟨hlayered, hfirst, hrest⟩ := ih (h.insert next.1 next.2)
    refine ⟨hlayered, hfirst.trans (first_insert t _ _), hrest.trans ?_⟩
    rw [rest_insert, List.append_assoc]
    rfl

/-- The operators of a layered tree have at most its level. -/
theorem Layered.level_le {t : ExprTree} (h : t.Layered) :
    ∀ next ∈ t.rest, next.1.level ≤ t.level := by
  induction t with
  | leaf v => exact fun next hnext => absurd hnext (by simp [rest])
  | application op l r ihl ihr =>
    obtain ⟨hl, hr, hleft, hright⟩ := h
    intro next hnext
    rw [level]
    rcases List.mem_append.1 hnext with hnext | hnext
    · exact Nat.le_trans (ihl hl next hnext) hleft
    · rcases List.mem_cons.1 hnext with rfl | hnext
      · exact Nat.le_refl _
      · exact Nat.le_trans (ihr hr next hnext) (Nat.le_of_lt hright)

/-- Operators that bind more tightly than the outermost one go to the right of it. -/
theorem grow_application {op : BinaryOp} {row : Row}
    (h : ∀ next ∈ row, next.1.level < op.level) (l r : ExprTree) :
    (application op l r).grow row = application op l (r.grow row) := by
  induction row generalizing r with
  | nil => rfl
  | cons next row ih =>
    rw [grow_cons, insert_of_lt_level (h next List.mem_cons_self), grow_cons]
    exact ih (fun other hother => h other (List.mem_cons_of_mem next hother)) _

/-- A layered tree is the tree of its operands. -/
theorem Layered.grow_eq {t : ExprTree} (h : t.Layered) :
    (leaf t.first).grow (leaves t.rest) = t := by
  induction t with
  | leaf v => rfl
  | application op l r ihl ihr =>
    obtain ⟨hl, hr, hleft, hright⟩ := h
    -- The operators within `r` bind more tightly than `op`, so they are added below it.
    have hrow : ∀ next ∈ leaves r.rest, next.1.level < op.level := by
      intro next hnext
      obtain ⟨other, hother, rfl⟩ := List.mem_map.1 hnext
      exact Nat.lt_of_le_of_lt (hr.level_le other hother) hright
    calc (leaf l.first).grow (leaves (l.rest ++ (op, r.first) :: r.rest))
        = ((leaf l.first).grow (leaves l.rest)).grow ((op, leaf r.first) :: leaves r.rest) := by
          rw [leaves, List.map_append, grow, List.foldl_append]
          rfl
      _ = (application op l (leaf r.first)).grow (leaves r.rest) := by
          rw [ihl hl, grow_cons, insert_of_level_le hleft]
      _ = application op l r := by rw [grow_application hrow, ihr hr]

/-- Operands with operators between them have exactly one layered tree. -/
theorem existsUnique_layered (v : Int32) (rest : List (BinaryOp × Int32)) :
    ∃! t : ExprTree, t.Layered ∧ t.first = v ∧ t.rest = rest := by
  refine ⟨(leaf v).grow (leaves rest), layered_grow_leaves rest trivial, ?_⟩
  rintro t ⟨hlayered, rfl, rfl⟩
  exact hlayered.grow_eq.symm

/-! ## Applying one operator in a row -/

/-- The leftmost occurrence of `op` in a row of trees stands between `a` and `b`, and the second row
has its application there. -/
inductive Contracts (op : BinaryOp) (a b : ExprTree) :
    ExprTree → Row → ExprTree → Row → Prop where
  /-- The first operator of the row is the one. -/
  | here (row : Row) :
    Contracts op a b a ((op, b) :: row) (application op a b) row
  /-- The first operator of the row is another one. -/
  | there {o : BinaryOp} {y y' : ExprTree} {row row' : Row} (x : ExprTree) (h : o ≠ op)
    (next : Contracts op a b y row y' row') : Contracts op a b x ((o, y) :: row) x ((o, y') :: row')

variable {op o : BinaryOp} {a b x x' : ExprTree} {row row' : Row}

/-- Adding an operator and then one that binds more tightly is adding the first one with the
application of the second. -/
theorem insert_insert (hlevel : op.level < o.level) (hx : x.level ≤ op.level) (t y : ExprTree) :
    (t.insert o x).insert op y = t.insert o (application op x y) := by
  induction t with
  | leaf v => rw [insert, insert_of_lt_level hlevel, insert_of_level_le hx, insert]
  | application o' l r ihl ihr =>
    by_cases h : o'.level ≤ o.level
    · have h' : (application o' l r).level ≤ o.level := h
      rw [insert_of_level_le h', insert_of_level_le h', insert_of_lt_level hlevel,
        insert_of_level_le hx]
    · have hlt : o.level < o'.level := Nat.not_le.1 h
      rw [insert_of_lt_level hlt, insert_of_lt_level hlt,
        insert_of_lt_level (Nat.lt_trans hlevel hlt), ihr]

theorem Contracts.mem_op (h : Contracts op a b x row x' row') : op ∈ row.map Prod.fst := by
  induction h with
  | here row => exact List.mem_cons_self
  | there x h next ih => exact List.mem_cons_of_mem _ ih

/-- The trees of the row after applying an operator are the application and trees of the row before;
the operators are operators of the row before. -/
theorem Contracts.mem (h : Contracts op a b x row x' row') :
    (a ∈ members x row ∧ b ∈ members x row) ∧
      (∀ y ∈ members x' row', y = application op a b ∨ y ∈ members x row) ∧
      application op a b ∈ members x' row' ∧ ∀ next ∈ row', next.1 ∈ row.map Prod.fst := by
  induction h with
  | here row =>
    refine ⟨⟨List.mem_cons_self, by simp [members]⟩, fun y hy => ?_, List.mem_cons_self,
      fun next hnext => ?_⟩
    · rcases List.mem_cons.1 hy with rfl | hy
      · exact .inl rfl
      · exact .inr (by simp_all [members])
    · exact List.mem_cons_of_mem _ (List.mem_map_of_mem hnext)
  | there x h next ih =>
    obtain ⟨⟨ha, hb⟩, hmembers, happ, hops⟩ := ih
    refine ⟨⟨List.mem_cons_of_mem x ha, List.mem_cons_of_mem x hb⟩, fun z hz => ?_,
      List.mem_cons_of_mem x happ, fun other hother => ?_⟩
    · rcases List.mem_cons.1 hz with rfl | hz
      · exact .inr List.mem_cons_self
      · exact (hmembers z hz).imp_right (List.mem_cons_of_mem x)
    · rcases List.mem_cons.1 hother with rfl | hother
      · exact List.mem_cons_self
      · exact List.mem_cons_of_mem _ (hops other hother)

theorem Contracts.length_eq (h : Contracts op a b x row x' row') :
    row.length = row'.length + 1 := by
  induction h with
  | here row => rfl
  | there x h next ih => rw [List.length_cons, List.length_cons, ih]

/-- Applying the leftmost operator of the lowest level in a row that is added to a tree by an
operator of a higher level leaves the whole tree as it is. -/
theorem Contracts.grow_insert (h : Contracts op a b x row x' row')
    (hops : ∀ next ∈ row, op.level ≤ next.1.level) (ha : a.level ≤ op.level)
    (ho : op.level < o.level) (t : ExprTree) :
    (t.insert o x').grow row' = (t.insert o x).grow row := by
  -- Along the operators that are passed over, each of which binds less tightly than `op`.
  induction h generalizing t o with
  | here row => rw [grow_cons, insert_insert ho ha]
  | @there o' y y' row row' x hne next ih =>
    have hlt : op.level < o'.level := Nat.lt_of_le_of_ne (hops (o', y) List.mem_cons_self)
      fun heq => hne (BinaryOp.level_injective heq).symm
    rw [grow_cons, grow_cons]
    exact ih (fun other hother => hops other (List.mem_cons_of_mem _ hother)) hlt _

/-- Applying the leftmost operator of the lowest level in a row leaves its tree as it is. -/
theorem Contracts.grow_eq (h : Contracts op a b x row x' row')
    (hops : ∀ next ∈ row, op.level ≤ next.1.level) (ha : a.level ≤ op.level) :
    x'.grow row' = x.grow row := by
  cases h with
  | here row => rw [grow_cons, insert_of_level_le ha]
  | @there o y y' row row' x hne next =>
    have hlt : op.level < o.level := Nat.lt_of_le_of_ne (hops (o, y) List.mem_cons_self)
      fun heq => hne (BinaryOp.level_injective heq).symm
    rw [grow_cons, grow_cons]
    exact next.grow_insert (fun other hother => hops other (List.mem_cons_of_mem _ hother)) ha hlt x

/-! ## Operands of the tree of a row -/

theorem mem_operands_insert_self (t u : ExprTree) (op : BinaryOp) :
    u ∈ (t.insert op u).operands := by
  fun_induction insert t op u with
  | case1 => simp [operands]
  | case2 => simp [operands]
  | case3 o l r hlevel ih => simp [operands, ih]

theorem mem_operands_insert {y t : ExprTree} (hy : y ∈ t.operands) (hlevel : y.level ≤ op.level)
    (u : ExprTree) : y ∈ (t.insert op u).operands := by
  fun_induction insert t op u with
  | case1 => simp [operands] at hy
  | case2 o l r => exact List.mem_cons_of_mem _ (List.mem_cons_of_mem _ (List.mem_append_left _ hy))
  | case3 o l r hlt ih =>
    simp only [operands, List.mem_cons, List.mem_append] at hy ⊢
    rcases hy with rfl | rfl | hy | hy
    · exact .inl rfl
    · -- `y` is on the right side, where the new operator is put above it.
      rw [insert_of_level_le hlevel]
      exact .inr (.inr (.inr List.mem_cons_self))
    · exact .inr (.inr (.inl hy))
    · exact .inr (.inr (.inr (ih hy)))

/-- An operand stays one when operators are added that bind no more tightly than it. -/
theorem mem_operands_grow {y t : ExprTree} (hy : y ∈ t.operands)
    (hlevel : ∀ next ∈ row, y.level ≤ next.1.level) : y ∈ (t.grow row).operands := by
  induction row generalizing t with
  | nil => exact hy
  | cons next row ih =>
    exact ih (mem_operands_insert hy (hlevel next List.mem_cons_self) _)
      fun other hother => hlevel other (List.mem_cons_of_mem next hother)

/-- A tree of a row is an operand of the tree of the row, if there is an operator at all and none
binds more tightly than the tree. -/
theorem mem_operands_of_mem_members {y : ExprTree} (hy : y ∈ members x row)
    (hlevel : ∀ next ∈ row, y.level ≤ next.1.level) (hrow : row ≠ []) :
    y ∈ (x.grow row).operands := by
  rcases List.mem_cons.1 hy with rfl | hy
  · -- The first tree becomes an operand with the first operator.
    obtain ⟨⟨op, u⟩, row, rfl⟩ := List.exists_cons_of_ne_nil hrow
    rw [grow_cons, insert_of_level_le (hlevel (op, u) List.mem_cons_self)]
    exact mem_operands_grow List.mem_cons_self
      fun other hother => hlevel other (List.mem_cons_of_mem _ hother)
  · -- `y` becomes an operand when its operator is added and stays one afterwards.
    obtain ⟨⟨op, u⟩, hmem, rfl⟩ := List.mem_map.1 hy
    obtain ⟨before, after, rfl⟩ := List.append_of_mem hmem
    rw [grow, List.foldl_append, List.foldl_cons]
    exact mem_operands_grow (mem_operands_insert_self _ u op)
      fun other hother => hlevel other (by simp [hother])

end ExprTree

end HeaderMacros.Condition
