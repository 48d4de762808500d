import HeaderMacros.Proofs.Condition.Expansion
import Mathlib.Algebra.Order.BigOperators.Group.List
import Mathlib.Data.ENat.Lattice
import Mathlib.Data.Fintype.Card
import Mathlib.Order.CompletePartialOrder

/-!
# Complete replacement

A condition without parentheses and without the test operator is expanded by replacing names only.
It can also be read as a forest, in which the tokens of its replacement stand below a name. Its
expansion writes down the leaves of the forest, and takes one step for each name in it.

* `Unfolds`: the leaves of a forest.
* `replacements`: the number of names in a tree. It is infinite exactly if some name in the tree
  stands below itself (`totalReplacements_eq_top_iff`), as a table has finitely many macros.
* `expand_eq_unfolding`: the expansion of a condition comes to the leaves if there are steps enough,
  and fails for want of steps otherwise.
-/

namespace HeaderMacros.Condition

variable {lookup : Lookup} {table : Table} {ts : List Token} {name : Text}

/-! ## The names below a name -/

/-- The tokens that a name gives way to. -/
def replacement (lookup : Lookup) (name : Text) : List Token := (lookup name).toMacro.value

/-- A name stands in the replacement of another one. -/
def Mentions (lookup : Lookup) (name other : Text) : Prop :=
  ∃ t ∈ replacement lookup name, t.isIdent = true ∧ t.text = other

/-- A name stands in the replacement of another one, or in that of a name that does, and so on. -/
def Reaches (lookup : Lookup) : Text → Text → Prop := Relation.TransGen (Mentions lookup)

/-- A name is one of some tokens or can be reached from one. -/
def ReachedFrom (lookup : Lookup) (ts : List Token) (name : Text) : Prop :=
  ∃ t ∈ ts, t.isIdent = true ∧ Relation.ReflTransGen (Mentions lookup) t.text name

/-- A token that is neither an opening parenthesis nor the test operator. -/
def IsBare (t : Token) : Prop :=
  t.is [Byte.openParen] = false ∧ (t.isIdent = true → t.text ≠ definedName)

instance (t : Token) : Decidable (IsBare t) := inferInstanceAs (Decidable (_ ∧ _))

/-- Neither some tokens nor the replacements that can be reached from them have an opening
parenthesis or the test operator among them. -/
structure Bare (lookup : Lookup) (ts : List Token) : Prop where
  /-- The tokens are bare. -/
  tokens : ∀ t ∈ ts, IsBare t
  /-- The replacements are bare. -/
  below : ∀ name, ReachedFrom lookup ts name → ∀ t ∈ replacement lookup name, IsBare t

theorem reachedFrom_of_mem_replacement {t : Token} (hname : ReachedFrom lookup ts name)
    (ht : t ∈ replacement lookup name) (hident : t.isIdent = true) :
    ReachedFrom lookup ts t.text := by
  obtain ⟨first, hfirst, hident', hpath⟩ := hname
  exact ⟨first, hfirst, hident', hpath.tail ⟨t, ht, hident, rfl⟩⟩

/-- Replacing a name leads to names that could be reached before. -/
theorem Bare.replace {front after : List Token} {t : Token}
    (h : Bare lookup (front ++ t :: after)) (hident : t.isIdent = true) :
    Bare lookup (front ++ (replacement lookup t.text ++ after)) := by
  have hself : ReachedFrom lookup (front ++ t :: after) t.text :=
    ⟨t, by simp, hident, Relation.ReflTransGen.refl⟩
  constructor
  · intro u hu
    simp only [List.mem_append] at hu
    rcases hu with hu | hu | hu
    · exact h.tokens u (by simp [hu])
    · exact h.below t.text hself u hu
    · exact h.tokens u (by simp [hu])
  · rintro name ⟨u, hu, hident', hpath⟩
    refine h.below name ?_
    simp only [List.mem_append] at hu
    rcases hu with hu | hu | hu
    · exact ⟨u, by simp [hu], hident', hpath⟩
    · -- The name stands in the replacement, so the way to it starts at what is replaced.
      exact ⟨t, by simp, hident, hpath.head ⟨u, hu, hident', rfl⟩⟩
    · exact ⟨u, by simp [hu], hident', hpath⟩

/-- It is enough that no macro of a table has a parenthesis or the test operator in it. -/
theorem bare_of_macros (hmacros : ∀ m ∈ table.macros, ∀ t ∈ m.value, IsBare t)
    (hts : ∀ t ∈ ts, IsBare t) : Bare table.lookup ts where
  tokens := hts
  below := by
    have hreplacement (name : Text) (hname : name ≠ definedName) :
        ∀ t ∈ replacement table.lookup name, IsBare t := by
      rw [replacement, Table.lookup, if_neg hname]
      split
      · rename_i m hentry
        exact hmacros m (Table.mem_macros.2 (by rwa [table.name_eq name m hentry]))
      · decide
    rintro name ⟨t, ht, hident, hpath⟩
    refine hreplacement name ?_
    induction hpath with
    | refl => exact (hts t ht).2 hident
    | tail _ hmentions ih =>
      obtain ⟨u, hu, hident', rfl⟩ := hmentions
      exact (hreplacement _ ih u hu).2 hident'

theorem lookup_ne_definedOperator (hname : name ≠ definedName) :
    table.lookup name ≠ .definedOperator := by
  unfold Table.lookup
  rw [if_neg hname]
  split <;> exact Meaning.noConfusion

/-- A step on bare tokens replaces a name, if there is one. -/
theorem Bare.expandOnce_cases (h : Bare table.lookup ts) :
    (expandOnce table.lookup ts = .ok .finished ∧ ∀ t ∈ ts, t.isIdent = false) ∨
    ∃ front t after, ts = front ++ t :: after ∧ t.isIdent = true ∧
      expandOnce table.lookup ts =
        .ok (.expanded (front ++ (replacement table.lookup t.text ++ after))) := by
  have hshape := stepsTo_expandOnce table.lookup ts
  have hoperator {t : Token} (ht : t ∈ ts) (hident : t.isIdent = true) :
      table.lookup t.text ≠ .definedOperator :=
    lookup_ne_definedOperator ((h.tokens t ht).2 hident)
  have hparen {t : Token} (ht : t ∈ ts) : t.is [Byte.openParen] ≠ true := by
    simp [(h.tokens t ht).1]
  generalize expandOnce table.lookup ts = progress at hshape ⊢
  cases hshape with
  | finished hsettled => exact .inl ⟨rfl, fun t ht => (isSettled_eq_true_iff.1 (hsettled t ht)).1⟩
  | @replaced front after t hident => exact .inr ⟨front, t, after, rfl, hident, rfl⟩
  | tested hident hmeaning | untested hident hmeaning =>
    exact absurd hmeaning (hoperator (by simp) hident)
  | unclosed hopening | invoked _ _ hopening | nested _ hopening =>
    exact absurd hopening (hparen (by simp))

/-! ## The leaves -/

/-- The leaves below some tokens: every name gives way to the leaves of its replacement, and all
other tokens stay. -/
inductive Unfolds (lookup : Lookup) : List Token → List Token → Prop where
  /-- There are no tokens. -/
  | nil : Unfolds lookup [] []
  /-- A token that is no name stays. -/
  | keep {t : Token} {ts leaves : List Token} (ht : t.isIdent = false)
    (hts : Unfolds lookup ts leaves) : Unfolds lookup (t :: ts) (t :: leaves)
  /-- A name gives way to the leaves of its replacement. -/
  | replace {t : Token} {ts inner leaves : List Token} (ht : t.isIdent = true)
    (hinner : Unfolds lookup (replacement lookup t.text) inner) (hts : Unfolds lookup ts leaves) :
    Unfolds lookup (t :: ts) (inner ++ leaves)

theorem unfolds_self (h : ∀ t ∈ ts, t.isIdent = false) : Unfolds lookup ts ts := by
  induction ts with
  | nil => exact .nil
  | cons t ts ih =>
    rw [List.forall_mem_cons] at h
    exact .keep h.1 (ih h.2)

theorem Unfolds.of_append {us leaves : List Token} (h : Unfolds lookup (ts ++ us) leaves) :
    ∃ first second, leaves = first ++ second ∧ Unfolds lookup ts first ∧
      Unfolds lookup us second := by
  induction ts generalizing leaves with
  | nil => exact ⟨[], leaves, rfl, .nil, h⟩
  | cons t ts ih =>
    cases h with
    | keep ht hts =>
      obtain ⟨first, second, rfl, hfirst, hsecond⟩ := ih hts
      exact ⟨t :: first, second, rfl, .keep ht hfirst, hsecond⟩
    | replace ht hinner hts =>
      obtain ⟨first, second, rfl, hfirst, hsecond⟩ := ih hts
      exact ⟨_ ++ first, second, (List.append_assoc ..).symm, .replace ht hinner hfirst, hsecond⟩

/-- Replacing a name keeps the leaves. -/
theorem Unfolds.of_replace {front after leaves : List Token} {t : Token} (ht : t.isIdent = true)
    (h : Unfolds lookup (front ++ (replacement lookup t.text ++ after)) leaves) :
    Unfolds lookup (front ++ t :: after) leaves := by
  induction front generalizing leaves with
  | nil =>
    rw [List.nil_append] at h
    obtain ⟨inner, rest, rfl, hinner, hrest⟩ := h.of_append
    exact .replace ht hinner hrest
  | cons u front ih =>
    cases h with
    | keep hu hts => exact .keep hu (ih hts)
    | replace hu hinner hts => exact .replace hu hinner (ih hts)

/-! ## The number of replacements -/

/-- The number of names in the tree of a token, down to a given depth. -/
def replacementsWithin (lookup : Lookup) : Nat → Token → Nat
  | 0, _ => 0
  | depth + 1, t =>
    if t.isIdent then
      1 + ((replacement lookup t.text).map (replacementsWithin lookup depth)).sum
    else 0

/-- The number of names in the tree of a token. -/
noncomputable def replacements (lookup : Lookup) (t : Token) : ℕ∞ :=
  ⨆ depth, (replacementsWithin lookup depth t : ℕ∞)

/-- The number of names in the trees of some tokens. -/
noncomputable def totalReplacements (lookup : Lookup) (ts : List Token) : ℕ∞ :=
  (ts.map (replacements lookup)).sum

theorem replacementsWithin_le_succ (lookup : Lookup) (depth : Nat) (t : Token) :
    replacementsWithin lookup depth t ≤ replacementsWithin lookup (depth + 1) t := by
  induction depth generalizing t with
  | zero => exact Nat.zero_le _
  | succ depth ih =>
    rw [replacementsWithin, replacementsWithin]
    split_ifs
    · exact Nat.add_le_add_left (List.sum_le_sum fun u _ => ih u) 1
    · exact Nat.le_refl _

theorem monotone_replacementsWithin (lookup : Lookup) (t : Token) :
    Monotone fun depth => (replacementsWithin lookup depth t : ℕ∞) :=
  monotone_nat_of_le_succ fun depth => Nat.cast_le.2 (replacementsWithin_le_succ lookup depth t)

theorem totalReplacements_eq_iSup (lookup : Lookup) (ts : List Token) :
    totalReplacements lookup ts =
      ⨆ depth, (((ts.map (replacementsWithin lookup depth)).sum : Nat) : ℕ∞) := by
  induction ts with
  | nil => simp [totalReplacements]
  | cons t ts ih =>
    have hsum : Monotone fun depth =>
        (((ts.map (replacementsWithin lookup depth)).sum : Nat) : ℕ∞) := by
      intro depth depth' hle
      exact Nat.cast_le.2 (List.sum_le_sum fun u _ =>
        Nat.cast_le.1 (monotone_replacementsWithin lookup u hle))
    calc totalReplacements lookup (t :: ts)
        = replacements lookup t + totalReplacements lookup ts := by simp [totalReplacements]
      _ = _ := by
        rw [ih, replacements, ENat.iSup_add_iSup_of_monotone (monotone_replacementsWithin lookup t) hsum]
        simp

theorem replacements_of_not_isIdent {t : Token} (h : t.isIdent = false) :
    replacements lookup t = 0 := by
  have hzero (depth : Nat) : replacementsWithin lookup depth t = 0 := by
    cases depth with
    | zero => rfl
    | succ depth => simp [replacementsWithin, h]
  simp [replacements, hzero]

theorem replacements_of_isIdent {t : Token} (h : t.isIdent = true) :
    replacements lookup t = 1 + totalReplacements lookup (replacement lookup t.text) := by
  have hstep (depth : Nat) : (replacementsWithin lookup (depth + 1) t : ℕ∞) =
      1 + (((replacement lookup t.text).map (replacementsWithin lookup depth)).sum : Nat) := by
    simp [replacementsWithin, h]
  rw [totalReplacements_eq_iSup, ENat.add_iSup, replacements,
    ← (monotone_replacementsWithin lookup t).iSup_nat_add 1]
  exact iSup_congr hstep

theorem totalReplacements_append (lookup : Lookup) (ts us : List Token) :
    totalReplacements lookup (ts ++ us) =
      totalReplacements lookup ts + totalReplacements lookup us := by
  simp [totalReplacements]

theorem totalReplacements_eq_zero (h : ∀ t ∈ ts, t.isIdent = false) :
    totalReplacements lookup ts = 0 := by
  induction ts with
  | nil => rfl
  | cons t ts ih =>
    rw [List.forall_mem_cons] at h
    have hts := ih h.2
    rw [totalReplacements] at hts ⊢
    rw [List.map_cons, List.sum_cons, hts, replacements_of_not_isIdent h.1, add_zero]

/-- Replacing a name leaves one name less. -/
theorem totalReplacements_replace {front after : List Token} {t : Token} (h : t.isIdent = true) :
    totalReplacements lookup (front ++ t :: after) =
      totalReplacements lookup (front ++ (replacement lookup t.text ++ after)) + 1 := by
  have hcons : totalReplacements lookup (t :: after) =
      totalReplacements lookup (replacement lookup t.text ++ after) + 1 := by
    rw [totalReplacements_append, ← List.singleton_append, totalReplacements_append,
      totalReplacements, List.map_singleton, List.sum_singleton, replacements_of_isIdent h,
      add_comm 1, add_right_comm]
  rw [totalReplacements_append, totalReplacements_append, hcons, add_assoc]

/-! ## Names below themselves -/

theorem replacements_le_total {t : Token} (h : t ∈ ts) :
    replacements lookup t ≤ totalReplacements lookup ts :=
  List.single_le_sum (fun _ _ => zero_le) _ (List.mem_map_of_mem h)

/-- Below a name there are more names than below one that it reaches. -/
theorem totalReplacements_of_reaches {other : Text} (h : Reaches lookup name other) :
    totalReplacements lookup (replacement lookup other) + 1 ≤
      totalReplacements lookup (replacement lookup name) := by
  have hmentions {name other : Text} (h : Mentions lookup name other) :
      totalReplacements lookup (replacement lookup other) + 1 ≤
        totalReplacements lookup (replacement lookup name) := by
    obtain ⟨t, ht, hident, rfl⟩ := h
    rw [add_comm, ← replacements_of_isIdent hident]
    exact replacements_le_total ht
  induction h with
  | single h => exact hmentions h
  | tail _ h ih => exact (hmentions h).trans (le_self_add.trans ih)

/-- Below a name that reaches itself there are infinitely many names. -/
theorem totalReplacements_eq_top_of_reaches (h : Reaches lookup name name) :
    totalReplacements lookup (replacement lookup name) = ⊤ := by
  by_contra hfinite
  have hle := totalReplacements_of_reaches h
  lift totalReplacements lookup (replacement lookup name) to ℕ using hfinite with n
  norm_cast at hle
  omega

theorem totalReplacements_ne_top
    (h : ∀ t ∈ ts, t.isIdent = true →
      totalReplacements lookup (replacement lookup t.text) ≠ ⊤) :
    totalReplacements lookup ts ≠ ⊤ := by
  induction ts with
  | nil => simp [totalReplacements]
  | cons t ts ih =>
    rw [List.forall_mem_cons] at h
    have hts := ih h.2
    have ht : replacements lookup t ≠ ⊤ := by
      by_cases hident : t.isIdent = true
      · rw [replacements_of_isIdent hident]
        exact WithTop.add_ne_top.2 ⟨ENat.one_ne_top, h.1 hident⟩
      · rw [replacements_of_not_isIdent (Bool.not_eq_true _ ▸ hident)]
        exact ENat.zero_ne_top
    rw [totalReplacements] at hts ⊢
    rw [List.map_cons, List.sum_cons]
    exact WithTop.add_ne_top.2 ⟨ht, hts⟩

/-- A name without a macro leads to no further names, unless it leads to itself. -/
theorem totalReplacements_of_notMem_order (hname : name ∉ table.order)
    (hcycle : ¬ Reaches table.lookup name name) :
    totalReplacements table.lookup (replacement table.lookup name) = 0 := by
  have hentry : table.entries name = none := by
    rw [← Option.not_isSome_iff_eq_none, ← table.mem_order]
    exact hname
  by_cases hoperator : name = definedName
  · -- The test operator stands in its own replacement.
    refine absurd (Relation.TransGen.single ⟨Token.word "defined", ?_, ?_⟩) hcycle
    · simp [replacement, Table.lookup, hoperator, Meaning.toMacro]
    · rw [hoperator]
      decide
  · have hlookup : table.lookup name = .undefined := by
      rw [Table.lookup, if_neg hoperator, hentry]
    refine totalReplacements_eq_zero ?_
    rw [replacement, hlookup]
    decide

/-- Below a name there are finitely many names, if it reaches none that reaches itself: a table has
finitely many macros, so going down from name to name comes to an end. -/
theorem totalReplacements_ne_top_of_reachedFrom
    (hcycle : ∀ name, ReachedFrom table.lookup ts name → ¬ Reaches table.lookup name name)
    (hname : ReachedFrom table.lookup ts name) :
    totalReplacements table.lookup (replacement table.lookup name) ≠ ⊤ := by
  let Defined := { name // name ∈ table.order ∧ ReachedFrom table.lookup ts name }
  let below (lower upper : Defined) : Prop := Reaches table.lookup upper.1 lower.1
  have : Finite Defined := (List.finite_toSet table.order).subset fun _ h => h.1
  have : IsTrans Defined below := ⟨fun _ _ _ hlower hupper => hupper.trans hlower⟩
  have : Std.Irrefl below := ⟨fun name => hcycle name.1 name.2.2⟩
  -- It is enough to know this of the macros that are mentioned.
  have hstep (name : Text) (hname : ReachedFrom table.lookup ts name)
      (hlower : ∀ lower : Defined, Reaches table.lookup name lower.1 →
        totalReplacements table.lookup (replacement table.lookup lower.1) ≠ ⊤) :
      totalReplacements table.lookup (replacement table.lookup name) ≠ ⊤ := by
    refine totalReplacements_ne_top fun t ht hident => ?_
    have hreached := reachedFrom_of_mem_replacement hname ht hident
    by_cases hdefined : t.text ∈ table.order
    · exact hlower ⟨t.text, hdefined, hreached⟩ (.single ⟨t, ht, hident, rfl⟩)
    · rw [totalReplacements_of_notMem_order hdefined (hcycle t.text hreached)]
      exact ENat.zero_ne_top
  have hdefined (lower : Defined) :
      totalReplacements table.lookup (replacement table.lookup lower.1) ≠ ⊤ := by
    induction lower using (Finite.wellFounded_of_trans_of_irrefl below).induction with
    | _ lower ih => exact hstep lower.1 lower.2.2 ih
  exact hstep name hname fun lower _ => hdefined lower

/-- The trees of some tokens have infinitely many names exactly if a name in them stands below
itself. -/
theorem totalReplacements_eq_top_iff :
    totalReplacements table.lookup ts = ⊤ ↔
      ∃ name, ReachedFrom table.lookup ts name ∧ Reaches table.lookup name name := by
  constructor
  · intro htop
    by_contra hnone
    have hcycle (name : Text) (hname : ReachedFrom table.lookup ts name) :
        ¬ Reaches table.lookup name name := fun h => hnone ⟨name, hname, h⟩
    refine totalReplacements_ne_top (fun t ht hident => ?_) htop
    exact totalReplacements_ne_top_of_reachedFrom hcycle ⟨t, ht, hident, .refl⟩
  · rintro ⟨name, ⟨t, ht, hident, hpath⟩, hcycle⟩
    have hbelow : totalReplacements table.lookup (replacement table.lookup t.text) = ⊤ := by
      rcases Relation.reflTransGen_iff_eq_or_transGen.1 hpath with rfl | hpath
      · exact totalReplacements_eq_top_of_reaches hcycle
      · have hle := totalReplacements_of_reaches hpath
        rw [totalReplacements_eq_top_of_reaches hcycle, top_add] at hle
        exact top_le_iff.1 hle
    have hle : replacements table.lookup t ≤ _ := replacements_le_total ht
    rw [replacements_of_isIdent hident, hbelow, add_top] at hle
    exact top_le_iff.1 hle

/-! ## Expansion -/

section Expansion

variable {steps n : Nat} {calls : List (List Token)} {out : Counted (List Token)}

/-- The expansion of bare tokens is over, or goes on with one name replaced. -/
theorem Expands.of_bare (h : Expands table.lookup steps ts calls out)
    (hbare : Bare table.lookup ts) (hsteps : steps < maxSteps) :
    ((∀ t ∈ ts, t.isIdent = false) ∧ out = ⟨.ok ts, steps + 1⟩) ∨
    ∃ front t after more, ts = front ++ t :: after ∧ t.isIdent = true ∧
      Expands table.lookup (steps + 1) (front ++ (replacement table.lookup t.text ++ after)) more
        out := by
  have hinv := h.inversion hsteps
  rcases hbare.expandOnce_cases with ⟨hstep, hnames⟩ | ⟨front, t, after, rfl, hident, hstep⟩
  · rw [hstep] at hinv
    exact .inl ⟨hnames, hinv.2⟩
  · rw [hstep] at hinv
    obtain ⟨more, -, hnext⟩ := hinv
    exact .inr ⟨front, t, after, more, rfl, hident, hnext⟩

/-- An expansion with steps enough for all names comes to the leaves. -/
theorem Expands.unfolds (h : Expands table.lookup steps ts calls out)
    (hbare : Bare table.lookup ts) (hn : totalReplacements table.lookup ts = n)
    (hsteps : steps + n < maxSteps) :
    ∃ leaves, Unfolds table.lookup ts leaves ∧ out = ⟨.ok leaves, steps + n + 1⟩ := by
  -- Each step takes one name away, so the induction is on the number of names.
  induction n generalizing steps ts calls with
  | zero =>
    rcases h.of_bare hbare (by omega) with ⟨hnames, hout⟩ | ⟨front, t, after, _, rfl, hident, -⟩
    · exact ⟨ts, unfolds_self hnames, hout⟩
    · rw [totalReplacements_replace hident] at hn
      simp at hn
  | succ n ih =>
    rcases h.of_bare hbare (by omega) with ⟨hnames, -⟩ | ⟨front, t, after, more, rfl, hident, hnext⟩
    · rw [totalReplacements_eq_zero hnames] at hn
      norm_cast at hn
    · rw [totalReplacements_replace hident, Nat.cast_succ] at hn
      have hn' := ENat.add_left_injective_of_ne_top ENat.one_ne_top hn
      obtain ⟨leaves, hleaves, rfl⟩ := ih hnext (hbare.replace hident) hn' (by omega)
      refine ⟨leaves, hleaves.of_replace hident, ?_⟩
      rw [Nat.add_right_comm steps 1, Nat.add_assoc steps n 1]

/-- An expansion with more names than steps uses up its steps. -/
theorem Expands.steps_of_le_totalReplacements (h : Expands table.lookup steps ts calls out)
    (hbare : Bare table.lookup ts) (hsteps : steps ≤ maxSteps)
    (hlimit : (maxSteps : ℕ∞) ≤ totalReplacements table.lookup ts + steps) :
    out.steps = maxSteps + 1 := by
  -- The induction is on the number of steps that are left.
  obtain ⟨left, hleft⟩ := Nat.exists_eq_add_of_le hsteps
  induction left generalizing steps ts calls with
  | zero =>
    obtain ⟨-, rfl⟩ := h.of_exhausted (by omega)
    exact congrArg (· + 1) hleft.symm
  | succ left ih =>
    rcases h.of_bare hbare (by omega) with ⟨hnames, -⟩ | ⟨front, t, after, more, rfl, hident, hnext⟩
    · rw [totalReplacements_eq_zero hnames, zero_add] at hlimit
      have : maxSteps ≤ steps := Nat.cast_le.1 hlimit
      omega
    · rw [totalReplacements_replace hident, add_assoc, add_comm 1] at hlimit
      exact ih hnext (hbare.replace hident) (by omega) (mod_cast hlimit) (by omega)

end Expansion

/-- Bare tokens are expanded to their leaves, in one step for each name and one more, if these are
no more steps than allowed. Otherwise the expansion fails for want of steps, which it does for all
tokens that reach a name below itself. -/
theorem expand_eq_unfolding (hbare : Bare table.lookup ts) :
    (∀ t, replacements table.lookup t =
      if t.isIdent then 1 + totalReplacements table.lookup (replacement table.lookup t.text)
      else 0) ∧
    (totalReplacements table.lookup ts = ⊤ ↔
      ∃ name, ReachedFrom table.lookup ts name ∧ Reaches table.lookup name name) ∧
    (totalReplacements table.lookup ts ≤ 16383 →
      ∃ (n : Nat) (leaves : List Token), totalReplacements table.lookup ts = n ∧
        Unfolds table.lookup ts leaves ∧ expand table.lookup ts = ⟨.ok leaves, n + 1⟩) ∧
    (¬ totalReplacements table.lookup ts ≤ 16383 →
      ∃ defect near, defect.message = ascii "recursive macro invocation" ∧
        expand table.lookup ts = ⟨.error (.malformed defect near), 16385⟩ ∧
        evaluate table.lookup ts = .error (.malformed defect near)) := by
  obtain ⟨calls, hrun⟩ := expands_expand table.lookup ts
  refine ⟨fun t => ?_, totalReplacements_eq_top_iff, fun hle => ?_, fun hlt => ?_⟩
  · split_ifs with hident
    · exact replacements_of_isIdent hident
    · exact replacements_of_not_isIdent (Bool.not_eq_true _ ▸ hident)
  · obtain ⟨n, hn, hle⟩ := ENat.le_natCast_iff.1 (show _ ≤ ((16383 : Nat) : ℕ∞) from hle)
    obtain ⟨leaves, hleaves, hout⟩ := hrun.unfolds hbare hn (by rw [maxSteps]; omega)
    rw [Nat.zero_add] at hout
    exact ⟨n, leaves, hn, hleaves, hout⟩
  · -- With more replacements than steps the expansion goes on until the steps are used up.
    have hlimit : (maxSteps : ℕ∞) ≤ totalReplacements table.lookup ts + (0 : Nat) := by
      rw [Nat.cast_zero, add_zero]
      exact Order.add_one_le_of_lt (lt_of_not_ge hlt)
    have hsteps := hrun.steps_of_le_totalReplacements hbare (Nat.zero_le _) hlimit
    obtain ⟨near, hnear⟩ := (hrun.bounds (Nat.zero_le _)).2.2.1 hsteps
    refine ⟨.recursiveInvocation, near, rfl, ?_, ?_⟩
    · rw [← hnear, ← show maxSteps + 1 = 16385 from rfl, ← hsteps]
    · rw [evaluate, evaluateCounted, hnear]
      rfl

/-- Macros in three layers, one without a replacement, and two that mention each other. -/
def layeredMacros : List Macro :=
  [⟨ascii "A", none, [.word "B", .operator "&&", .word "B"]⟩, ⟨ascii "B", none, [.word "C"]⟩,
    ⟨ascii "E", none, []⟩, ⟨ascii "X", none, [.word "Y"]⟩, ⟨ascii "Y", none, [.word "X"]⟩]

/-- The table of these macros. -/
def layeredTable : Table := Table.ofList layeredMacros

theorem expand_eq_unfolding_layeredTable :
    (Bare layeredTable.lookup [.word "A", .operator "||", .word "E"] ∧
      totalReplacements layeredTable.lookup [.word "A", .operator "||", .word "E"] = 6 ∧
      Unfolds layeredTable.lookup [.word "A", .operator "||", .word "E"]
        [.word "0", .operator "&&", .word "0", .operator "||"]) ∧
    (Bare layeredTable.lookup [.word "A", .word "X"] ∧
      totalReplacements layeredTable.lookup [.word "A", .word "X"] = ⊤ ∧
      ∃ defect near, defect.message = ascii "recursive macro invocation" ∧
        evaluate layeredTable.lookup [.word "A", .word "X"] = .error (.malformed defect near)) := by
  have hmacros : ∀ m ∈ layeredTable.macros, ∀ t ∈ m.value, IsBare t := by decide +kernel
  have hfinite : Bare layeredTable.lookup [.word "A", .operator "||", .word "E"] :=
    bare_of_macros hmacros (by decide)
  have hcyclic : Bare layeredTable.lookup [.word "A", .word "X"] :=
    bare_of_macros hmacros (by decide)
  refine ⟨⟨hfinite, ?_⟩, hcyclic, ?_⟩
  · have hexpand : (expand layeredTable.lookup [.word "A", .operator "||", .word "E"]).steps = 7 ∧
        (expand layeredTable.lookup [.word "A", .operator "||", .word "E"]).outcome.toOption =
          some [.word "0", .operator "&&", .word "0", .operator "||"] := by decide +kernel
    obtain ⟨-, -, hunfold, hfail⟩ := expand_eq_unfolding hfinite
    by_cases hle : totalReplacements layeredTable.lookup
        [.word "A", .operator "||", .word "E"] ≤ 16383
    · obtain ⟨n, leaves, hn, hleaves, hout⟩ := hunfold hle
      rw [hout] at hexpand
      obtain ⟨hsteps, hoption⟩ := hexpand
      obtain rfl : leaves = _ := Option.some.inj hoption
      obtain rfl : n = 6 := Nat.succ.inj hsteps
      exact ⟨hn, hleaves⟩
    · obtain ⟨_, _, -, hout, -⟩ := hfail hle
      rw [hout] at hexpand
      exact absurd hexpand.1 (show 16385 ≠ 7 by decide)
  · obtain ⟨-, htop, -, hfail⟩ := expand_eq_unfolding hcyclic
    -- The names `X` and `Y` stand in each other's replacement.
    have hcycle : Reaches layeredTable.lookup (ascii "X") (ascii "X") :=
      .tail (.single ⟨.word "Y", by decide +kernel, by decide, rfl⟩)
        ⟨.word "X", by decide +kernel, by decide, rfl⟩
    have hinfinite := htop.2 ⟨ascii "X", ⟨.word "X", by decide, by decide, .refl⟩, hcycle⟩
    obtain ⟨defect, near, hmessage, -, hevaluate⟩ := hfail (by simp [hinfinite])
    exact ⟨hinfinite, defect, near, hmessage, hevaluate⟩

end HeaderMacros.Condition
