import HeaderMacros.Macro.Table
import Mathlib.Data.List.Basic

/-!
# What a table comes to

A table keeps its macros apart from the order of their names. Seen from outside it is an association
list, which is one list of names with their macros: `put` replaces the entry of a name where it
stands or adds one at the end, and `remove` takes it out.

* `Table.pairs_apply`: an operation on a table is the operation of that name on its pairs.
* `Table.after_eq_associations`: after any operations, the names are listed once each and are those
  that have a macro, the macros are those of the association list, and a name means its entry.
-/

namespace HeaderMacros

/-! ## Association lists -/

/-- Names with their macros, in an order. -/
abbrev Associations := List (Text × Macro)

namespace Associations

/-- Replaces the entry of a name where it stands, or adds one at the end. -/
def put (name : Text) (m : Macro) : Associations → Associations
  | [] => [(name, m)]
  | (key, d) :: rest => if key = name then (key, m) :: rest else (key, d) :: put name m rest

/-- Takes out the entry of a name, if there is one. -/
def remove (name : Text) : Associations → Associations
  | [] => []
  | (key, d) :: rest => if key = name then rest else (key, d) :: remove name rest

/-- An entry of a new name goes to the end. -/
theorem put_of_notMem {name : Text} {pairs : Associations} (h : name ∉ pairs.map Prod.fst)
    (m : Macro) : put name m pairs = pairs ++ [(name, m)] := by
  induction pairs with
  | nil => rfl
  | cons pair pairs ih =>
    rw [List.map_cons, List.mem_cons, not_or] at h
    rw [put, if_neg (Ne.symm h.1), ih h.2, List.cons_append]

theorem remove_of_notMem {name : Text} {pairs : Associations} (h : name ∉ pairs.map Prod.fst) :
    remove name pairs = pairs := by
  induction pairs with
  | nil => rfl
  | cons pair pairs ih =>
    rw [List.map_cons, List.mem_cons, not_or] at h
    rw [remove, if_neg (Ne.symm h.1), ih h.2]

end Associations

/-! ## Operations -/

/-- What can be done to the macros of a run. -/
inductive Table.Operation where
  /-- A macro is defined. -/
  | define (m : Macro)
  /-- The macro of a name is removed. -/
  | undefine (name : Text)

/-- A table after an operation. -/
def Table.apply (t : Table) : Table.Operation → Table
  | .define m => t.define m
  | .undefine name => t.undefine name

/-- The table that operations make of the one without macros. -/
def Table.after (history : List Table.Operation) : Table := history.foldl Table.apply Table.empty

/-- An association list after an operation. -/
def Associations.apply (pairs : Associations) : Table.Operation → Associations
  | .define m => pairs.put m.name m
  | .undefine name => pairs.remove name

/-- The association list that operations make of the empty one. -/
def Associations.after (history : List Table.Operation) : Associations :=
  history.foldl Associations.apply []

namespace Table

/-! ## The pairs of a table -/

/-- Names with the macros that are found by them; a name without a macro is passed over. -/
def pairsOf (entries : Text → Option Macro) (names : List Text) : Associations :=
  names.filterMap fun name => (entries name).map fun m => (name, m)

/-- The names of a table in their order, with their macros. -/
def pairs (t : Table) : Associations := pairsOf t.entries t.order

theorem pairsOf_cons {entries : Text → Option Macro} {name : Text} {m : Macro}
    (h : entries name = some m) (names : List Text) :
    pairsOf entries (name :: names) = (name, m) :: pairsOf entries names := by
  rw [pairsOf, List.filterMap_cons, h]
  rfl

/-- Only the macros of the listed names matter. -/
theorem pairsOf_congr {entries entries' : Text → Option Macro} {names : List Text}
    (h : ∀ name ∈ names, entries name = entries' name) :
    pairsOf entries names = pairsOf entries' names := by
  apply List.filterMap_congr
  intro name hname
  rw [h name hname]

theorem map_fst_pairsOf {entries : Text → Option Macro} {names : List Text}
    (h : ∀ name ∈ names, (entries name).isSome) : (pairsOf entries names).map Prod.fst = names := by
  induction names with
  | nil => rfl
  | cons name names ih =>
    obtain ⟨hname, hnames⟩ := List.forall_mem_cons.1 h
    obtain ⟨m, hm⟩ := Option.isSome_iff_exists.1 hname
    rw [pairsOf_cons hm, List.map_cons, ih hnames]

/-- The listed names are all there, so none is passed over. -/
theorem map_fst_pairs (t : Table) : t.pairs.map Prod.fst = t.order := by
  apply map_fst_pairsOf
  intro name hname
  exact (t.mem_order name).1 hname

theorem map_snd_pairs (t : Table) : t.pairs.map Prod.snd = t.macros := by
  rw [pairs, pairsOf, macros, List.map_filterMap]
  apply List.filterMap_congr
  intro name _
  cases t.entries name <;> rfl

/-! ## One operation -/

/-- Replacing the macro of a listed name replaces its pair where it stands. -/
theorem pairsOf_put {entries : Text → Option Macro} {names : List Text} (hnodup : names.Nodup)
    (hentries : ∀ name ∈ names, (entries name).isSome) {name : Text} (hname : name ∈ names)
    (m : Macro) :
    pairsOf (fun other => if other = name then some m else entries other) names =
      (pairsOf entries names).put name m := by
  induction names with
  | nil => cases hname
  | cons first names ih =>
    obtain ⟨hfirst, hothers⟩ := List.forall_mem_cons.1 hentries
    obtain ⟨hfresh, hnodup⟩ := List.nodup_cons.1 hnodup
    obtain ⟨d, hd⟩ := Option.isSome_iff_exists.1 hfirst
    rw [pairsOf_cons hd, Associations.put]
    by_cases heq : first = name
    · -- The name is not listed again, so the pairs after it stay.
      subst heq
      rw [if_pos rfl, pairsOf_cons (if_pos rfl)]
      congr 1
      apply pairsOf_congr
      intro other hother
      exact if_neg (ne_of_mem_of_not_mem hother hfresh)
    · have hrest := ih hnodup hothers ((List.mem_cons.1 hname).resolve_left (Ne.symm heq))
      rw [if_neg heq, pairsOf_cons ((if_neg heq).trans hd), hrest]

/-- Taking a name off the list takes out its pair. -/
theorem pairsOf_erase {entries : Text → Option Macro} {names : List Text}
    (hentries : ∀ name ∈ names, (entries name).isSome) (name : Text) :
    pairsOf entries (names.erase name) = (pairsOf entries names).remove name := by
  induction names with
  | nil => rfl
  | cons first names ih =>
    obtain ⟨hfirst, hothers⟩ := List.forall_mem_cons.1 hentries
    obtain ⟨d, hd⟩ := Option.isSome_iff_exists.1 hfirst
    rw [pairsOf_cons hd, Associations.remove]
    by_cases heq : first = name
    · rw [heq, List.erase_cons_head, if_pos rfl]
    · rw [List.erase_cons_tail (by simpa using heq), pairsOf_cons hd, ih hothers, if_neg heq]

theorem pairs_define (t : Table) (m : Macro) : (t.define m).pairs = t.pairs.put m.name m := by
  have hentries : ∀ name ∈ t.order, (t.entries name).isSome := fun name => (t.mem_order name).1
  rw [pairs, pairs, define]
  split
  · rename_i hdefined
    exact pairsOf_put t.nodup hentries ((t.mem_order m.name).2 hdefined) m
  · rename_i hfresh
    have hnew : m.name ∉ t.order := fun hmem => hfresh (hentries m.name hmem)
    have hsame : pairsOf (fun name => if name = m.name then some m else t.entries name) t.order =
        pairsOf t.entries t.order := by
      apply pairsOf_congr
      intro name hname
      exact if_neg (ne_of_mem_of_not_mem hname hnew)
    rw [Associations.put_of_notMem (by rwa [map_fst_pairsOf hentries]), ← hsame]
    simp [pairsOf, List.filterMap_append]

theorem pairs_undefine (t : Table) (name : Text) :
    (t.undefine name).pairs = t.pairs.remove name := by
  have hentries : ∀ other ∈ t.order, (t.entries other).isSome := fun other => (t.mem_order other).1
  unfold undefine
  split
  · rw [pairs, pairs, ← pairsOf_erase hentries]
    apply pairsOf_congr
    intro other hother
    exact if_neg (t.nodup.mem_erase_iff.1 hother).1
  · rename_i habsent
    have hnew : name ∉ t.order := fun hmem => habsent (hentries name hmem)
    rw [Associations.remove_of_notMem (by rwa [map_fst_pairs])]

/-- An operation on a table is the same operation on its pairs. -/
theorem pairs_apply (t : Table) (operation : Operation) :
    (t.apply operation).pairs = t.pairs.apply operation := by
  cases operation with
  | define m => exact pairs_define t m
  | undefine name => exact pairs_undefine t name

/-! ## Any number of operations -/

theorem pairs_foldl_apply (t : Table) (history : List Table.Operation) :
    (history.foldl apply t).pairs = history.foldl Associations.apply t.pairs := by
  induction history generalizing t with
  | nil => rfl
  | cons operation history ih => rw [List.foldl_cons, List.foldl_cons, ih, pairs_apply]

theorem pairs_after (history : List Table.Operation) :
    (after history).pairs = Associations.after history :=
  pairs_foldl_apply empty history

/-- The macro of a name is the entry of that name among the macros. -/
theorem lookup_eq_defined_iff {t : Table} {name : Text} (hname : name ≠ definedName) {m : Macro} :
    t.lookup name = .defined m ↔ m ∈ t.macros ∧ m.name = name := by
  have hmeaning : t.lookup name = .defined m ↔ t.entries name = some m := by
    rw [lookup, if_neg hname]
    cases t.entries name <;> simp
  rw [hmeaning, mem_macros]
  constructor
  · intro h
    have hm := t.name_eq name m h
    exact ⟨hm.symm ▸ h, hm⟩
  · rintro ⟨h, rfl⟩
    exact h

theorem lookup_eq_undefined_iff {t : Table} {name : Text} (hname : name ≠ definedName) :
    t.lookup name = .undefined ↔ ∀ m ∈ t.macros, m.name ≠ name := by
  have hmeaning : t.lookup name = .undefined ↔ t.entries name = none := by
    rw [lookup, if_neg hname]
    cases t.entries name <;> simp
  rw [hmeaning]
  constructor
  · rintro h m hm rfl
    rw [mem_macros, h] at hm
    cases hm
  · intro h
    cases hentry : t.entries name with
    | none => rfl
    | some m =>
      have hm := t.name_eq name m hentry
      exact absurd hm (h m (mem_macros.2 (hm.symm ▸ hentry)))

/-- After any operations, a table is what the same operations make of an association list. Its names
are listed once each and are those that have a macro, none of which is missing among the macros; a
macro that is removed and defined again is the last one; and what a name means, unless it is the
test operator, is its entry among the macros, or nothing if there is none. -/
theorem after_eq_associations (history : List Table.Operation) :
    (after history).order.Nodup ∧
      (∀ name, name ∈ (after history).order ↔ ((after history).entries name).isSome) ∧
      (after history).order = (Associations.after history).map Prod.fst ∧
      (after history).macros = (Associations.after history).map Prod.snd ∧
      (∀ m, (((after history).undefine m.name).define m).macros =
        ((Associations.after history).remove m.name).map Prod.snd ++ [m]) ∧
      ∀ name, name ≠ definedName →
        (∀ m, (after history).lookup name = .defined m ↔
          m ∈ (after history).macros ∧ m.name = name) ∧
        ((after history).lookup name = .undefined ↔
          ∀ m ∈ (after history).macros, m.name ≠ name) := by
  refine ⟨(after history).nodup, (after history).mem_order, ?_, ?_, ?_, ?_⟩
  · rw [← pairs_after, map_fst_pairs]
  · rw [← pairs_after, map_snd_pairs]
  · intro m
    -- What has been removed is a new name, and a new name goes to the end.
    have hremoved : m.name ∉ ((after history).undefine m.name).pairs.map Prod.fst := by
      rw [map_fst_pairs, mem_order, entries_undefine, if_pos rfl]
      exact Bool.false_ne_true
    rw [← map_snd_pairs, pairs_define, Associations.put_of_notMem hremoved, pairs_undefine,
      pairs_after, List.map_append, List.map_singleton]
  · intro name hname
    exact ⟨fun m => lookup_eq_defined_iff hname, lookup_eq_undefined_iff hname⟩

/-- Three definitions, one of a name that has a macro, a removal and a definition again. -/
def redefinitions : List Table.Operation :=
  [.define ⟨ascii "A", none, [.word "1"]⟩, .define ⟨ascii "B", none, []⟩,
    .define ⟨ascii "A", none, [.word "2"]⟩, .undefine (ascii "B"), .undefine (ascii "C"),
    .define ⟨ascii "C", none, []⟩, .define ⟨ascii "B", some [], []⟩]

theorem after_eq_associations_redefinitions :
    (after redefinitions).macros = [⟨ascii "A", none, [.word "2"]⟩, ⟨ascii "C", none, []⟩,
        ⟨ascii "B", some [], []⟩] ∧
      (after redefinitions).lookup (ascii "B") = .defined ⟨ascii "B", some [], []⟩ ∧
      (after redefinitions).lookup (ascii "D") = .undefined := by
  obtain ⟨-, -, -, hmacros, -, hlookup⟩ := after_eq_associations redefinitions
  have hlist : (after redefinitions).macros = [⟨ascii "A", none, [.word "2"]⟩,
      ⟨ascii "C", none, []⟩, ⟨ascii "B", some [], []⟩] := hmacros.trans (by decide +kernel)
  refine ⟨hlist, ?_, ?_⟩
  · refine ((hlookup (ascii "B") (by decide)).1 _).2 ⟨?_, rfl⟩
    rw [hlist]
    decide
  · refine (hlookup (ascii "D") (by decide)).2.2 ?_
    rw [hlist]
    decide

end Table

end HeaderMacros
