import HeaderMacros.Macro.Basic

/-!
# Macro tables

The macros of a run, found by their names, and their names in the order of definition. A new
definition of a name takes the place of the old one; a name that was removed and is defined again
goes to the end.

The names are kept apart from the macros, so every operation has to change both. That they stay in
step is part of the type: no name is listed twice, and the listed names are those that have a macro.
-/

namespace HeaderMacros

/-- Macros by their names, and the names in the order of their definition. -/
structure Table where
  /-- The macro of each name that is defined. -/
  entries : Text → Option Macro
  /-- The names that are defined, in the order of their definition. -/
  order : List Text
  /-- No name is listed twice. -/
  nodup : order.Nodup
  /-- The names that are listed are those that have a macro. -/
  mem_order : ∀ name, name ∈ order ↔ (entries name).isSome
  /-- A macro is found under its own name. -/
  name_eq : ∀ name m, entries name = some m → m.name = name

/-- What a name means in a condition. -/
inductive Meaning where
  /-- The operator that tests whether a name is defined. -/
  | definedOperator
  /-- A macro. -/
  | defined (m : Macro)
  /-- Nothing. -/
  | undefined
  deriving DecidableEq, Repr

/-- The name of the operator that tests whether a name is defined. -/
def definedName : Text := ascii "defined"

/-- How a meaning is replaced in a condition. The test operator, invoked, becomes its own form
without parentheses, and a name without meaning becomes `0`. -/
def Meaning.toMacro : Meaning → Macro
  | .definedOperator =>
    ⟨definedName, some [ascii "arg"], [Token.word "defined", Token.blank, Token.word "arg"]⟩
  | .defined m => m
  | .undefined => ⟨[], none, [Token.word "0"]⟩

namespace Table

/-- The table without macros. -/
def empty : Table where
  entries _ := none
  order := []
  nodup := List.nodup_nil
  mem_order _ := by simp
  name_eq _ _ h := nomatch h

/-- Whether a name is defined. -/
def contains (t : Table) (name : Text) : Bool := (t.entries name).isSome

/-- The macros in the order of their definition. -/
def macros (t : Table) : List Macro := t.order.filterMap t.entries

/-- The macros of a table are those that are found by their names. -/
theorem mem_macros {t : Table} {m : Macro} : m ∈ t.macros ↔ t.entries m.name = some m := by
  rw [macros, List.mem_filterMap]
  constructor
  · rintro ⟨name, -, h⟩
    rwa [t.name_eq name m h]
  · intro h
    exact ⟨m.name, (t.mem_order m.name).2 (by rw [h]; rfl), h⟩

/-- Defines a macro: in the place of the macro of its name, or at the end. -/
def define (t : Table) (m : Macro) : Table where
  entries name := if name = m.name then some m else t.entries name
  order := if t.contains m.name then t.order else t.order ++ [m.name]
  nodup := by
    split
    · exact t.nodup
    · rename_i hfresh
      have hnew : m.name ∉ t.order := fun hmem => hfresh ((t.mem_order m.name).1 hmem)
      rw [List.nodup_append]
      refine ⟨t.nodup, by simp, ?_⟩
      intro name hname other hother
      rw [List.mem_singleton.1 hother]
      exact fun heq => hnew (heq ▸ hname)
  mem_order name := by
    by_cases hname : name = m.name
    · subst hname
      split
      · rename_i hdefined
        simpa using (t.mem_order m.name).2 hdefined
      · simp
    · split <;> simp [hname, t.mem_order name]
  name_eq name d h := by
    split at h
    · rename_i hname
      rw [← Option.some.inj h, hname]
    · exact t.name_eq name d h

/-- A defined macro is found by its name, and nothing else changes. -/
theorem entries_define (t : Table) (m : Macro) (name : Text) :
    (t.define m).entries name = if name = m.name then some m else t.entries name := rfl

/-- Removes the macro of a name, if there is one. -/
def undefine (t : Table) (name : Text) : Table :=
  if t.contains name then
    { entries := fun other => if other = name then none else t.entries other
      order := t.order.erase name
      nodup := t.nodup.erase name
      mem_order := fun other => by
        rw [t.nodup.mem_erase_iff, t.mem_order other]
        by_cases hother : other = name <;> simp [hother]
      name_eq := fun other m h => by
        split at h
        · cases h
        · exact t.name_eq other m h }
  else t

/-- A removed name has no macro, and nothing else changes. -/
theorem entries_undefine (t : Table) (name other : Text) :
    (t.undefine name).entries other = if other = name then none else t.entries other := by
  unfold undefine
  split
  · rfl
  · rename_i habsent
    split
    · rename_i hother
      rw [hother]
      exact Option.not_isSome_iff_eq_none.1 habsent
    · rfl

/-- What a name means. The test operator cannot be defined away. -/
def lookup (t : Table) (name : Text) : Meaning :=
  if name = definedName then .definedOperator
  else
    match t.entries name with
    | some m => .defined m
    | none => .undefined

/-- The table of macros defined one after the other. -/
def ofList (ms : List Macro) : Table := ms.foldl define empty

end Table

end HeaderMacros
