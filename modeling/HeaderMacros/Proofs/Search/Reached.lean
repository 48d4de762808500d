import HeaderMacros.Proofs.FileTree.Cleaning
import HeaderMacros.Proofs.Text.LetterCase
import HeaderMacros.Search.Find

/-!
# Where the search for a file leads

The search goes from a directory along the components of a name and does not mind their letter case.
So the path that it finds is known up to letter case: it has the components of the directory and
those of the name, cleaned together (`exists_leadsTo_of_find`).

As long as no search directory is below another one, a path has come from one directory only. Two
names that do not lead out of it and have one path therefore have the same components but for letter
case, once they are cleaned (`folded_stack_eq_of_find`).
-/

namespace HeaderMacros

namespace Path

/-! ## Components up to letter case -/

/-- The components that cleaning treats in a way of their own have no letters in them. -/
theorem eq_iff_of_folded {first second special : Text} (h : first.folded = second.folded)
    (hspecial : special ∈ [[], here, above]) : first = special ↔ second = special := by
  have hletters : ∀ special ∈ [[], here, above], ∀ b ∈ special, b < 0x41 := by
    decide +kernel
  constructor
  · rintro rfl
    exact Text.eq_of_folded h.symm (hletters first hspecial)
  · rintro rfl
    exact Text.eq_of_folded h (hletters second hspecial)

theorem folded_cleanStep {rooted : Bool} {done done' : List Text} {component component' : Text}
    (hdone : done.map Text.folded = done'.map Text.folded)
    (hcomponent : component.folded = component'.folded) :
    (cleanStep rooted done component).map Text.folded =
      (cleanStep rooted done' component').map Text.folded := by
  have hskipped : component = [] ∨ component = here ↔ component' = [] ∨ component' = here :=
    or_congr (eq_iff_of_folded hcomponent (by simp)) (eq_iff_of_folded hcomponent (by simp))
  have habove : component = above ↔ component' = above := eq_iff_of_folded hcomponent (by simp)
  by_cases h : component = [] ∨ component = here
  · rwa [cleanStep_of_skipped h, cleanStep_of_skipped (hskipped.1 h)]
  have h' := mt hskipped.2 h
  -- Both components are for the directory above, or none is; the same goes for the one to take off.
  by_cases ha : component = above
  · obtain rfl := ha
    obtain rfl := habove.1 rfl
    cases done with
    | nil => rw [List.map_eq_nil_iff.1 hdone.symm]
    | cons last rest =>
      cases done' with
      | nil => cases hdone
      | cons last' rest' =>
        obtain ⟨hlast, hrest⟩ := List.cons.inj hdone
        have hsame : last = above ↔ last' = above := eq_iff_of_folded hlast (by simp)
        rw [cleanStep_above_cons, cleanStep_above_cons]
        by_cases hl : last = above
        · rw [if_pos hl, if_pos (hsame.1 hl)]
          exact congrArg (above.folded :: ·) hdone
        · rw [if_neg hl, if_neg (mt hsame.2 hl)]
          exact hrest
  · rw [cleanStep_of_named (not_or.1 h).1 (not_or.1 h).2 ha,
      cleanStep_of_named (not_or.1 h').1 (not_or.1 h').2 (mt habove.2 ha), List.map_cons,
      List.map_cons, hdone, hcomponent]

/-- Components that are the same but for letter case stay so when they are cleaned. -/
theorem folded_foldl_cleanStep {rooted : Bool} {done done' names names' : List Text}
    (hdone : done.map Text.folded = done'.map Text.folded)
    (hnames : names.map Text.folded = names'.map Text.folded) :
    (names.foldl (cleanStep rooted) done).map Text.folded =
      (names'.foldl (cleanStep rooted) done').map Text.folded := by
  induction names generalizing names' done done' with
  | nil =>
    rw [List.map_eq_nil_iff.1 hnames.symm]
    exact hdone
  | cons name names ih =>
    cases names' with
    | nil => cases hnames
    | cons name' names' =>
      obtain ⟨hname, hrest⟩ := List.cons.inj hnames
      rw [List.foldl_cons, List.foldl_cons]
      exact ih (folded_cleanStep hdone hname) hrest

end Path

namespace Search

open HeaderMacros.Path (components stack isAbsolute cleanStep)

variable {disk : Disk Id} {dir path name relative : Text} {dirs : List Text}

/-! ## The way to a file -/

/-- A path leads from a directory along some components, in any letter case. -/
structure LeadsTo (dir : Text) (along : List Text) (path : Text) : Prop where
  /-- It starts at the root if the directory does. -/
  isAbsolute_eq : isAbsolute path = isAbsolute dir
  /-- Its components are those of the directory and the ones that were met, cleaned together. -/
  met : ∃ names : List Text, names.map Text.folded = along.map Text.folded ∧
    stack path = names.foldl (cleanStep (isAbsolute dir)) (stack dir)

/-- The way from a directory starts with the component that is met in it. -/
theorem LeadsTo.cons {next component : Text} {along : List Text} (h : LeadsTo next along path)
    (hroot : isAbsolute next = isAbsolute dir) {met : Text} (hmet : met.folded = component.folded)
    (hstack : stack next = cleanStep (isAbsolute dir) (stack dir) met) :
    LeadsTo dir (component :: along) path := by
  obtain ⟨habsolute, names, hnames, hpath⟩ := h
  refine ⟨habsolute.trans hroot, met :: names, ?_, ?_⟩
  · rw [List.map_cons, List.map_cons, hmet, hnames]
  · rw [hpath, hroot, hstack, List.foldl_cons]

/-- A directory below another one is one component further. -/
theorem stack_join_of_unsplit (dir : Text) {component : Text} (h : Byte.slash ∉ component) :
    isAbsolute (Path.join dir component) = isAbsolute dir ∧
      stack (Path.join dir component) = cleanStep (isAbsolute dir) (stack dir) component := by
  have hrelative : isAbsolute component = false := by
    refine Bool.eq_false_iff.2 fun habsolute => h ?_
    rw [isAbsolute, beq_iff_eq] at habsolute
    exact List.mem_of_mem_head? habsolute
  refine ⟨Path.isAbsolute_join dir hrelative, ?_⟩
  rw [Path.stack_join dir hrelative, components, Text.splitOn_of_notMem h]
  rfl

/-- The entry that a component means is the component but for letter case. -/
theorem folded_of_pickName? {component met : Text} {names : List Text}
    (h : pickName? component names = some met) : met.folded = component.folded := by
  unfold pickName? at h
  split at h
  · obtain rfl := Option.some.inj h
    rfl
  · have hequal : met.equalFold component = true := by
      simpa using List.find?_some h
    exact Text.equalFold_iff.1 hequal

theorem leadsTo_of_findFolded {along : List Text} (hslash : ∀ c ∈ along, Byte.slash ∉ c)
    (h : findFolded disk dir along = some path) : LeadsTo dir along path := by
  induction along generalizing dir with
  | nil =>
    have hpath : path = Path.clean dir := by
      unfold findFolded at h
      cases hfile : disk.isFile dir with
      | true =>
        rw [hfile] at h
        exact (Option.some.inj h).symm
      | false =>
        rw [hfile] at h
        cases h
    subst hpath
    exact ⟨Path.isAbsolute_clean dir, [], rfl, Path.stack_clean dir⟩
  | cons component along ih =>
    obtain ⟨hcomponent, hrest⟩ := List.forall_mem_cons.1 hslash
    rw [findFolded] at h
    split at h
    · rename_i hskipped
      exact (ih hrest h).cons rfl rfl (Path.cleanStep_of_skipped hskipped).symm
    split at h
    · rename_i habove
      subst habove
      obtain ⟨hroot, hstack⟩ := stack_join_of_unsplit dir hcomponent
      exact (ih hrest h).cons hroot rfl hstack
    · cases hmet : (disk.list? dir).bind (pickName? component) with
      | none =>
        simp only [bind, hmet] at h
        cases h
      | some met =>
        simp only [bind, hmet] at h
        obtain ⟨names, -, hpick⟩ := Option.bind_eq_some_iff.1 hmet
        have hfolded := folded_of_pickName? hpick
        -- What has no slash has none in any letter case.
        have hunsplit : Byte.slash ∉ met := fun hmem =>
          hcomponent (Text.mem_of_folded hfolded (by decide) hmem)
        obtain ⟨hroot, hstack⟩ := stack_join_of_unsplit dir hunsplit
        exact (ih hrest h).cons hroot hfolded hstack

/-- A name that is tried as it is spelled leads to the path that it spells. -/
theorem leadsTo_clean_join (dir : Text) (hrelative : isAbsolute relative = false) :
    LeadsTo dir (components relative) (Path.clean (Path.join dir relative)) where
  isAbsolute_eq := by rw [Path.isAbsolute_clean, Path.isAbsolute_join dir hrelative]
  met := ⟨components relative, rfl, by rw [Path.stack_clean, Path.stack_join dir hrelative]⟩

theorem exists_leadsTo_of_findIn (hrelative : isAbsolute relative = false)
    (h : findIn disk relative dirs = some path) :
    ∃ dir ∈ dirs, LeadsTo dir (components relative) path := by
  induction dirs with
  | nil => cases h
  | cons dir dirs ih =>
    rw [findIn] at h
    cases hfile : disk.isFile (Path.join dir relative) with
    | true =>
      simp only [bind, hfile, if_true] at h
      obtain rfl := Option.some.inj h
      exact ⟨dir, List.mem_cons_self, leadsTo_clean_join dir hrelative⟩
    | false =>
      simp only [bind, hfile, Bool.false_eq_true, if_false] at h
      cases hfolded : findFolded disk dir (components relative) with
      | some found =>
        rw [hfolded] at h
        obtain rfl := Option.some.inj h
        refine ⟨dir, List.mem_cons_self, leadsTo_of_findFolded ?_ hfolded⟩
        exact fun c => Path.slash_notMem_of_mem_components
      | none =>
        rw [hfolded] at h
        obtain ⟨other, hother, hleads⟩ := ih h
        exact ⟨other, List.mem_cons_of_mem dir hother, hleads⟩

/-- The path that is found for a relative name leads from one of the directories along the
components of the name. -/
theorem exists_leadsTo_of_find (hrelative : isAbsolute (withSlashes name) = false)
    (h : find disk dirs name = .ok path) :
    ∃ dir ∈ dirs, LeadsTo dir (components (withSlashes name)) path := by
  rw [find] at h
  simp only [hrelative, Bool.false_eq_true, if_false] at h
  cases hfound : findIn disk (withSlashes name) dirs with
  | none =>
    simp only [bind, hfound] at h
    cases h
  | some found =>
    simp only [bind, hfound] at h
    obtain rfl := Except.ok.inj h
    exact exists_leadsTo_of_findIn hrelative hfound

/-! ## Names with one path -/

/-- A name that does not lead out of the directory in which it is looked up. -/
structure Inside (name : Text) : Prop where
  /-- It is relative. -/
  relative : isAbsolute (withSlashes name) = false
  /-- Once its components are cleaned, none goes up. -/
  below : Path.above ∉ stack (withSlashes name)

/-- No search directory is below another one. -/
def Separate (dirs : List Text) : Prop :=
  ∀ dir ∈ dirs, ∀ other ∈ dirs, isAbsolute dir = isAbsolute other → stack dir <:+ stack other →
    stack dir = stack other

/-- What a name that stays inside leads to has the components of the directory and, before them,
those of the name. -/
theorem LeadsTo.stack_eq_append (hinside : Inside name)
    (h : LeadsTo dir (components (withSlashes name)) path) :
    ∃ inner, inner.map Text.folded = (stack (withSlashes name)).map Text.folded ∧
      stack path = inner ++ stack dir := by
  obtain ⟨-, names, hnames, hpath⟩ := h
  have hfolded : (names.foldl (cleanStep false) []).map Text.folded =
      (stack (withSlashes name)).map Text.folded := by
    rw [stack, hinside.relative]
    exact Path.folded_foldl_cleanStep rfl hnames
  -- What was met leads out of the directory only if the name does.
  have hbelow : Path.above ∉ names.foldl (cleanStep false) [] := by
    intro hmem
    have hmap := List.mem_map_of_mem (f := Text.folded) hmem
    rw [hfolded] at hmap
    obtain ⟨c, hc, hcabove⟩ := List.mem_map.1 hmap
    exact hinside.below ((Path.eq_iff_of_folded hcabove (by simp)).2 rfl ▸ hc)
  refine ⟨_, hfolded, ?_⟩
  rw [hpath]
  exact Path.foldl_cleanStep_append hbelow (stack dir)

/-- Two names that stay inside and have one path have the same components but for letter case. -/
theorem folded_stack_eq_of_find (hdirs : Separate dirs) {first second : Text}
    (hfirst : Inside first) (hsecond : Inside second) (hpath : find disk dirs first = .ok path)
    (hpath' : find disk dirs second = .ok path) :
    (stack (withSlashes first)).map Text.folded = (stack (withSlashes second)).map Text.folded := by
  obtain ⟨dir, hdir, hleads⟩ := exists_leadsTo_of_find hfirst.relative hpath
  obtain ⟨dir', hdir', hleads'⟩ := exists_leadsTo_of_find hsecond.relative hpath'
  have hroot : isAbsolute dir = isAbsolute dir' :=
    hleads.isAbsolute_eq.symm.trans hleads'.isAbsolute_eq
  obtain ⟨inner, hinner, hstack⟩ := hleads.stack_eq_append hfirst
  obtain ⟨inner', hinner', hstack'⟩ := hleads'.stack_eq_append hsecond
  -- The path ends the components of both directories, so one of them is below the other.
  have hsame : stack dir = stack dir' := by
    rcases List.suffix_or_suffix_of_suffix ⟨inner, hstack.symm⟩ ⟨inner', hstack'.symm⟩ with h | h
    · exact hdirs dir hdir dir' hdir' hroot h
    · exact (hdirs dir' hdir' dir hdir hroot.symm h).symm
  rw [hstack, hsame] at hstack'
  rw [← hinner, ← hinner', List.append_cancel_right hstack']

end Search

end HeaderMacros
