import HeaderMacros.Proofs.FileTree.Cleaning
import HeaderMacros.Proofs.FileTree.Writing
import Mathlib.Data.List.Induction

/-!
# Paths that lead down

A path without components for the directory above only leads down: what it names is told by those of
its components that name something (`Path.named`). `Path.below` is the cleaned path of some names
below a directory.

- `locate_below`: below a directory, names are walked from where the path of the directory starts,
  along the names in it and the names below it.
- `locate_of_walk_named`: the same goes for the path of a directory as it is spelled. It may be
  longer than the cleaned one, so it can be too long where the cleaned one is not.
- `locate_foldl_join`: names can be walked one directory at a time.
- `mem_of_list?`: the names in a directory.
-/

namespace HeaderMacros

namespace Path

variable {dir relative : Text} {names q : List Text}

/-! ## Names -/

/-- A component that names an entry of a directory. -/
structure IsName (c : Text) : Prop where
  /-- It is not empty. -/
  nonempty : c ≠ []
  /-- It is not for the directory itself. -/
  moves : c ≠ here
  /-- It is not for the directory above. -/
  descends : c ≠ above
  /-- It has no slash. -/
  unsplit : Byte.slash ∉ c

/-- The components that name something, if none is for the directory above. -/
def named (names : List Text) : List Text := names.filter fun c => c ≠ [] ∧ c ≠ here

theorem isName_of_mem_named (hslash : ∀ c ∈ names, Byte.slash ∉ c) (habove : above ∉ names) :
    ∀ c ∈ named names, IsName c := by
  intro c hc
  obtain ⟨hmem, hnamed⟩ := List.mem_filter.1 hc
  obtain ⟨hempty, hhere⟩ := of_decide_eq_true hnamed
  exact ⟨hempty, hhere, fun heq => habove (heq ▸ hmem), hslash c hmem⟩

theorem named_cons_of_skipped {c : Text} (h : c = [] ∨ c = here) :
    named (c :: names) = named names := by
  refine List.filter_cons_of_neg fun hnamed => ?_
  obtain ⟨hempty, hhere⟩ := of_decide_eq_true hnamed
  exact h.elim hempty hhere

theorem named_cons_of_named {c : Text} (hempty : c ≠ []) (hhere : c ≠ here) :
    named (c :: names) = c :: named names :=
  List.filter_cons_of_pos (decide_eq_true ⟨hempty, hhere⟩)

/-- Cleaning keeps the components that name something. -/
theorem foldl_cleanStep_named {rooted : Bool} {done : List Text} (habove : above ∉ names) :
    names.foldl (cleanStep rooted) done = (named names).reverse ++ done := by
  induction names generalizing done with
  | nil => rfl
  | cons c names ih =>
    obtain ⟨hc, hnames⟩ := not_or.1 (mt List.mem_cons.2 habove)
    rw [List.foldl_cons, ih hnames]
    by_cases hskipped : c = [] ∨ c = here
    · rw [cleanStep_of_skipped hskipped, named_cons_of_skipped hskipped]
    · obtain ⟨hempty, hhere⟩ := not_or.1 hskipped
      rw [cleanStep_of_named hempty hhere (Ne.symm hc), named_cons_of_named hempty hhere]
      simp

theorem stack_eq_named (habove : above ∉ components dir) :
    stack dir = (named (components dir)).reverse := by
  rw [stack, foldl_cleanStep_named habove, List.append_nil]

/-- Names are the components of their path. -/
theorem components_join_of_isName (hq : ∀ c ∈ q, IsName c) (hne : q ≠ []) :
    components (Text.join [Byte.slash] q) = q :=
  Text.splitOn_join hne fun c hc => (hq c hc).unsplit

theorem foldl_cleanStep_join {rooted : Bool} {done : List Text} (hq : ∀ c ∈ q, IsName c) :
    (components (Text.join [Byte.slash] q)).foldl (cleanStep rooted) done = q.reverse ++ done := by
  cases q with
  | nil => rfl
  | cons c q =>
    rw [components_join_of_isName hq (List.cons_ne_nil c q)]
    exact foldl_cleanStep_of_named fun d hd => ⟨(hq d hd).nonempty, (hq d hd).moves,
      (hq d hd).descends⟩

theorem isAbsolute_join_of_isName (hq : ∀ c ∈ q, IsName c) :
    isAbsolute (Text.join [Byte.slash] q) = false := by
  have hcleaned : Cleaned false q.reverse := by
    have hnil : Cleaned false (q.foldl (cleanStep false) []) :=
      Cleaned.nil.foldl fun c hc => (hq c hc).unsplit
    rwa [foldl_cleanStep_of_named fun c hc => ⟨(hq c hc).nonempty, (hq c hc).moves,
      (hq c hc).descends⟩, List.append_nil] at hnil
  simpa using hcleaned.isAbsolute_join

/-! ## Paths below a directory -/

/-- The cleaned path of some names below a directory. -/
def below (dir : Text) (q : List Text) : Text := join dir (Text.join [Byte.slash] q)

theorem join_eq_render (hdir : dir ≠ []) (hrelative : isAbsolute relative = false) :
    join dir relative = render (isAbsolute dir)
      ((components relative).foldl (cleanStep (isAbsolute dir)) (stack dir)) := by
  have hclean : join dir relative = clean (dir ++ Byte.slash :: relative) := if_neg hdir
  have hroot := isAbsolute_join dir hrelative
  have hstack := stack_join dir hrelative
  rw [hclean, isAbsolute_clean] at hroot
  rw [hclean, stack_clean] at hstack
  rw [hclean, clean_eq_render, hroot, hstack]

theorem below_eq_render (hdir : dir ≠ []) (hq : ∀ c ∈ q, IsName c) :
    below dir q = render (isAbsolute dir) (q.reverse ++ stack dir) := by
  rw [below, join_eq_render hdir (isAbsolute_join_of_isName hq), foldl_cleanStep_join hq]

/-- A relative name leads to what it names below a directory. -/
theorem join_eq_below (hdir : dir ≠ []) (hrelative : isAbsolute relative = false)
    (habove : above ∉ components relative) :
    join dir relative = below dir (named (components relative)) := by
  have hnames : ∀ c ∈ named (components relative), IsName c :=
    isName_of_mem_named (fun _ => slash_notMem_of_mem_components) habove
  rw [join_eq_render hdir hrelative, foldl_cleanStep_named habove, below_eq_render hdir hnames]

theorem isAbsolute_below (hq : ∀ c ∈ q, IsName c) : isAbsolute (below dir q) = isAbsolute dir :=
  isAbsolute_join dir (isAbsolute_join_of_isName hq)

theorem stack_below (hq : ∀ c ∈ q, IsName c) : stack (below dir q) = q.reverse ++ stack dir := by
  rw [below, stack_join dir (isAbsolute_join_of_isName hq), foldl_cleanStep_join hq]

section Below

variable (hdir : dir ≠ []) (hq : ∀ c ∈ q, IsName c)
include hdir hq

theorem clean_below : clean (below dir q) = below dir q := by
  rw [clean_eq_render, isAbsolute_below hq, stack_below hq, below_eq_render hdir hq]

theorem below_ne_nil : below dir q ≠ [] := by
  rw [below_eq_render hdir hq, render]
  split_ifs with hroot hempty
  · exact List.cons_ne_nil _ _
  · exact List.cons_ne_nil _ _
  · exact hempty

/-- One name further below. -/
theorem join_below {c : Text} (hc : IsName c) : join (below dir q) c = below dir (q ++ [c]) := by
  have hall : ∀ d ∈ q ++ [c], IsName d := by
    intro d hd
    rcases List.mem_append.1 hd with hd | hd
    · exact hq d hd
    · exact List.mem_singleton.1 hd ▸ hc
  have hone : join (below dir q) c = below (below dir q) [c] := rfl
  rw [hone, below_eq_render (below_ne_nil hdir hq) (by simpa using hc), isAbsolute_below hq,
    stack_below hq, below_eq_render hdir hall]
  simp

end Below

/-- Going down name by name leads to the path of all names. -/
theorem foldl_join_eq_below (hdir : dir ≠ []) (hq : ∀ c ∈ q, IsName c) (hne : q ≠ []) :
    q.foldl join dir = below dir q := by
  induction q using List.reverseRecOn with
  | nil => exact absurd rfl hne
  | append_singleton q c ih =>
    have hfront : ∀ d ∈ q, IsName d := fun d hd => hq d (List.mem_append_left _ hd)
    rw [List.foldl_append, List.foldl_cons, List.foldl_nil]
    by_cases hempty : q = []
    · subst hempty
      rfl
    · rw [ih hfront hempty, join_below hdir hfront (hq c (by simp))]

theorem isPrefix_join_append {pieces : List Text} (hne : pieces ≠ []) (sep : Text)
    (more : List Text) : Text.join sep pieces <+: Text.join sep (pieces ++ more) := by
  induction pieces with
  | nil => exact absurd rfl hne
  | cons piece pieces ih =>
    cases pieces with
    | nil =>
      cases more with
      | nil => exact List.prefix_rfl
      | cons next more =>
        rw [List.singleton_append, Text.join_cons (List.cons_ne_nil next more), List.append_assoc]
        exact List.prefix_append piece _
    | cons next pieces =>
      rw [List.cons_append, Text.join_cons (List.cons_ne_nil next pieces),
        Text.join_cons (List.append_ne_nil_of_left_ne_nil (List.cons_ne_nil next pieces) more)]
      exact (List.prefix_append_right_inj _).2 (ih (List.cons_ne_nil next pieces))

/-- A cleaned path with components is a slash, if it starts at the root, and the components. -/
theorem Cleaned.render_eq {rooted : Bool} {done : List Text} (h : Cleaned rooted done)
    (hne : done ≠ []) :
    render rooted done =
      (if rooted then [Byte.slash] else []) ++ Text.join [Byte.slash] done.reverse := by
  have hjoin : Text.join [Byte.slash] done.reverse ≠ [] := mt h.eq_nil_of_join hne
  cases rooted with
  | true => rfl
  | false =>
    rw [render]
    simp [hjoin]

theorem Cleaned.components_render {rooted : Bool} {done : List Text} (h : Cleaned rooted done)
    (hne : done ≠ []) :
    components (render rooted done) = (if rooted then [[]] else []) ++ done.reverse := by
  rw [h.render_eq hne]
  cases rooted with
  | true =>
    rw [components, if_pos rfl, List.singleton_append, Text.splitOn, if_pos rfl]
    exact congrArg ([] :: ·) (h.components_join hne)
  | false => exact h.components_join hne

theorem cleaned_below (hq : ∀ c ∈ q, IsName c) :
    Cleaned (isAbsolute dir) (q.reverse ++ stack dir) := by
  have hcleaned := cleaned_stack (below dir q)
  rwa [isAbsolute_below hq, stack_below hq] at hcleaned

/-- The path of names below a directory starts with that of the first ones among them. -/
theorem below_isPrefix {more : List Text} (hdir : dir ≠ []) (hq : ∀ c ∈ q ++ more, IsName c)
    (hne : q ≠ []) : below dir q <+: below dir (q ++ more) := by
  have hfront : ∀ c ∈ q, IsName c := fun c hc => hq c (List.mem_append_left more hc)
  have hreverse : ∀ names : List Text, (names.reverse ++ stack dir).reverse =
      (stack dir).reverse ++ names := by simp
  rw [below_eq_render hdir hfront, below_eq_render hdir hq,
    (cleaned_below hfront).render_eq (by simp [hne]), (cleaned_below hq).render_eq (by simp [hne]),
    hreverse, hreverse, ← List.append_assoc (stack dir).reverse]
  refine (List.prefix_append_right_inj _).2 (isPrefix_join_append ?_ _ more)
  simp [hne]

/-- A byte other than the slash and the dot is in a directory's path only if it is in what names
something there. -/
theorem exists_mem_named_of_mem {b : UInt8} (hslash : b ≠ Byte.slash) (hdot : b ≠ Byte.dot)
    (hb : b ∈ dir) : ∃ c ∈ named (components dir), b ∈ c := by
  have hjoined : b ∈ Text.join [Byte.slash] (components dir) := by
    rwa [components, Text.join_splitOn]
  rcases Text.mem_join hjoined with hsep | ⟨c, hc, hbc⟩
  · exact absurd (List.mem_singleton.1 hsep) hslash
  · refine ⟨c, List.mem_filter.2 ⟨hc, decide_eq_true ⟨?_, ?_⟩⟩, hbc⟩
    · rintro rfl
      cases hbc
    · rintro rfl
      exact hdot (List.mem_singleton.1 hbc)

/-- Such a byte is then in every path below the directory. -/
theorem mem_below_of_mem {b : UInt8} (hslash : b ≠ Byte.slash) (hdot : b ≠ Byte.dot)
    (hdir : dir ≠ []) (habove : above ∉ components dir) (hq : ∀ c ∈ q, IsName c) (hne : q ≠ [])
    (hb : b ∈ dir) : b ∈ below dir q := by
  obtain ⟨c, hc, hbc⟩ := exists_mem_named_of_mem hslash hdot hb
  rw [below_eq_render hdir hq, (cleaned_below hq).render_eq (by simp [hne])]
  refine List.mem_append_right _ (Text.mem_join_of_mem ?_ hbc)
  rw [stack_eq_named habove]
  simp [hc]

end Path

namespace FileTree

open HeaderMacros.Path (IsName named below components isAbsolute stack)

variable {t : FileTree} {place found : List Text} {names q : List Text} {path dir : Text}

/-! ## Walks -/

theorem pathReason?_eq_none_iff :
    pathReason? path = none ↔ path ≠ [] ∧ 0 ∉ path ∧ path.length < maxPathLength := by
  unfold pathReason?
  split_ifs with hempty hzero hlong
  · simp [hempty]
  · simp [List.contains_iff_mem.1 hzero]
  · simp [Nat.not_lt.2 hlong]
  · exact iff_of_true rfl ⟨hempty, mt List.contains_iff_mem.2 hzero, Nat.lt_of_not_le hlong⟩

theorem locate_of_pathReason? (h : pathReason? path = none) :
    t.locate path = t.walk (t.start path) (components path) := by
  rw [locate, h]

theorem pathReason?_of_locate (h : t.locate path = .ok found) : pathReason? path = none := by
  unfold locate at h
  split at h
  · cases h
  · assumption

/-- Where a walk goes on there is a directory, and the next name is in it. -/
theorem hasDirectory_of_walk_cons {c : Text} (hc : IsName c)
    (h : t.walk place (c :: names) = .ok found) :
    t.HasDirectory place ∧ t.get? (place ++ [c]) ≠ none := by
  rw [walk] at h
  split_ifs at h with hfile hskip habove hlong hmissing
  · exact absurd hskip (not_or.2 ⟨hc.nonempty, hc.moves⟩)
  · exact absurd habove hc.descends
  · exact ⟨hasDirectory_iff.2 hfile, fun hnone => hmissing (by rw [hnone]; rfl)⟩

theorem hasDirectory_of_walk (h : t.walk place names = .ok found) (hfound : t.HasDirectory found) :
    t.HasDirectory place := by
  cases names with
  | nil =>
    obtain rfl := Except.ok.inj h
    exact hfound
  | cons c names =>
    refine hasDirectory_iff.2 fun hfile => ?_
    rw [walk, if_pos hfile] at h
    cases h

/-- Components that name nothing can be put in on the way to a directory. -/
theorem walk_of_walk_named (habove : Path.above ∉ names)
    (h : t.walk place (named names) = .ok found) (hfound : t.HasDirectory found) :
    t.walk place names = .ok found := by
  induction names generalizing place with
  | nil => exact h
  | cons c names ih =>
    obtain ⟨hc, hnames⟩ := not_or.1 (mt List.mem_cons.2 habove)
    by_cases hskipped : c = [] ∨ c = Path.here
    · rw [Path.named_cons_of_skipped hskipped] at h
      rw [walk, if_neg (hasDirectory_iff.1 (hasDirectory_of_walk h hfound)), if_pos hskipped]
      exact ih hnames h
    · obtain ⟨hempty, hhere⟩ := not_or.1 hskipped
      rw [Path.named_cons_of_named hempty hhere, walk] at h
      rw [walk]
      split_ifs at h ⊢
      all_goals exact ih hnames h

/-! ## Paths -/

/-- The path of a directory leads where its names lead. -/
theorem locate_of_walk_named (hpath : pathReason? dir = none)
    (habove : Path.above ∉ components dir)
    (h : t.walk (t.start dir) (named (components dir)) = .ok found)
    (hfound : t.HasDirectory found) : t.locate dir = .ok found := by
  rw [locate_of_pathReason? hpath]
  exact walk_of_walk_named habove h hfound

/-- Names below a directory are walked after those in its path. -/
theorem locate_below (hdir : dir ≠ []) (habove : Path.above ∉ components dir)
    (hq : ∀ c ∈ q, IsName c) (hne : q ≠ []) (hpath : pathReason? (below dir q) = none) :
    t.locate (below dir q) = t.walk (t.start dir) (named (components dir) ++ q) := by
  have hstart : t.start (below dir q) = t.start dir := by
    rw [start, start, Path.isAbsolute_below hq]
  have hreverse : (q.reverse ++ stack dir).reverse = named (components dir) ++ q := by
    rw [Path.stack_eq_named habove]
    simp
  rw [locate_of_pathReason? hpath, hstart, Path.below_eq_render hdir hq,
    (Path.cleaned_below hq).components_render (by simp [hne]), hreverse]
  split_ifs with hroot
  · -- The walk starts at the root, where the empty component in front goes nowhere.
    have hnil : t.start dir = [] := if_pos hroot
    rw [hnil, List.singleton_append, walk, if_neg (hasDirectory_iff.1 t.hasDirectory_nil),
      if_pos (.inl rfl)]
  · rfl

/-- On the way to names below a directory, the path so far leads where the names so far lead. -/
theorem locate_foldl_join {done more : List Text} (hdir : dir ≠ [])
    (hdown : Path.above ∉ components dir) (hnames : ∀ c ∈ done ++ more, IsName c)
    (hmore : more ≠ []) (hpath : pathReason? (below dir (done ++ more)) = none)
    (hlength : done = [] → dir.length < maxPathLength)
    (hwalk : t.walk (t.start dir) (named (components dir) ++ done) = .ok place)
    (hplace : t.HasDirectory place) : t.locate (done.foldl Path.join dir) = .ok place := by
  obtain ⟨-, hzero, hshort⟩ := pathReason?_eq_none_iff.1 hpath
  cases done with
  | nil =>
    -- Here the path of the directory is taken as it is spelled.
    have hzero' : 0 ∉ dir := fun hmem =>
      hzero (Path.mem_below_of_mem (by decide) (by decide) hdir hdown hnames hmore hmem)
    refine locate_of_walk_named ?_ hdown (by simpa using hwalk) hplace
    exact pathReason?_eq_none_iff.2 ⟨hdir, hzero', hlength rfl⟩
  | cons first done =>
    have hfront : ∀ c ∈ first :: done, IsName c := fun c hc =>
      hnames c (List.mem_append_left _ hc)
    have hleads := Path.below_isPrefix hdir hnames (List.cons_ne_nil first done)
    rw [Path.foldl_join_eq_below hdir hfront (List.cons_ne_nil first done),
      locate_below hdir hdown hfront (List.cons_ne_nil first done) ?_, hwalk]
    exact pathReason?_eq_none_iff.2 ⟨Path.below_ne_nil hdir hfront,
      fun hmem => hzero (hleads.mem hmem), Nat.lt_of_le_of_lt hleads.length_le hshort⟩

/-! ## The names in a directory -/

theorem childName?_eq_some_iff {directory : List Text} {name : Text} :
    childName? directory place = some name ↔ place = directory ++ [name] := by
  constructor
  · intro h
    unfold childName? at h
    split at h
    · rename_i last hlast
      split_ifs at h with hdirectory
      cases h
      obtain ⟨front, rfl⟩ := List.getLast?_eq_some_iff.1 hlast
      rw [← hdirectory, List.dropLast_concat]
    · cases h
  · rintro rfl
    simp [childName?]

/-- The names in a directory are the last components of the places directly below it. -/
theorem mem_of_list? (hlocate : t.locate path = .ok place) (hplace : t.HasDirectory place) :
    ∃ names, t.list? path = some names ∧
      ∀ name, name ∈ names ↔ ∃ entry, (place ++ [name], entry) ∈ t.entries := by
  refine ⟨_, by rw [list?, hlocate]; exact if_pos hplace, fun name => ?_⟩
  rw [List.mem_mergeSort, List.mem_filterMap]
  constructor
  · rintro ⟨⟨child, entry⟩, hmem, hchild⟩
    obtain rfl := childName?_eq_some_iff.1 hchild
    exact ⟨entry, hmem⟩
  · rintro ⟨entry, hmem⟩
    exact ⟨_, hmem, childName?_eq_some_iff.2 rfl⟩

/-- The path of a directory that can be listed is not too long. -/
theorem length_lt_of_list? {names : List Text} (h : t.list? path = some names) :
    path.length < maxPathLength := by
  unfold list? at h
  split at h
  · cases h
  · rename_i found hlocate
    exact (pathReason?_eq_none_iff.1 (pathReason?_of_locate hlocate)).2.2

/-- What stands in a place is among the entries. -/
theorem exists_mem_entries (hplace : place ≠ []) {entry : FileEntry}
    (h : t.get? place = some entry) : (place, entry) ∈ t.entries := by
  rw [get?, if_neg hplace] at h
  obtain ⟨front, back, hentries, -⟩ := List.lookup_eq_some_iff.1 h
  rw [hentries]
  simp

end FileTree

end HeaderMacros
