import HeaderMacros.Proofs.FileTree.Walking
import HeaderMacros.Proofs.Search.Reached

/-!
# The order of the search

In each directory a name is tried as it is spelled, and then component by component without regard
to letter case, taking the first entry that fits and never coming back to another one.

Whatever the tree is, the path that is found is that of a regular file below one of the directories,
its names are those that were looked for but for letter case, and exact names go first. If no
directory has two names that are the same but for letter case, there is nothing to come back to: the
first directory that has such a file is the one where it is found (`find_ordered`).

The two ways to look ask for different paths of one directory: the exact one for the cleaned path of
the file, the other one for the names in the directory under the path as it is spelled. The spelling
alone can be too long to be looked up. So a directory that is spelled in `maxPathLength` bytes or
more offers only what has the exact name (`not_found_dottedDirectory`).
-/

namespace HeaderMacros.Search

open HeaderMacros.Path (components isAbsolute named below IsName)

variable {t : FileTree} {dir name relative path : Text} {dirs q along : List Text}

/-! ## Names in another letter case -/

/-- Names that are the same but for letter case, one by one. -/
def SameButCase (q names : List Text) : Prop :=
  List.Forall₂ (fun met looked => Text.equalFold met looked = true) q names

theorem SameButCase.refl (names : List Text) : SameButCase names names :=
  List.forall₂_same.2 fun _ _ => Text.equalFold_iff.2 rfl

theorem SameButCase.ne_nil {names : List Text} (h : SameButCase q names) (hne : names ≠ []) :
    q ≠ [] := by
  rintro rfl
  exact hne (List.forall₂_nil_left_iff.1 h)

/-- A name in another letter case is a name. -/
theorem isName_of_equalFold {met looked : Text} (h : Text.equalFold met looked = true)
    (hlooked : IsName looked) : IsName met := by
  have hfolded := Text.equalFold_iff.1 h
  exact {
    nonempty := fun heq => hlooked.nonempty ((Path.eq_iff_of_folded hfolded (by simp)).1 heq)
    moves := fun heq => hlooked.moves ((Path.eq_iff_of_folded hfolded (by simp)).1 heq)
    descends := fun heq => hlooked.descends ((Path.eq_iff_of_folded hfolded (by simp)).1 heq)
    unsplit := fun hmem => hlooked.unsplit (Text.mem_of_folded hfolded (by decide) hmem) }

theorem SameButCase.isName {names : List Text} (h : SameButCase q names)
    (hnames : ∀ c ∈ names, IsName c) : ∀ c ∈ q, IsName c := by
  induction h with
  | nil => exact hnames
  | cons hfold _ ih =>
    obtain ⟨hname, hnames⟩ := List.forall_mem_cons.1 hnames
    exact List.forall_mem_cons.2 ⟨isName_of_equalFold hfold hname, ih hnames⟩

/-! ## What a directory has -/

/-- There are only directories and regular files. -/
def DeviceFree (t : FileTree) : Prop :=
  ∀ e ∈ t.entries, e.2 ≠ FileEntry.sink ∧ e.2 ≠ FileEntry.fullDevice

/-- No directory has two names that are the same but for letter case. -/
def Unambiguous (t : FileTree) : Prop :=
  ∀ e ∈ t.entries, ∀ e' ∈ t.entries, ∀ first ∈ e.1.getLast?, ∀ second ∈ e'.1.getLast?,
    e.1.dropLast = e'.1.dropLast → Text.equalFold first second = true → first = second

/-- A regular file stands below a directory under some names. -/
def Holds (t : FileTree) (dir : Text) (q : List Text) : Prop :=
  ∃ content, t.stat (below dir q) = .ok (.file content)

/-- A directory has a regular file for some names: under these very names, or, if its path is not
too long as it is spelled, under names that are the same but for letter case. -/
def Offers (t : FileTree) (dir : Text) (names : List Text) : Prop :=
  Holds t dir names ∨
    dir.length < FileTree.maxPathLength ∧ ∃ q, SameButCase q names ∧ Holds t dir q

theorem stat_eq_ok_iff {entry : FileEntry} :
    t.stat path = .ok entry ↔ ∃ place, t.locate path = .ok place ∧ t.get? place = some entry := by
  unfold FileTree.stat
  cases t.locate path with
  | error reason => simp [bind, Except.bind]
  | ok place =>
    simp only [bind, Except.bind, Except.ok.injEq, exists_eq_left']
    cases t.get? place with
    | none => simp
    | some found => simp

/-- What is no directory is a regular file. -/
theorem isFile_iff (hfree : DeviceFree t) :
    t.isFile path = true ↔ ∃ content, t.stat path = .ok (.file content) := by
  unfold FileTree.isFile
  cases hstat : t.stat path with
  | error reason => simp
  | ok entry =>
    cases entry with
    | directory => simp [FileEntry.isDirectory]
    | file content => simp [FileEntry.isDirectory]
    | sink | fullDevice =>
      obtain ⟨place, -, hget⟩ := stat_eq_ok_iff.1 hstat
      by_cases hplace : place = []
      · rw [hplace] at hget
        cases hget
      · have hdevice := hfree _ (FileTree.exists_mem_entries hplace hget)
        simp at hdevice

/-! ## Looking without regard to letter case -/

theorem equalFold_of_pickName? {component met : Text} {names : List Text}
    (h : pickName? component names = some met) : Text.equalFold met component = true :=
  Text.equalFold_iff.2 (folded_of_pickName? h)

/-- The way that is found goes down by the names that were looked for, in any letter case, and
starts in a directory that was listed. -/
theorem exists_of_findFolded {disk : Disk Id} (habove : Path.above ∉ along)
    (h : findFolded disk dir along = some path) :
    (∃ q, SameButCase q (named along) ∧ disk.isFile (q.foldl Path.join dir) = true ∧
      path = Path.clean (q.foldl Path.join dir)) ∧
    (named along ≠ [] → ∃ names, disk.list? dir = some names) := by
  induction along generalizing dir with
  | nil =>
    unfold findFolded at h
    cases hfile : disk.isFile dir with
    | false =>
      rw [hfile] at h
      cases h
    | true =>
      rw [hfile] at h
      exact ⟨⟨[], .nil, hfile, (Option.some.inj h).symm⟩, fun hne => absurd rfl hne⟩
  | cons component along ih =>
    obtain ⟨hcomponent, hrest⟩ := not_or.1 (mt List.mem_cons.2 habove)
    rw [findFolded] at h
    split at h
    · -- A component that stands for the directory itself is no name.
      rename_i hskipped
      rw [Path.named_cons_of_skipped hskipped]
      exact ih hrest h
    rename_i hnamed
    obtain ⟨hempty, hhere⟩ := not_or.1 hnamed
    rw [if_neg (Ne.symm hcomponent)] at h
    cases hmet : (disk.list? dir).bind (pickName? component) with
    | none =>
      simp only [bind, hmet] at h
      cases h
    | some met =>
      simp only [bind, hmet] at h
      obtain ⟨names, hlist, hpick⟩ := Option.bind_eq_some_iff.1 hmet
      -- The search goes on below the entry that was picked.
      obtain ⟨⟨q, hsame, hfile, hpath⟩, -⟩ := ih hrest h
      refine ⟨⟨met :: q, ?_, hfile, hpath⟩, fun _ => ⟨names, hlist⟩⟩
      rw [Path.named_cons_of_named hempty hhere]
      exact .cons (equalFold_of_pickName? hpick) hsame

/-- A name is picked if no other one in the directory is the same but for letter case. -/
theorem pickName?_eq_some {component met : Text} {names : List Text} (hmem : met ∈ names)
    (hfold : Text.equalFold met component = true)
    (hunique : ∀ other ∈ names, Text.equalFold other met = true → other = met) :
    pickName? component names = some met := by
  have hsame {other : Text} (hother : other ∈ names)
      (h : Text.equalFold other component = true) : other = met := by
    refine hunique other hother (Text.equalFold_iff.2 ?_)
    rw [Text.equalFold_iff.1 h, Text.equalFold_iff.1 hfold]
  unfold pickName?
  split_ifs with hexact
  · rw [hsame (List.contains_iff_mem.1 hexact) (Text.equalFold_iff.2 rfl)]
  · cases hfind : names.find? fun n => Text.equalFold n component with
    | none => exact absurd hfold (List.find?_eq_none.1 hfind met hmem)
    | some other =>
      rw [hsame (List.mem_of_find?_eq_some hfind) (by simpa using List.find?_some hfind)]

theorem Unambiguous.eq (h : Unambiguous t) {place : List Text} {first second : Text}
    {entry entry' : FileEntry} (hfirst : (place ++ [first], entry) ∈ t.entries)
    (hsecond : (place ++ [second], entry') ∈ t.entries)
    (hfold : Text.equalFold first second = true) : first = second :=
  h _ hfirst _ hsecond first (by simp) second (by simp) (by simp) hfold

section Complete

variable (hunique : Unambiguous t) (hdir : dir ≠ []) (hdown : Path.above ∉ components dir)
include hunique hdir hdown

/-- On the way to a file that stands below a directory, the next name is in the directory that the
names before it lead to, and no other name there is the same but for letter case. -/
theorem exists_list?_of_holds {done : List Text} {met : Text}
    (hnames : ∀ c ∈ done ++ met :: q, IsName c) (hholds : Holds t dir (done ++ met :: q))
    (hlength : done = [] → dir.length < FileTree.maxPathLength) :
    ∃ names, t.list? (done.foldl Path.join dir) = some names ∧ met ∈ names ∧
      ∀ other ∈ names, Text.equalFold other met = true → other = met := by
  obtain ⟨content, hstat⟩ := hholds
  obtain ⟨target, hlocate, -⟩ := stat_eq_ok_iff.1 hstat
  have hpath := FileTree.pathReason?_of_locate hlocate
  rw [FileTree.locate_below hdir hdown hnames (by simp) hpath, ← List.append_assoc,
    FileTree.walk_append] at hlocate
  cases hwalk : t.walk (t.start dir) (named (components dir) ++ done) with
  | error reason =>
    rw [hwalk] at hlocate
    cases hlocate
  | ok place =>
    rw [hwalk] at hlocate
    obtain ⟨hplace, hget⟩ := FileTree.hasDirectory_of_walk_cons (hnames met (by simp)) hlocate
    have hcurrent := FileTree.locate_foldl_join hdir hdown hnames (List.cons_ne_nil met q) hpath
      hlength hwalk hplace
    obtain ⟨names, hlist, hmem⟩ := FileTree.mem_of_list? hcurrent hplace
    obtain ⟨entry, hentry⟩ := Option.ne_none_iff_exists'.1 hget
    have hmet := FileTree.exists_mem_entries (by simp) hentry
    refine ⟨names, hlist, (hmem met).2 ⟨entry, hmet⟩, fun other hother hfold => ?_⟩
    obtain ⟨entry', hother⟩ := (hmem other).1 hother
    exact hunique.eq hother hmet hfold

/-- A file that stands below a directory is found there, in any letter case of its names. -/
theorem findFolded_of_holds (hfree : DeviceFree t) (done : List Text)
    (hdone : ∀ c ∈ done, IsName c) (halong : ∀ c ∈ along, Byte.slash ∉ c)
    (habove : Path.above ∉ along) (hsame : SameButCase q (named along)) (hne : done ++ q ≠ [])
    (hholds : Holds t dir (done ++ q))
    (hlength : done = [] → dir.length < FileTree.maxPathLength) :
    findFolded t.disk (done.foldl Path.join dir) along = some (below dir (done ++ q)) := by
  induction along generalizing done q with
  | nil =>
    cases hsame
    rw [List.append_nil] at hne hholds ⊢
    rw [Path.foldl_join_eq_below hdir hdone hne]
    -- All names have been followed, and the file is there.
    have hfile : t.disk.isFile (below dir done) = true := (isFile_iff hfree).2 hholds
    unfold findFolded
    rw [hfile, Path.clean_below hdir hdone]
    rfl
  | cons component along ih =>
    obtain ⟨hcomponent, hrest⟩ := not_or.1 (mt List.mem_cons.2 habove)
    have hslash := (List.forall_mem_cons.1 halong).2
    rw [findFolded]
    by_cases hskipped : component = [] ∨ component = Path.here
    · rw [Path.named_cons_of_skipped hskipped] at hsame
      rw [if_pos hskipped]
      exact ih done hdone hslash hrest hsame hne hholds hlength
    obtain ⟨hempty, hhere⟩ := not_or.1 hskipped
    have hnamed := Path.isName_of_mem_named halong habove
    rw [Path.named_cons_of_named hempty hhere] at hsame hnamed
    rw [if_neg hskipped, if_neg (Ne.symm hcomponent)]
    cases hsame with
    | @cons met _ q _ hfold hsame =>
      have hq := SameButCase.isName (.cons hfold hsame) hnamed
      have hmet := hq met List.mem_cons_self
      have hall : ∀ c ∈ done ++ met :: q, IsName c := by
        intro c hc
        exact (List.mem_append.1 hc).elim (hdone c) (hq c)
      obtain ⟨names, hlist, hmem, hother⟩ :=
        exists_list?_of_holds hunique hdir hdown hall hholds hlength
      -- No other name in the directory fits, so the one on the way to the file is picked.
      have hpick : (t.disk.list? (done.foldl Path.join dir)).bind (pickName? component) =
          some met := by
        show (t.list? (done.foldl Path.join dir)).bind (pickName? component) = some met
        rw [hlist]
        exact pickName?_eq_some hmem hfold hother
      simp only [bind, hpick]
      have hdone' : ∀ c ∈ done ++ [met], IsName c := by
        intro c hc
        rcases List.mem_append.1 hc with hc | hc
        · exact hdone c hc
        · exact List.mem_singleton.1 hc ▸ hmet
      -- The name that was picked has been followed, too.
      have hnext := ih (done ++ [met]) hdone' hslash hrest hsame (by simp) (by simpa using hholds)
        (by simp)
      simpa using hnext

end Complete

/-! ## One directory -/

/-- The file that is found for a relative name in one directory. -/
def lookIn (t : FileTree) (relative dir : Text) : Option Text :=
  if t.isFile (Path.join dir relative) then some (Path.clean (Path.join dir relative))
  else findFolded t.disk dir (components relative)

/-- The search gives what the first directory gives that gives something. -/
theorem findIn_eq_findSome? (t : FileTree) (relative : Text) (dirs : List Text) :
    findIn t.disk relative dirs = dirs.findSome? (lookIn t relative) := by
  induction dirs with
  | nil => rfl
  | cons dir dirs ih =>
    rw [findIn, List.findSome?_cons, lookIn]
    show (bind (t.isFile (Path.join dir relative)) _ : Id (Option Text)) = _
    cases t.isFile (Path.join dir relative) with
    | true => rfl
    | false =>
      simp only [bind, Bool.false_eq_true, if_false]
      cases findFolded t.disk dir (components relative) with
      | some found => rfl
      | none => exact ih

/-- The names that a name to be searched for consists of. Backslashes count as slashes, and
components that go nowhere do not count. -/
def nameParts (name : Text) : List Text := named (components (withSlashes name))

/-- A relative name of at least one component that does not lead up. -/
structure Searchable (name : Text) : Prop where
  /-- It is relative. -/
  relative : isAbsolute (withSlashes name) = false
  /-- No component is for the directory above. -/
  down : Path.above ∉ components (withSlashes name)
  /-- It names something. -/
  nonempty : nameParts name ≠ []

/-- A path to search in: it is not empty and does not lead up. -/
structure IsSearchDirectory (dir : Text) : Prop where
  /-- It is not empty. -/
  nonempty : dir ≠ []
  /-- No component is for the directory above. -/
  down : Path.above ∉ components dir

section Directory

variable (hfree : DeviceFree t) (hname : Searchable name) (hdir : IsSearchDirectory dir)
include hname

theorem isName_of_mem_nameParts : ∀ c ∈ nameParts name, IsName c :=
  Path.isName_of_mem_named (fun _ => Path.slash_notMem_of_mem_components) hname.down

include hdir

theorem join_withSlashes : Path.join dir (withSlashes name) = below dir (nameParts name) :=
  Path.join_eq_below hdir.nonempty hname.relative hname.down

include hfree

/-- A file of the exact name is found. -/
theorem lookIn_of_holds (h : Holds t dir (nameParts name)) :
    lookIn t (withSlashes name) dir = some (below dir (nameParts name)) := by
  rw [lookIn, join_withSlashes hname hdir, if_pos ((isFile_iff hfree).2 h),
    Path.clean_below hdir.nonempty (isName_of_mem_nameParts hname)]

/-- What is found in a directory is the file of the exact name, or, where there is none, one of a
name that is the same but for letter case. -/
theorem exists_of_lookIn (h : lookIn t (withSlashes name) dir = some path) :
    ∃ q, SameButCase q (nameParts name) ∧ Holds t dir q ∧ path = below dir q ∧
      (Holds t dir (nameParts name) → q = nameParts name) ∧
      (q = nameParts name ∨ dir.length < FileTree.maxPathLength) := by
  by_cases hexact : Holds t dir (nameParts name)
  · rw [lookIn_of_holds hfree hname hdir hexact] at h
    exact ⟨nameParts name, .refl _, hexact, (Option.some.inj h).symm, fun _ => rfl, .inl rfl⟩
  rw [lookIn, join_withSlashes hname hdir, if_neg (mt (isFile_iff hfree).1 hexact)] at h
  obtain ⟨⟨q, hsame, hfile, rfl⟩, hlisted⟩ := exists_of_findFolded hname.down h
  obtain ⟨names, hlist⟩ := hlisted hname.nonempty
  have hq : ∀ c ∈ q, IsName c := hsame.isName (isName_of_mem_nameParts hname)
  have hne : q ≠ [] := hsame.ne_nil hname.nonempty
  rw [Path.foldl_join_eq_below hdir.nonempty hq hne] at hfile ⊢
  exact ⟨q, hsame, (isFile_iff hfree).1 hfile, Path.clean_below hdir.nonempty hq,
    fun h => absurd h hexact, .inr (FileTree.length_lt_of_list? hlist)⟩

/-- If names are never the same but for letter case, something is found in the directories that have
a file for the name. -/
theorem exists_lookIn_iff (hunique : Unambiguous t) :
    (∃ path, lookIn t (withSlashes name) dir = some path) ↔ Offers t dir (nameParts name) := by
  constructor
  · rintro ⟨path, h⟩
    obtain ⟨q, hsame, hholds, -, -, rfl | hlength⟩ := exists_of_lookIn hfree hname hdir h
    · exact .inl hholds
    · exact .inr ⟨hlength, q, hsame, hholds⟩
  · intro h
    by_cases hexact : Holds t dir (nameParts name)
    · exact ⟨_, lookIn_of_holds hfree hname hdir hexact⟩
    obtain ⟨hlength, q, hsame, hholds⟩ := h.resolve_left hexact
    have hne : q ≠ [] := hsame.ne_nil hname.nonempty
    rw [lookIn, join_withSlashes hname hdir, if_neg (mt (isFile_iff hfree).1 hexact)]
    exact ⟨_, findFolded_of_holds hunique hdir.nonempty hdir.down hfree [] (by simp)
      (fun _ => Path.slash_notMem_of_mem_components) hname.down hsame hne hholds fun _ => hlength⟩

end Directory

/-! ## The search -/

theorem find_eq_match (hname : Searchable name) (t : FileTree) (dirs : List Text) :
    find t.disk dirs name =
      match dirs.findSome? (lookIn t (withSlashes name)) with
      | some path => Except.ok path
      | none => Except.error (SearchFailure.notFound name dirs.length) := by
  rw [find, hname.relative, if_neg Bool.false_ne_true, findIn_eq_findSome?]
  simp only [bind]
  cases dirs.findSome? (lookIn t (withSlashes name)) <;> rfl

/-- The search for a relative name gives what is found in the first directory where something is
found. -/
theorem find_eq_ok_iff (hname : Searchable name) :
    find t.disk dirs name = .ok path ↔
      ∃ front dir back, dirs = front ++ dir :: back ∧
        lookIn t (withSlashes name) dir = some path ∧
        ∀ other ∈ front, lookIn t (withSlashes name) other = none := by
  rw [← List.findSome?_eq_some_iff, find_eq_match hname]
  cases dirs.findSome? (lookIn t (withSlashes name)) with
  | none => exact ⟨nofun, nofun⟩
  | some found =>
    exact ⟨fun h => congrArg some (Except.ok.inj h),
      fun h => congrArg Except.ok (Option.some.inj h)⟩

/-- The path of a regular file below a directory, under names that are the given ones but for letter
case. -/
def FileBelow (t : FileTree) (dir : Text) (names : List Text) (path : Text) : Prop :=
  ∃ q, SameButCase q names ∧ Holds t dir q ∧ path = below dir q

section Directories

variable (hfree : DeviceFree t) (hdirs : ∀ dir ∈ dirs, IsSearchDirectory dir)
  (hname : Searchable name)
include hfree hdirs hname

/-- What is found is a file below a directory, and exact names go first. -/
theorem exists_fileBelow_of_find (h : find t.disk dirs name = .ok path) :
    ∃ front dir back, dirs = front ++ dir :: back ∧ FileBelow t dir (nameParts name) path ∧
      (∀ other ∈ front, ¬ Holds t other (nameParts name)) ∧
      (Holds t dir (nameParts name) → path = below dir (nameParts name)) := by
  obtain ⟨front, dir, back, rfl, hlook, hfront⟩ := (find_eq_ok_iff hname).1 h
  obtain ⟨q, hsame, hholds, hpath, hexact, -⟩ :=
    exists_of_lookIn hfree hname (hdirs dir (by simp)) hlook
  refine ⟨front, dir, back, rfl, ⟨q, hsame, hholds, hpath⟩, fun other hother hheld => ?_,
    fun hheld => by rw [hpath, hexact hheld]⟩
  have hfound := lookIn_of_holds hfree hname (hdirs other (by simp [hother])) hheld
  rw [hfront other hother] at hfound
  cases hfound

variable (hunique : Unambiguous t)
include hunique

/-- What is found is in the first directory that has a file for the name. -/
theorem exists_offers_of_find (h : find t.disk dirs name = .ok path) :
    ∃ front dir back, dirs = front ++ dir :: back ∧ FileBelow t dir (nameParts name) path ∧
      Offers t dir (nameParts name) ∧ ∀ other ∈ front, ¬ Offers t other (nameParts name) := by
  obtain ⟨front, dir, back, rfl, hlook, hfront⟩ := (find_eq_ok_iff hname).1 h
  have hoffers {other : Text} (hother : other ∈ front ++ dir :: back) :=
    exists_lookIn_iff hfree hname (hdirs other hother) hunique
  obtain ⟨q, hsame, hholds, hpath, -⟩ :=
    exists_of_lookIn hfree hname (hdirs dir (by simp)) hlook
  refine ⟨front, dir, back, rfl, ⟨q, hsame, hholds, hpath⟩, (hoffers (by simp)).1 ⟨path, hlook⟩,
    fun other hother hoffered => ?_⟩
  obtain ⟨found, hfound⟩ := (hoffers (by simp [hother])).2 hoffered
  rw [hfront other hother] at hfound
  cases hfound

/-- Something is found if a directory has a file for the name. -/
theorem exists_find_of_offers {dir : Text} (hdir : dir ∈ dirs)
    (h : Offers t dir (nameParts name)) : ∃ path, find t.disk dirs name = .ok path := by
  obtain ⟨path, hlook⟩ := (exists_lookIn_iff hfree hname (hdirs dir hdir) hunique).2 h
  cases hfound : dirs.findSome? (lookIn t (withSlashes name)) with
  | none =>
    rw [List.findSome?_eq_none_iff.1 hfound dir hdir] at hlook
    cases hlook
  | some found =>
    refine ⟨found, ?_⟩
    rw [find_eq_match hname, hfound]

end Directories

/-- A search that fails says that there is no such file. -/
theorem isMissing_of_find (hname : Searchable name) {failure : SearchFailure}
    (h : find t.disk dirs name = .error failure) : failure.isMissing = true := by
  rw [find_eq_match hname] at h
  split at h
  · cases h
  · obtain rfl := Except.error.inj h
    rfl

/-- Headers in directories whose names are in mixed letter case. -/
def mixedTree : FileTree :=
  ((⟨[], []⟩ : FileTree).addFile [ascii "lib", ascii "sys", ascii "u.h"]
    (.file (ascii "u"))).addFile [ascii "inc", ascii "Sys", ascii "T.h"] (.file (ascii "t"))

/-- A directory that has no such file, and one with a component that goes nowhere. -/
def mixedDirectories : List Text := [ascii "lib", ascii "./inc/"]

/-- The path of a directory, made longer by components that go nowhere. -/
def dottedDirectory (count : Nat) : Text :=
  ascii "inc" ++ (List.replicate count (ascii "/.")).flatten

theorem components_dottedDirectory (count : Nat) :
    components (dottedDirectory count) = ascii "inc" :: List.replicate count Path.here := by
  induction count with
  | zero => decide
  | succ count ih =>
    have hlonger :
        dottedDirectory (count + 1) = dottedDirectory count ++ Byte.slash :: Path.here := by
      simp [dottedDirectory, List.replicate_succ', ascii, Path.here]
    rw [hlonger, components, Text.splitOn_append_sep, List.replicate_succ', ← List.cons_append,
      ← ih]
    rfl

theorem length_dottedDirectory (count : Nat) : (dottedDirectory count).length = 3 + 2 * count := by
  simp [dottedDirectory, ascii]
  omega

theorem isSearchDirectory_dottedDirectory (count : Nat) :
    IsSearchDirectory (dottedDirectory count) where
  nonempty := List.cons_ne_nil _ _
  down := by
    rw [components_dottedDirectory, List.mem_cons, List.mem_replicate]
    rintro (h | h)
    · exact absurd h (by decide)
    · exact absurd h.2 (by decide)

/-- What stands below the directory does not depend on how long its path is. -/
theorem below_dottedDirectory (count : Nat) (hq : ∀ c ∈ q, IsName c) :
    below (dottedDirectory count) q = below (dottedDirectory 0) q := by
  have hstack (count : Nat) : Path.stack (dottedDirectory count) = [ascii "inc"] := by
    rw [Path.stack_eq_named (isSearchDirectory_dottedDirectory count).down,
      components_dottedDirectory, Path.named_cons_of_named (by decide) (by decide)]
    have hnamed : named (List.replicate count Path.here) = [] := by simp [named]
    rw [hnamed]
    rfl
  have hroot : isAbsolute (dottedDirectory count) = false := rfl
  rw [Path.below_eq_render (isSearchDirectory_dottedDirectory count).nonempty hq,
    Path.below_eq_render (isSearchDirectory_dottedDirectory 0).nonempty hq, hstack, hstack, hroot]
  rfl

/-- A header in a directory. -/
def headerFile : FileTree :=
  (⟨[], []⟩ : FileTree).addFile [ascii "inc", ascii "a.h"] (.file (ascii "x"))

end HeaderMacros.Search
