import HeaderMacros.FileTree.Basic
import Mathlib.Tactic.SplitIfs

/-!
# Writing a file

Writing a file changes what stands in its place and nothing else (`get?_put_of_ne`), and the file
can be read back under the path that it was written to (`read_put_of_target`): a path leads through
directories only, and no directory is ever written to.
-/

namespace HeaderMacros.FileTree

variable {t : FileTree} {place other : List Text}

/-! ## Entries -/

theorem lookup_filter_of_ne (entries : List (List Text × FileEntry)) (h : other ≠ place) :
    (entries.filter fun e => e.1 != place).lookup other = entries.lookup other := by
  induction entries with
  | nil => rfl
  | cons e rest ih =>
    obtain ⟨name, entry⟩ := e
    by_cases hname : name = place
    · -- An entry that is dropped is not the one looked for.
      have hother : (other == name) = false := beq_eq_false_iff_ne.2 (hname ▸ h)
      rw [List.filter_cons_of_neg (by simpa using hname), ih, List.lookup_cons, hother]
    · rw [List.filter_cons_of_pos (by simpa using hname), List.lookup_cons, List.lookup_cons, ih]

/-- What is put in a place stands there. -/
theorem get?_put_self (h : place ≠ []) (t : FileTree) (entry : FileEntry) :
    (t.put place entry).get? place = some entry := by
  rw [get?, if_neg h, put, List.lookup_cons_self]

/-- Everything else is as before. -/
theorem get?_put_of_ne (h : other ≠ place) (t : FileTree) (entry : FileEntry) :
    (t.put place entry).get? other = t.get? other := by
  have hother : (other == place) = false := beq_eq_false_iff_ne.2 h
  rw [get?, get?, put, List.lookup_cons, hother]
  dsimp only
  rw [lookup_filter_of_ne t.entries h]

/-! ## Paths -/

/-- A directory stands in a place. -/
def HasDirectory (t : FileTree) (place : List Text) : Prop :=
  (t.get? place).any FileEntry.isDirectory = true

theorem hasDirectory_iff :
    t.HasDirectory place ↔ ¬ (!((t.get? place).any FileEntry.isDirectory)) = true := by
  rw [HasDirectory, Bool.not_eq_true', Bool.not_eq_false]

theorem hasDirectory_nil (t : FileTree) : t.HasDirectory [] := rfl

/-- A place without a directory has a name. -/
theorem ne_nil_of_not_hasDirectory (h : ¬ t.HasDirectory place) : place ≠ [] := by
  rintro rfl
  exact h t.hasDirectory_nil

/-- A directory stays where it is when another place is written to. -/
theorem HasDirectory.put (h : t.HasDirectory other) (hplace : ¬ t.HasDirectory place)
    (entry : FileEntry) : (t.put place entry).HasDirectory other := by
  have hne : other ≠ place := by
    rintro rfl
    exact hplace h
  rw [HasDirectory, get?_put_of_ne hne]
  exact h

theorem walk_append (t : FileTree) (place : List Text) (front rest : List Text) :
    t.walk place (front ++ rest) = (t.walk place front).bind fun found => t.walk found rest := by
  induction front generalizing place with
  | nil => rfl
  | cons component front ih =>
    rw [List.cons_append, walk, walk]
    split_ifs
    · rfl
    · exact ih place
    · exact ih place.dropLast
    · rfl
    · rfl
    · exact ih (place ++ [component])

/-- What stands in a place is still there when something is written. -/
theorem isNone_put (hplace : place ≠ []) (entry : FileEntry)
    (h : ¬ (t.get? other).isNone = true) : ¬ ((t.put place entry).get? other).isNone = true := by
  by_cases hother : other = place
  · rw [hother, get?_put_self hplace]
    exact Bool.false_ne_true
  · rwa [get?_put_of_ne hother]

/-- A path leads through directories, so it leads to the same place after something else was
written. -/
theorem walk_put {origin found : List Text} {parts : List Text} (hplace : ¬ t.HasDirectory place)
    (entry : FileEntry) (h : t.walk origin parts = .ok found) :
    (t.put place entry).walk origin parts = .ok found := by
  induction parts generalizing origin with
  | nil => exact h
  | cons component parts ih =>
    -- A step starts from a directory and leads to something that is there, before and after.
    rw [walk] at h ⊢
    split_ifs at h with hfile hskip habove hlong hmissing
    all_goals rw [if_neg (hasDirectory_iff.1 ((hasDirectory_iff.2 hfile).put hplace entry))]
    · rw [if_pos hskip, ih h]
    · rw [if_neg hskip, if_pos habove, ih h]
    · have hmissing' := isNone_put (ne_nil_of_not_hasDirectory hplace) entry hmissing
      rw [if_neg hskip, if_neg habove, if_neg hlong, if_neg hmissing', ih h]

/-- The place of a file that is to be written is named by the last component of its path, in the
directory that the other components lead to. -/
theorem target_eq_ok {path : Text} (h : t.target path = .ok place) :
    pathReason? path = none ∧ ∃ directory front last, place = directory ++ [last] ∧
      Path.components path = front ++ [last] ∧ t.walk (t.start path) front = .ok directory ∧
      t.HasDirectory directory ∧ last ≠ [] ∧ last ≠ Path.here ∧ last ≠ Path.above ∧
      ¬ maxComponentLength < last.length := by
  unfold target at h
  split at h
  · cases h
  rename_i hpath
  refine ⟨hpath, ?_⟩
  dsimp only at h
  split at h
  · cases h
  rename_i last front hparts
  cases hwalk : t.walk (t.start path) front.reverse with
  | error reason =>
    rw [hwalk] at h
    cases h
  | ok directory =>
    rw [hwalk] at h
    change (if _ then _ else _) = _ at h
    split_ifs at h with hfile hlast hlong
    cases h
    rw [not_or, not_or] at hlast
    obtain ⟨hslash, hhere, habove⟩ := hlast
    -- No slash ends the path, so no component was dropped before the last one.
    rw [← List.head?_reverse] at hslash
    cases hreverse : (Path.components path).reverse with
    | nil =>
      rw [hreverse] at hparts
      cases hparts
    | cons final others =>
      rw [hreverse, List.head?_cons, Option.some.injEq] at hslash
      rw [hreverse, List.dropWhile_cons_of_neg (by simpa using hslash)] at hparts
      obtain ⟨rfl, rfl⟩ := List.cons.inj hparts
      have hcomponents : Path.components path = others.reverse ++ [final] := by
        rw [← List.reverse_reverse (Path.components path), hreverse, List.reverse_cons]
      exact ⟨directory, others.reverse, final, rfl, hcomponents, hwalk, hasDirectory_iff.2 hfile,
        hslash, hhere, habove, hlong⟩

/-- A file that was written is found under its path. -/
theorem read_put_of_target {path : Text} (htarget : t.target path = .ok place)
    (hplace : ¬ t.HasDirectory place) (content : Text) :
    (t.put place (.file content)).read path = .ok content := by
  obtain ⟨hpath, directory, front, last, rfl, hcomponents, hwalk, hdirectory, hempty, hhere, habove,
    hlong⟩ := target_eq_ok htarget
  -- The directory is found as before, and the new file is found in it.
  generalize hnext : t.put (directory ++ [last]) (.file content) = next
  have hget : next.get? (directory ++ [last]) = some (.file content) := by
    rw [← hnext, get?_put_self (ne_nil_of_not_hasDirectory hplace)]
  have hlast : next.walk directory [last] = .ok (directory ++ [last]) := by
    have hthere : next.HasDirectory directory := hnext ▸ hdirectory.put hplace (.file content)
    rw [walk, if_neg (hasDirectory_iff.1 hthere), if_neg (not_or.2 ⟨hempty, hhere⟩), if_neg habove,
      if_neg hlong, hget, Option.isNone_some, if_neg Bool.false_ne_true, walk]
  have hlocate : next.locate path = .ok (directory ++ [last]) := by
    have hfront : next.walk (t.start path) front = .ok directory :=
      hnext ▸ walk_put hplace (.file content) hwalk
    have hstart : next.start path = t.start path := by rw [← hnext, start, start, put]
    rw [locate, hpath]
    dsimp only
    rw [hstart, hcomponents, walk_append, hfront]
    exact hlast
  have hstat : next.stat path = .ok (.file content) := by
    simp only [stat, hlocate, bind, Except.bind, hget]
  rw [read, hstat]

/-! ## Files -/

/-- A device: what is written to it is not kept. -/
def IsDevice (t : FileTree) (place : List Text) : Prop :=
  t.get? place = some .sink ∨ t.get? place = some .fullDevice

/-- What has changed when a text was written to a path. -/
structure Written (t : FileTree) (path content : Text) (place : List Text) (next : FileTree) :
    Prop where
  /-- The path names a place. -/
  target : t.target path = .ok place
  /-- No other place has changed. -/
  others : ∀ other ≠ place, next.get? other = t.get? other
  /-- The working directory is the same. -/
  workingDirectory : next.workingDirectory = t.workingDirectory
  /-- The place has a file with this content and no other, unless it is a device. -/
  file : ¬ t.IsDevice place → next.get? place = some (.file content)
  /-- The file is found under its path. -/
  read : ¬ t.IsDevice place → next.read path = .ok content
  /-- A device stays what it is. -/
  device : t.IsDevice place → next = t

/-- A path under which a text can be written: a file can be created or emptied there, and has room
for the text. -/
def Takes (t : FileTree) (path content : Text) : Prop :=
  ∃ place, t.target path = .ok place ∧ t.get? place ≠ some .directory ∧
    (t.get? place = some .fullDevice → content = [])

/-- Writing where there is room changes one file and nothing else. -/
theorem exists_written_of_write {path content : Text} {next : FileTree}
    (h : t.write path content = .ok next) : ∃ place, t.Written path content place next := by
  unfold write at h
  split at h
  · cases h
  rename_i place htarget
  -- A device takes what is written to it and leaves the tree as it is.
  have hdevice (hget : t.IsDevice place) : t.Written path content place t :=
    ⟨htarget, fun _ _ => rfl, rfl, fun hnot => absurd hget hnot, fun hnot => absurd hget hnot,
      fun _ => rfl⟩
  refine ⟨place, ?_⟩
  split at h
  · cases h
  · rename_i hsink
    cases h
    exact hdevice (.inl hsink)
  · rename_i hfull
    split_ifs at h
    cases h
    exact hdevice (.inr hfull)
  · -- What is left is a place where nothing stands, or a regular file.
    rename_i hdirectory hsink hfull
    cases h
    have hplace : ¬ t.HasDirectory place := by
      intro hthere
      unfold HasDirectory at hthere
      cases hget : t.get? place with
      | none => rw [hget] at hthere; cases hthere
      | some entry =>
        cases entry with
        | directory => exact hdirectory hget
        | file _ | sink | fullDevice => rw [hget] at hthere; cases hthere
    exact {
      target := htarget
      others := fun other hother => get?_put_of_ne hother t _
      workingDirectory := rfl
      file := fun _ => get?_put_self (ne_nil_of_not_hasDirectory hplace) t _
      read := fun _ => read_put_of_target htarget hplace content
      device := fun hget => absurd hget (not_or.2 ⟨hsink, hfull⟩) }

/-- Writing succeeds where there is room. -/
theorem exists_write_of_takes {path content : Text} (h : t.Takes path content) :
    ∃ next, t.write path content = .ok next := by
  obtain ⟨place, htarget, hdirectory, hroom⟩ := h
  unfold write
  rw [htarget]
  dsimp only
  split
  · rename_i hget
    exact absurd hget hdirectory
  · exact ⟨t, rfl⟩
  · rename_i hget
    exact ⟨t, if_pos (hroom hget)⟩
  · exact ⟨_, rfl⟩

end HeaderMacros.FileTree
