import HeaderMacros.FileTree.Path
import HeaderMacros.Proofs.Text.Lines

/-!
# Cleaned paths

A cleaned path is known by two things: whether it starts at the root, and its components. Cleaning
changes neither (`isAbsolute_clean`, `stack_clean`), and a path below another one has the components
of both, cleaned together (`stack_join`).

As long as a path does not lead out of the directory that it starts in, its own cleaned components
come after those of the directory (`foldl_cleanStep_append`).
-/

namespace HeaderMacros.Path

variable {rooted : Bool} {done : List Text} {component : Text}

/-- The cleaned components of a path, the last one first. -/
def stack (path : Text) : List Text := (components path).foldl (cleanStep (isAbsolute path)) []

/-- The path of cleaned components, the last of which comes first. -/
def render (rooted : Bool) (done : List Text) : Text :=
  let cleaned := Text.join [Byte.slash] done.reverse
  if rooted then Byte.slash :: cleaned else if cleaned = [] then here else cleaned

theorem clean_eq_render (path : Text) : clean path = render (isAbsolute path) (stack path) := rfl

/-! ## One component -/

theorem cleanStep_of_skipped (h : component = [] ∨ component = here) :
    cleanStep rooted done component = done := if_pos h

theorem cleanStep_of_named (hempty : component ≠ []) (hhere : component ≠ here)
    (habove : component ≠ above) : cleanStep rooted done component = component :: done := by
  unfold cleanStep
  rw [if_neg (not_or.2 ⟨hempty, hhere⟩), if_neg habove]

theorem cleanStep_above_cons (last : Text) (rest : List Text) :
    cleanStep rooted (last :: rest) above = if last = above then above :: last :: rest else rest :=
  rfl

/-- Components that name something are kept. -/
theorem foldl_cleanStep_of_named {names : List Text}
    (h : ∀ c ∈ names, c ≠ [] ∧ c ≠ here ∧ c ≠ above) :
    names.foldl (cleanStep rooted) done = names.reverse ++ done := by
  induction names generalizing done with
  | nil => rfl
  | cons name names ih =>
    obtain ⟨⟨hempty, hhere, habove⟩, hrest⟩ := List.forall_mem_cons.1 h
    rw [List.foldl_cons, cleanStep_of_named hempty hhere habove, ih hrest, List.reverse_cons,
      List.append_assoc, List.singleton_append]

/-- Components that are cleaned: each can stand in a cleaned path, and cleaning them once more
changes nothing. -/
structure Cleaned (rooted : Bool) (done : List Text) : Prop where
  /-- No component is empty. -/
  nonempty : [] ∉ done
  /-- No component stands for the directory itself. -/
  moves : here ∉ done
  /-- No component has a slash. -/
  unsplit : ∀ c ∈ done, Byte.slash ∉ c
  /-- Cleaning changes nothing. -/
  stable : done.reverse.foldl (cleanStep rooted) [] = done

theorem Cleaned.nil : Cleaned rooted [] := ⟨nofun, nofun, nofun, rfl⟩

theorem Cleaned.cons (h : Cleaned rooted done) (hempty : component ≠ []) (hhere : component ≠ here)
    (hslash : Byte.slash ∉ component)
    (hstep : cleanStep rooted done component = component :: done) :
    Cleaned rooted (component :: done) where
  nonempty := by simpa [hempty.symm] using h.nonempty
  moves := by simpa [hhere.symm] using h.moves
  unsplit := List.forall_mem_cons.2 ⟨hslash, h.unsplit⟩
  stable := by
    rw [List.reverse_cons, List.foldl_append, h.stable]
    exact hstep

/-- A component that is not for the directory above is taken off again. -/
theorem Cleaned.tail {last : Text} (h : Cleaned rooted (last :: done)) (hlast : last ≠ above) :
    Cleaned rooted done where
  nonempty := fun hmem => h.nonempty (List.mem_cons_of_mem last hmem)
  moves := fun hmem => h.moves (List.mem_cons_of_mem last hmem)
  unsplit := (List.forall_mem_cons.1 h.unsplit).2
  stable := by
    have hstable := h.stable
    have hempty : last ≠ [] := fun heq => h.nonempty (heq ▸ List.mem_cons_self)
    have hhere : last ≠ here := fun heq => h.moves (heq ▸ List.mem_cons_self)
    rw [List.reverse_cons, List.foldl_append, List.foldl_cons, List.foldl_nil,
      cleanStep_of_named hempty hhere hlast] at hstable
    exact (List.cons.inj hstable).2

theorem Cleaned.step (h : Cleaned rooted done) (hslash : Byte.slash ∉ component) :
    Cleaned rooted (cleanStep rooted done component) := by
  by_cases hskipped : component = [] ∨ component = here
  · rwa [cleanStep_of_skipped hskipped]
  obtain ⟨hempty, hhere⟩ := not_or.1 hskipped
  by_cases habove : component = above
  · -- It takes off a component; where there is none, it is kept unless the path starts at the root.
    subst habove
    cases done with
    | nil =>
      cases rooted with
      | true => exact Cleaned.nil
      | false => exact Cleaned.nil.cons hempty hhere hslash rfl
    | cons last rest =>
      by_cases hlast : last = above
      · subst hlast
        exact h.cons hempty hhere hslash rfl
      · rw [cleanStep_above_cons, if_neg hlast]
        exact h.tail hlast
  · rw [cleanStep_of_named hempty hhere habove]
    exact h.cons hempty hhere hslash (cleanStep_of_named hempty hhere habove)

theorem Cleaned.foldl (h : Cleaned rooted done) {names : List Text}
    (hnames : ∀ c ∈ names, Byte.slash ∉ c) :
    Cleaned rooted (names.foldl (cleanStep rooted) done) := by
  induction names generalizing done with
  | nil => exact h
  | cons name names ih =>
    obtain ⟨hname, hrest⟩ := List.forall_mem_cons.1 hnames
    exact ih (h.step hname) hrest

/-! ## Cleaning a path -/

/-- No component has a slash. -/
theorem slash_notMem_of_mem_components {path : Text} (h : component ∈ components path) :
    Byte.slash ∉ component :=
  Text.notMem_of_mem_splitOn h

theorem cleaned_stack (path : Text) : Cleaned (isAbsolute path) (stack path) :=
  Cleaned.nil.foldl fun _ => slash_notMem_of_mem_components

theorem Cleaned.components_join (h : Cleaned rooted done) (hdone : done ≠ []) :
    components (Text.join [Byte.slash] done.reverse) = done.reverse := by
  refine Text.splitOn_join (mt List.reverse_eq_nil_iff.1 hdone) fun c hc => ?_
  exact h.unsplit c (List.mem_reverse.1 hc)

/-- Cleaned components that are put together to nothing are none. -/
theorem Cleaned.eq_nil_of_join (h : Cleaned rooted done)
    (hjoin : Text.join [Byte.slash] done.reverse = []) : done = [] := by
  refine Classical.byContradiction fun hdone => ?_
  have hcomponents := h.components_join hdone
  rw [hjoin] at hcomponents
  have hmem : [] ∈ done.reverse := hcomponents ▸ List.mem_cons_self
  exact h.nonempty (List.mem_reverse.1 hmem)

/-- A path of components starts with the first one, which has no slash. -/
theorem Cleaned.isAbsolute_join (h : Cleaned rooted done) :
    isAbsolute (Text.join [Byte.slash] done.reverse) = false := by
  refine Bool.eq_false_iff.2 fun habsolute => ?_
  rw [isAbsolute, beq_iff_eq, List.head?_eq_some_iff] at habsolute
  obtain ⟨rest, hrest⟩ := habsolute
  have hdone : done ≠ [] := by
    rintro rfl
    cases hrest
  have hcomponents := h.components_join hdone
  rw [hrest, components, Text.splitOn, if_pos rfl] at hcomponents
  have hmem : [] ∈ done.reverse := hcomponents ▸ List.mem_cons_self
  exact h.nonempty (List.mem_reverse.1 hmem)

theorem Cleaned.isAbsolute_render (h : Cleaned rooted done) :
    isAbsolute (render rooted done) = rooted := by
  cases rooted with
  | true => rfl
  | false =>
    rw [render]
    simp only [Bool.false_eq_true, if_false]
    split
    · rfl
    · exact h.isAbsolute_join

theorem Cleaned.stack_render (h : Cleaned rooted done) : stack (render rooted done) = done := by
  rw [stack, h.isAbsolute_render]
  by_cases hdone : done = []
  · subst hdone
    cases rooted <;> rfl
  · have hjoin : Text.join [Byte.slash] done.reverse ≠ [] := mt h.eq_nil_of_join hdone
    cases rooted with
    | true =>
      -- The slash in front adds an empty component, which is skipped.
      rw [render, if_pos rfl, components, Text.splitOn, if_pos rfl, List.foldl_cons,
        cleanStep_of_skipped (Or.inl rfl)]
      exact (congrArg _ (h.components_join hdone)).trans h.stable
    | false =>
      rw [render]
      simp only [Bool.false_eq_true, if_false, if_neg hjoin]
      rw [h.components_join hdone, h.stable]

/-- Cleaning does not change whether a path starts at the root. -/
theorem isAbsolute_clean (path : Text) : isAbsolute (clean path) = isAbsolute path := by
  rw [clean_eq_render, (cleaned_stack path).isAbsolute_render]

/-- Cleaning does not change the cleaned components. -/
theorem stack_clean (path : Text) : stack (clean path) = stack path := by
  rw [clean_eq_render, (cleaned_stack path).stack_render]

/-! ## Paths below a directory -/

theorem isAbsolute_join (dir : Text) {rest : Text} (h : isAbsolute rest = false) :
    isAbsolute (join dir rest) = isAbsolute dir := by
  rw [join]
  cases dir with
  | nil =>
    split
    · split
      · rfl
      · rw [isAbsolute_clean, h]
        rfl
    · contradiction
  | cons b dir =>
    rw [if_neg (List.cons_ne_nil b dir), isAbsolute_clean]
    rfl

/-- A path below another one has the components of both, cleaned together. -/
theorem stack_join (dir : Text) {rest : Text} (h : isAbsolute rest = false) :
    stack (join dir rest) = (components rest).foldl (cleanStep (isAbsolute dir)) (stack dir) := by
  rw [join]
  by_cases hdir : dir = []
  · subst hdir
    rw [if_pos rfl]
    split
    · subst rest
      rfl
    · rw [stack_clean, stack, h]
      rfl
  · rw [if_neg hdir, stack_clean, stack, stack, components, Text.splitOn_append_sep,
      List.foldl_append]
    have hsame : isAbsolute (dir ++ Byte.slash :: rest) = isAbsolute dir := by
      cases dir with
      | nil => exact absurd rfl hdir
      | cons b dir => rfl
    rw [hsame]
    rfl

/-- Once some components lead out of the directory that they start in, it stays to be seen. -/
theorem above_mem_foldl (h : above ∈ done) (names : List Text) :
    above ∈ names.foldl (cleanStep rooted) done := by
  induction names generalizing done with
  | nil => exact h
  | cons name names ih =>
    refine ih ?_
    by_cases hskipped : name = [] ∨ name = here
    · rwa [cleanStep_of_skipped hskipped]
    obtain ⟨hempty, hhere⟩ := not_or.1 hskipped
    by_cases habove : name = above
    · -- Only a component other than this one is ever taken off.
      subst habove
      cases done with
      | nil => cases h
      | cons last rest =>
        rw [cleanStep_above_cons]
        split
        · exact List.mem_cons_self
        · rename_i hlast
          exact (List.mem_cons.1 h).resolve_left (Ne.symm hlast)
    · rw [cleanStep_of_named hempty hhere habove]
      exact List.mem_cons_of_mem name h

/-- As long as some components do not lead out of the directory that they start in, they are cleaned
for themselves and come after those of the directory. -/
theorem foldl_cleanStep_append {names : List Text} (h : above ∉ names.foldl (cleanStep false) done)
    (outer : List Text) :
    names.foldl (cleanStep rooted) (done ++ outer) =
      names.foldl (cleanStep false) done ++ outer := by
  -- The components of the directory stay at the end, as long as no step has to look at them.
  induction names generalizing done with
  | nil => rfl
  | cons name names ih =>
    have hstep : cleanStep rooted (done ++ outer) name = cleanStep false done name ++ outer := by
      by_cases hskipped : name = [] ∨ name = here
      · rw [cleanStep_of_skipped hskipped, cleanStep_of_skipped hskipped]
      obtain ⟨hempty, hhere⟩ := not_or.1 hskipped
      by_cases habove : name = above
      · subst habove
        cases done with
        | nil => exact absurd (above_mem_foldl List.mem_cons_self names) h
        | cons last rest =>
          have hlast : last ≠ above := by
            rintro rfl
            exact h (above_mem_foldl List.mem_cons_self (above :: names))
          rw [List.cons_append, cleanStep_above_cons, cleanStep_above_cons, if_neg hlast,
            if_neg hlast]
      · rw [cleanStep_of_named hempty hhere habove, cleanStep_of_named hempty hhere habove]
        rfl
    rw [List.foldl_cons, List.foldl_cons, hstep]
    exact ih h

end HeaderMacros.Path
