import HeaderMacros.Proofs.Text.Lines
import HeaderMacros.Run.Process
import Mathlib

/-!
# Invariants of the macro table

A line changes the macro table in two ways only: it defines a macro, which its tokens spell, or it
removes one (`RunState.macros_of_readLine`). A property of tables that both keep is therefore kept
by a whole run, with all files that it includes and whatever resolver it asks
(`TableInvariant.satisfiesM_run`).
-/

namespace HeaderMacros

/-! ## One line -/

namespace RunState

/-- Directives for groups do not touch the macros. -/
theorem macros_of_followGroup {s next : RunState} {d : GroupDirective} {params : List Token}
    (h : s.followGroup d params = .ok next) : next.macros = s.macros := by
  have hopen {condition : List Token} (h : s.openGroup condition = .ok next) :
      next.macros = s.macros := by
    unfold openGroup at h
    split at h
    · cases hv : s.evaluate condition with
      | error c => rw [hv] at h; cases h
      | ok v => rw [hv] at h; cases h; rfl
    · cases h
      rfl
  have hnext {condition : List Token} (h : s.nextBranch condition = .ok next) :
      next.macros = s.macros := by
    unfold nextBranch at h
    split at h
    · cases h
    · cases h
      rfl
    · cases hv : s.evaluate condition with
      | error c => rw [hv] at h; cases h
      | ok v => rw [hv] at h; cases h; rfl
  have hgroups {groups : Except Cause Groups}
      (h : (groups.map fun g => { s with groups := g }) = .ok next) : next.macros = s.macros := by
    cases groups with
    | error c => cases h
    | ok g => cases h; rfl
  -- One case for each directive, and one more where `ifdef` or `ifndef` lacks its name.
  unfold followGroup at h
  split at h
  · cases h
  · exact hopen h
  · cases h
  · exact hopen h
  · exact hopen h
  · exact hnext h
  · exact hgroups h
  · exact hgroups h

/-- Directives in active text define a macro, remove one, or do not touch the macros. -/
theorem macros_of_followActive {s next : RunState} {d : Directive}
    (h : s.followActive d = .ok (.proceed next)) :
    next.macros = s.macros ∨ (∃ m, Macro.ofTokens d.params = .ok m ∧
      next.macros = s.macros.define m) ∨ ∃ name, next.macros = s.macros.undefine name := by
  unfold followActive at h
  split at h
  · cases hm : Macro.ofTokens d.params with
    | error c => rw [hm] at h; cases h
    | ok m => rw [hm] at h; cases h; exact .inr (.inl ⟨m, rfl, rfl⟩)
  split at h
  · cases hname : undefinedName d.params with
    | error c => rw [hname] at h; cases h
    | ok name => rw [hname] at h; cases h; exact .inr (.inr ⟨name, rfl⟩)
  split at h
  · cases hrequest : Include.ofTokens d.params with
    | error c => rw [hrequest] at h; cases h
    | ok request => rw [hrequest] at h; cases h
  · cases h
    exact .inl rfl

/-- A line defines the macro that its tokens spell, removes a macro, or does not touch the
macros. -/
theorem macros_of_readLine {s next : RunState} {text : Text}
    (h : s.readLine text = .ok (.proceed next)) :
    next.macros = s.macros ∨ (∃ d m, Directive.ofTokens? (Token.tokenize text) = some d ∧
      Macro.ofTokens d.params = .ok m ∧ next.macros = s.macros.define m) ∨
      ∃ name, next.macros = s.macros.undefine name := by
  unfold readLine at h
  split at h
  · cases h
    exact .inl rfl
  split at h
  · rename_i d hd
    unfold follow at h
    split at h
    · cases h
      exact .inl rfl
    split at h
    · rename_i g hg
      -- Directives about groups leave the macros alone.
      cases hgroup : s.followGroup g d.params with
      | error c => rw [hgroup] at h; cases h
      | ok next' => rw [hgroup] at h; cases h; exact .inl (macros_of_followGroup hgroup)
    · split at h
      · rcases macros_of_followActive h with hsame | ⟨m, hm, hdefine⟩ | hundefine
        · exact .inl hsame
        · exact .inr (.inl ⟨d, m, hd, hm, hdefine⟩)
        · exact .inr (.inr hundefine)
      · cases h
        exact .inl rfl
  · cases h
    left
    unfold keepCode
    split <;> rfl

end RunState

/-! ## One operation on a table -/

namespace Table

theorem mem_define {t : Table} {d m : Macro} (h : d ∈ (t.define m).macros) :
    d = m ∨ d ∈ t.macros := by
  rw [mem_macros, entries_define] at h
  split at h
  · exact .inl (Option.some.inj h).symm
  · exact .inr (mem_macros.2 h)

theorem mem_undefine {t : Table} {d : Macro} {name : Text} (h : d ∈ (t.undefine name).macros) :
    d ∈ t.macros := by
  rw [mem_macros, entries_undefine] at h
  split at h
  · cases h
  · exact mem_macros.2 h

/-- What holds of all macros that are defined holds of those of the table. -/
theorem forall_macros_ofList {P : Macro → Prop} {ms : List Macro} (h : ∀ m ∈ ms, P m) :
    ∀ d ∈ (ofList ms).macros, P d := by
  have hfold {t : Table} (ht : ∀ d ∈ t.macros, P d) : ∀ d ∈ (ms.foldl define t).macros, P d := by
    induction ms generalizing t with
    | nil => exact ht
    | cons m ms ih =>
      obtain ⟨hm, hms⟩ := List.forall_mem_cons.1 h
      refine ih hms fun d hd => ?_
      rcases mem_define hd with rfl | hd
      · exact hm
      · exact ht d hd
  exact hfold fun d hd => absurd hd List.not_mem_nil

end Table

/-! ## Whole runs -/

/-- A property of tables that every line keeps: it survives the definition of a macro that a line
spells, and the removal of a macro. -/
structure TableInvariant (P : Table → Prop) : Prop where
  /-- Defining keeps the property. -/
  define : ∀ {line : Text} {d : Directive} {m : Macro} {t : Table}, Byte.newline ∉ line →
    Directive.ofTokens? (Token.tokenize line) = some d → Macro.ofTokens d.params = .ok m → P t →
    P (t.define m)
  /-- Removing keeps the property. -/
  undefine : ∀ {t : Table} (name : Text), P t → P (t.undefine name)

namespace TableInvariant

/-- Lines keep a property of all macros, if every macro that a line spells has it. -/
theorem forall_macros {P : Macro → Prop}
    (hP : ∀ {line : Text} {d : Directive} {m : Macro}, Byte.newline ∉ line →
      Directive.ofTokens? (Token.tokenize line) = some d → Macro.ofTokens d.params = .ok m → P m) :
    TableInvariant fun t => ∀ d ∈ t.macros, P d where
  define hline hd hm ht d hmem := by
    rcases Table.mem_define hmem with rfl | hmem
    · exact hP hline hd hm
    · exact ht d hmem
  undefine name ht d hd := ht d (Table.mem_undefine hd)

variable {P : Table → Prop} {m : Type → Type} [Monad m] [LawfulMonad m]

/-- A line keeps the property. -/
theorem readLine (hP : TableInvariant P) {s next : RunState} {text : Text}
    (htext : Byte.newline ∉ text) (hs : P s.macros) (h : s.readLine text = .ok (.proceed next)) :
    P next.macros := by
  rcases RunState.macros_of_readLine h with hsame | ⟨d, m, hd, hm, hdefine⟩ | ⟨name, hundefine⟩
  · rwa [hsame]
  · rw [hdefine]
    exact hP.define htext hd hm hs
  · rw [hundefine]
    exact hP.undefine name hs

/-- Following an include keeps the property, if reading the text behind it does. -/
theorem satisfiesM_enter {process : RunState → Text → m Outcome}
    (hprocess : ∀ s text, P s.macros → SatisfiesM (fun out => P out.state.macros) (process s text))
    (resolver : Option (Resolver m)) {s : RunState} (hs : P s.macros) (request : Include) :
    SatisfiesM (fun out => P out.state.macros) (RunState.enter resolver process s request) := by
  unfold RunState.enter
  dsimp only
  split
  · exact SatisfiesM.pure hs
  split
  · exact SatisfiesM.pure hs
  · -- Nothing is known of what the resolver answers, and nothing need be.
    refine SatisfiesM.bind SatisfiesM.trivial fun answer _ => ?_
    split
    · exact SatisfiesM.pure hs
    · exact SatisfiesM.bind (hprocess _ _ hs) fun out hout => SatisfiesM.pure hout

/-- Lines keep the property, if following an include does. -/
theorem satisfiesM_readLines (hP : TableInvariant P) {enter : RunState → Include → m Outcome}
    (henter : ∀ s request, P s.macros →
      SatisfiesM (fun out => P out.state.macros) (enter s request))
    {texts : List Text} (htexts : ∀ text ∈ texts, Byte.newline ∉ text) {s : RunState}
    (hs : P s.macros) (number : Nat) :
    SatisfiesM (fun out => P out.state.macros) (RunState.readLines enter s number texts) := by
  induction texts generalizing s number with
  | nil => exact SatisfiesM.pure hs
  | cons text texts ih =>
    have hrest {s : RunState} (hs : P s.macros) (number : Nat) :=
      ih (fun other hother => htexts other (List.mem_cons_of_mem text hother)) hs number
    rw [RunState.readLines]
    split
    · exact SatisfiesM.pure hs
    · rename_i next hread
      -- Reading a line starts from its number, which the macros do not depend on.
      have hnext : P next.macros :=
        hP.readLine (s := { s with line := number }) (htexts text List.mem_cons_self) hs hread
      exact hrest hnext _
    · refine SatisfiesM.bind (henter _ _ hs) fun out hout => ?_
      split
      · exact SatisfiesM.pure hout
      · exact hrest hout _

/-- Reading a text with all its includes keeps the property. -/
theorem satisfiesM_process (hP : TableInvariant P) (resolver : Option (Resolver m)) (depth : Nat)
    {s : RunState} (hs : P s.macros) (text : Text) :
    SatisfiesM (fun out => P out.state.macros) (s.process resolver depth text) := by
  -- The files that a text includes are read with one level less.
  induction depth generalizing s text with
  | zero => exact SatisfiesM.pure hs
  | succ depth ih =>
    rw [RunState.process]
    split
    · exact SatisfiesM.pure hs
    · refine hP.satisfiesM_readLines (fun s request hs => ?_) (fun line hline => ?_) hs 1
      · exact satisfiesM_enter (fun s text hs => ih hs text) resolver hs request
      · exact Text.notMem_of_mem_splitOn hline

/-- A run keeps the property of the macros that are defined beforehand. -/
theorem satisfiesM_run (hP : TableInvariant P) (resolver : Option (Resolver m)) (depth : Nat)
    {predefined : List Macro} (hs : P (Table.ofList predefined)) (text : Text) :
    SatisfiesM (fun out => P out.state.macros) (run resolver depth predefined text) := by
  refine SatisfiesM.bind (hP.satisfiesM_process resolver depth hs text) fun out hout => ?_
  refine SatisfiesM.pure ?_
  unfold Outcome.close
  split <;> exact hout

end TableInvariant

end HeaderMacros
