import HeaderMacros.CommandLine.Plan
import HeaderMacros.Proofs.FileTree.Writing
import HeaderMacros.Proofs.Search.Nesting

/-!
# What the command line leaves behind

A command that fails leaves nothing behind, and one that succeeds leaves the records of the harvest
in one place (`run_leaves_behind`).

* `InEffect`: the settings in effect, in layers.
* `Yields`: the records that settings lead to.
* `Delivered`: where the records are found afterwards.

The bound on nested includes has no part in this: with the bound of the tree no harvest fails because
of it, and any greater one leads to the same plan (`plan_nestingBound`).
-/

namespace HeaderMacros.CommandLine

variable {formats : Settings.Formats} {tree : FileTree} {e : Settings.Environment}
  {arguments : List Text} {s : Settings} {records : Text}

/-! ## Settings in effect -/

/-- The settings in a file, if one is named. -/
def Loads (formats : Settings.Formats) (tree : FileTree) (path : Text) (loaded : Settings) : Prop :=
  if path = [] then loaded = Settings.empty
  else Id.run (Settings.load tree.disk path formats) = .ok loaded

/-- Settings in layers: those of a file, then those of the environment, then those of the arguments.
Lists are put together in this order; in other values the arguments have the last word. -/
def layers (formats : Settings.Formats) (loaded : Settings) (e : Settings.Environment)
    (flags : Shell.Flags) (a : Arguments) : Settings where
  includeDirs := loaded.includeDirs ++ Search.directories e.searchList ++ flags.dirs ++ a.dirs
  includePathsFile :=
    if a.includePathsFile = [] then loaded.includePathsFile else a.includePathsFile
  headers := if a.headers = [] then loaded.headers else a.headers
  defines := loaded.defines ++ flags.defines ++ a.defines
  nameStart := if a.nameStart = [] then loaded.nameStart else a.nameStart
  output := if a.output = [] then loaded.output else a.output
  verbose := loaded.verbose || formats.isYes e.verbose || a.verbose

/-- The settings in effect: the arguments are understood, the settings file is read, and so are the
flags of the environment. -/
inductive InEffect (formats : Settings.Formats) (tree : FileTree) (e : Settings.Environment)
    (arguments : List Text) : Settings → Prop where
  /-- All three are put together. -/
  | layered {a : Arguments} {loaded : Settings} {flags : Shell.Flags}
    (hparse : Arguments.parse arguments = .ok a)
    (hloaded : Loads formats tree a.settingsFile loaded)
    (hflags : e.parsedFlags formats = .ok flags) :
    InEffect formats tree e arguments (layers formats loaded e flags a)

/-- With flags that are read, the plan goes on with the layers put together. -/
theorem planFrom_of_parsedFlags {flags : Shell.Flags} (hflags : e.parsedFlags formats = .ok flags)
    (disk : Disk Id) (depth : Text → Nat) (a : Arguments) (loaded : Settings) :
    planFrom disk depth e a loaded formats =
      if (layers formats loaded e flags a).headers = [] then pure (.stop usageCode usage)
      else planHarvest disk depth (layers formats loaded e flags a) := by
  -- The flags are read, so the environment is added without a failure.
  have hlayers :
      withArguments (loaded.applyEnvironment e formats).1 a = layers formats loaded e flags a := by
    simp only [Settings.applyEnvironment, hflags, withArguments, Settings.extend, layers,
      List.append_nil]
  have hnone : (loaded.applyEnvironment e formats).2 = none := by
    rw [Settings.applyEnvironment, hflags]
  rw [planFrom]
  split
  · rename_i failure hfailure
    rw [hfailure] at hnone
    cases hnone
  · rename_i layered hlayered
    rw [hlayered] at hlayers
    dsimp only at hlayers ⊢
    rw [hlayers]

/-- With arguments that are understood, the plan goes on from the settings file. -/
theorem plan_of_parse {a : Arguments} (hparse : Arguments.parse arguments = .ok a)
    {loaded : Settings} (hloaded : Loads formats tree a.settingsFile loaded)
    (depth : Text → Nat) :
    plan tree.disk depth e arguments formats = planFrom tree.disk depth e a loaded formats := by
  rw [plan, hparse]
  dsimp only
  rw [Loads] at hloaded
  split_ifs at hloaded ⊢
  · rw [hloaded]
  · have hload : Settings.load tree.disk a.settingsFile formats = pure (.ok loaded) := hloaded
    rw [hload, pure_bind]

/-- The plan goes on with the settings in effect. -/
theorem plan_of_inEffect (h : InEffect formats tree e arguments s) (depth : Text → Nat) :
    plan tree.disk depth e arguments formats =
      if s.headers = [] then pure (.stop usageCode usage) else planHarvest tree.disk depth s := by
  cases h with
  | layered hparse hloaded hflags =>
    rw [plan_of_parse hparse hloaded, planFrom_of_parsedFlags hflags]

/-- The plan is to stop with a code that tells of a failure. -/
def Stops (p : Id Plan) : Prop := ∃ code message, code ≠ successCode ∧ p = pure (.stop code message)

/-- A settings file that cannot be read is a reason to stop. -/
theorem loads_or_stops {a : Arguments} (hparse : Arguments.parse arguments = .ok a)
    (formats : Settings.Formats) (tree : FileTree) (depth : Text → Nat)
    (e : Settings.Environment) :
    (∃ loaded, Loads formats tree a.settingsFile loaded) ∨
      Stops (plan tree.disk depth e arguments formats) := by
  by_cases hfile : a.settingsFile = []
  · exact .inl ⟨Settings.empty, by rw [Loads, if_pos hfile]⟩
  · cases hload : Id.run (Settings.load tree.disk a.settingsFile formats) with
    | ok loaded => exact .inl ⟨loaded, by rw [Loads, if_neg hfile, hload]⟩
    | error failure =>
      have hload' : Settings.load tree.disk a.settingsFile formats = pure (.error failure) := hload
      refine .inr ⟨failureCode, messageLine failure.message, by decide, ?_⟩
      rw [plan, hparse]
      dsimp only
      rw [if_neg hfile, hload', pure_bind]

/-- Where no settings are in effect, the plan is to stop. -/
theorem inEffect_or_stops (formats : Settings.Formats) (tree : FileTree) (depth : Text → Nat)
    (e : Settings.Environment) (arguments : List Text) :
    (∃ s, InEffect formats tree e arguments s) ∨
      Stops (plan tree.disk depth e arguments formats) := by
  -- One case for each layer that can fail: the arguments, the file, the flags.
  cases hparse : Arguments.parse arguments with
  | error failure =>
    refine .inr ⟨usageCode, failure.message ++ usage, by decide, ?_⟩
    rw [plan, hparse]
  | ok a =>
    rcases loads_or_stops hparse formats tree depth e with ⟨loaded, hloaded⟩ | hstops
    · cases hflags : e.parsedFlags formats with
      | error failure =>
        refine .inr ⟨failureCode, messageLine (Settings.environmentFailure failure), by decide, ?_⟩
        rw [plan_of_parse hparse hloaded, planFrom, Settings.applyEnvironment, hflags]
      | ok flags => exact .inl ⟨_, .layered hparse hloaded hflags⟩
    · exact .inr hstops

/-! ## Nested includes -/

/-- The plan that settings lead to is the same with any greater depths. -/
theorem planHarvest_nestingBound {depth : Text → Nat}
    (hdepth : ∀ root, tree.nestingBound root ≤ depth root) (s : Settings) :
    planHarvest tree.disk depth s = planHarvest tree.disk tree.nestingBound s := by
  rw [planHarvest, planHarvest]
  -- The search list is read in the same way; what depends on the depth is the harvest.
  congr 1
  funext searched
  cases searched with
  | error failure => rfl
  | ok dirs =>
    have hharvest := (harvestText_nestingBound tree ⟨dirs, s.defines⟩
      (hdepth (Report.rootDocument s.headers))).1
    dsimp only
    rw [hharvest]

/-- The plan that arguments lead to is the same with any greater depths. -/
theorem plan_nestingBound {depth : Text → Nat}
    (hdepth : ∀ root, tree.nestingBound root ≤ depth root) (formats : Settings.Formats)
    (e : Settings.Environment) (arguments : List Text) :
    plan tree.disk depth e arguments formats =
      plan tree.disk tree.nestingBound e arguments formats := by
  have hfrom (a : Arguments) (loaded : Settings) :
      planFrom tree.disk depth e a loaded formats =
        planFrom tree.disk tree.nestingBound e a loaded formats := by
    simp only [planFrom, planHarvest_nestingBound hdepth]
  simp only [plan, hfrom]

/-! ## Records -/

/-- The harvest of the headers that are set, with some directories to search. -/
def harvested (tree : FileTree) (s : Settings) (dirs : List Text) : Harvest :=
  Id.run (harvest tree.disk (tree.nestingBound (Report.rootDocument s.headers)) ⟨dirs, s.defines⟩
    s.headers)

/-- No harvest fails because of nested includes. -/
theorem harvested_macros_ne (tree : FileTree) (s : Settings) (dirs : List Text)
    (place : Position) :
    (harvested tree s dirs).macros ≠ .error (.fault ⟨place, .nestedTooDeeply⟩) :=
  (harvestText_nestingBound tree ⟨dirs, s.defines⟩ (Nat.le_refl _)).2 place

/-- The records that settings lead to: there are headers, the search list is read, the headers are
harvested, and of the macros at the end those are written whose name starts as is asked for. -/
def Yields (tree : FileTree) (s : Settings) (records : Text) : Prop :=
  s.headers ≠ [] ∧ ∃ dirs macros, Id.run (s.searchDirs tree.disk) = .ok dirs ∧
    (harvested tree s dirs).macros = .ok macros ∧
    -- The order of the macros is that of the harvest.
    records = Report.write (if s.nameStart = [] then macros
      else macros.filter fun d => Text.startsWith s.nameStart d.name)

/-- Every name starts with nothing. -/
theorem withPrefix_eq (start : Text) (macros : List Macro) :
    Report.withPrefix start macros = if start = [] then macros
      else macros.filter fun d => Text.startsWith start d.name := by
  split_ifs with hstart
  · rw [hstart]
    exact List.filter_eq_self.2 fun d _ => rfl
  · rfl

theorem planHarvest_of_searchDirs {dirs : List Text}
    (hdirs : Id.run (s.searchDirs tree.disk) = .ok dirs) :
    planHarvest tree.disk tree.nestingBound s = pure (planOf s (harvested tree s dirs)) := by
  have hdirs' : s.searchDirs tree.disk = pure (.ok dirs) := hdirs
  rw [planHarvest, hdirs', pure_bind]
  rfl

/-- Settings that lead to records lead to a plan to deliver them. -/
theorem planHarvest_of_yields (h : Yields tree s records) :
    ∃ notes, planHarvest tree.disk tree.nestingBound s =
      pure (.deliver notes s.output records) := by
  obtain ⟨-, dirs, macros, hdirs, hmacros, rfl⟩ := h
  rw [planHarvest_of_searchDirs hdirs, planOf, hmacros, ← withPrefix_eq]
  exact ⟨_, rfl⟩

/-- Where settings lead to no records, the plan is to stop. -/
theorem yields_or_stops (tree : FileTree) (hheaders : s.headers ≠ []) :
    (∃ records, Yields tree s records) ∨ Stops (planHarvest tree.disk tree.nestingBound s) := by
  cases hdirs : Id.run (s.searchDirs tree.disk) with
  | error failure =>
    have hdirs' : s.searchDirs tree.disk = pure (.error failure) := hdirs
    refine .inr ⟨failureCode, messageLine (Search.directoriesFailure failure), by decide, ?_⟩
    rw [planHarvest, hdirs', pure_bind]
  | ok dirs =>
    cases hmacros : (harvested tree s dirs).macros with
    | error failure =>
      rw [planHarvest_of_searchDirs hdirs, planOf, hmacros]
      exact .inr ⟨failureCode, _, by decide, rfl⟩
    | ok macros => exact .inl ⟨_, hheaders, dirs, macros, hdirs, hmacros, rfl⟩

/-! ## The whole command -/

/-- The settings in effect and their records decide the plan. -/
theorem plan_of_yields (hs : InEffect formats tree e arguments s)
    (hrecords : Yields tree s records) :
    ∃ notes, plan tree.disk tree.nestingBound e arguments formats =
      pure (.deliver notes s.output records) := by
  rw [plan_of_inEffect hs, if_neg hrecords.1]
  exact planHarvest_of_yields hrecords

/-- A plan that is not to stop comes from settings in effect and their records. -/
theorem exists_yields_or_stops (formats : Settings.Formats) (tree : FileTree)
    (e : Settings.Environment) (arguments : List Text) :
    (∃ s records, InEffect formats tree e arguments s ∧ Yields tree s records) ∨
      Stops (plan tree.disk tree.nestingBound e arguments formats) := by
  rcases inEffect_or_stops formats tree tree.nestingBound e arguments with ⟨s, hs⟩ | hstops
  · rw [plan_of_inEffect hs]
    split_ifs with hheaders
    · exact .inr ⟨usageCode, usage, by decide, rfl⟩
    · rcases yields_or_stops tree hheaders with ⟨records, hrecords⟩ | hstops
      · exact .inl ⟨s, records, hs, hrecords⟩
      · exact .inr hstops
  · exact .inr hstops

/-- Where records are found after a command: in the output file, which is the only place that has
changed, or in the standard output if no file is set. -/
def Delivered (tree : FileTree) (output records : Text) (result : Result) : Prop :=
  if output = [] then result.output = records ∧ result.tree = tree
  else result.output = [] ∧ ∃ place, tree.Written output records place result.tree

/-- Nothing is found after a command. -/
def LeavesNothing (tree : FileTree) (result : Result) : Prop :=
  result.output = [] ∧ result.tree = tree

/-- A plan to stop is carried out by telling the message. -/
theorem leavesNothing_of_stops
    (h : Stops (plan tree.disk tree.nestingBound e arguments formats)) :
    (run tree e arguments formats).code ≠ successCode ∧
      LeavesNothing tree (run tree e arguments formats) := by
  obtain ⟨code, message, hcode, hplan⟩ := h
  rw [run, hplan]
  exact ⟨hcode, rfl, rfl⟩

/-- Records are delivered, or the file for them cannot be written and nothing is left behind. -/
theorem carryOut_deliver (tree : FileTree) (notes output records : Text) :
    (((Plan.deliver notes output records).carryOut tree).code = successCode ∧
      Delivered tree output records ((Plan.deliver notes output records).carryOut tree)) ∨
    (((Plan.deliver notes output records).carryOut tree).code ≠ successCode ∧
      LeavesNothing tree ((Plan.deliver notes output records).carryOut tree) ∧
      output ≠ [] ∧ ¬ tree.Takes output records) := by
  rw [Plan.carryOut, Delivered]
  split_ifs with houtput
  · exact .inl ⟨rfl, rfl, rfl⟩
  · cases hwrite : tree.write output records with
    | ok next => exact .inl ⟨rfl, rfl, FileTree.exists_written_of_write hwrite⟩
    | error failure =>
      -- The file is opened last, so that nothing else has been done by then.
      refine .inr ⟨(by decide : failureCode ≠ successCode), ⟨rfl, rfl⟩, houtput, fun htakes => ?_⟩
      obtain ⟨next, hnext⟩ := FileTree.exists_write_of_takes htakes
      rw [hwrite] at hnext
      cases hnext

/-- Records that settings in effect lead to are delivered, unless there is no room for them. -/
theorem run_of_yields (hs : InEffect formats tree e arguments s)
    (hrecords : Yields tree s records) :
    ((run tree e arguments formats).code = successCode ∧
      Delivered tree s.output records (run tree e arguments formats)) ∨
    ((run tree e arguments formats).code ≠ successCode ∧
      LeavesNothing tree (run tree e arguments formats) ∧
      s.output ≠ [] ∧ ¬ tree.Takes s.output records) := by
  obtain ⟨notes, hplan⟩ := plan_of_yields hs hrecords
  rw [run, hplan]
  exact carryOut_deliver tree notes s.output records

/-- What a command leaves behind, whatever readers there are of the formats of settings. If it fails,
nothing: nothing is written to the standard output and every file is as before. If it succeeds, the
records of the macros that were harvested with the settings in effect, in the output file that is set
or else in the standard output, and nothing else. It does succeed if there are such records and the
file for them can be written. -/
theorem run_leaves_behind (formats : Settings.Formats) (tree : FileTree)
    (e : Settings.Environment) (arguments : List Text) :
    ((run tree e arguments formats).code ≠ 0 →
      LeavesNothing tree (run tree e arguments formats)) ∧
    ((run tree e arguments formats).code = 0 → ∃ s records,
      InEffect formats tree e arguments s ∧ Yields tree s records ∧
        Delivered tree s.output records (run tree e arguments formats)) ∧
    (∀ s records, InEffect formats tree e arguments s → Yields tree s records →
      (s.output ≠ [] → tree.Takes s.output records) →
      (run tree e arguments formats).code = 0) := by
  refine ⟨?_, ?_, ?_⟩
  · intro hcode
    rcases exists_yields_or_stops formats tree e arguments with ⟨s, records, hs, hrecords⟩ | hstops
    · rcases run_of_yields hs hrecords with ⟨hsuccess, -⟩ | ⟨-, hnothing, -⟩
      · exact absurd hsuccess hcode
      · exact hnothing
    · exact (leavesNothing_of_stops hstops).2
  · intro hcode
    rcases exists_yields_or_stops formats tree e arguments with ⟨s, records, hs, hrecords⟩ | hstops
    · rcases run_of_yields hs hrecords with ⟨-, hdelivered⟩ | ⟨hfailure, -⟩
      · exact ⟨s, records, hs, hrecords, hdelivered⟩
      · exact absurd hcode hfailure
    · exact absurd hcode (leavesNothing_of_stops hstops).1
  · intro s records hs hrecords htakes
    rcases run_of_yields hs hrecords with ⟨hsuccess, -⟩ | ⟨-, -, houtput, hfull⟩
    · exact hsuccess
    · exact absurd (htakes houtput) hfull

/-- A tree with a header, a header that is malformed, and a file of records from an earlier
command. -/
def earlierTree : FileTree :=
  (((⟨[], []⟩ : FileTree).addFile [ascii "a.h"] (.file (ascii "#define A 1\n#define B A"))).addFile
    [ascii "b.h"] (.file (ascii "#define B\n#endif"))).addFile
    [ascii "out"] (.file (ascii "earlier"))

/-- The arguments to write the records of one header to that file. -/
def replacing (header : String) : List Text :=
  ["-I", ".", "-prefix", "B", "-o", "out", header].map ascii

/-- The malformed header leaves the earlier records as they are; the other one takes their place. -/
theorem run_leaves_behind_replacing :
    ((run earlierTree ⟨[], [], []⟩ (replacing "b.h")).code = 1 ∧
      LeavesNothing earlierTree (run earlierTree ⟨[], [], []⟩ (replacing "b.h"))) ∧
    ((run earlierTree ⟨[], [], []⟩ (replacing "a.h")).code = 0 ∧
      (run earlierTree ⟨[], [], []⟩ (replacing "a.h")).tree.get? [ascii "out"] =
        some (.file (ascii "B\t\tA\n")) ∧
      ∃ s records, InEffect .standard earlierTree ⟨[], [], []⟩ (replacing "a.h") s ∧
        Yields earlierTree s records ∧
        Delivered earlierTree s.output records
          (run earlierTree ⟨[], [], []⟩ (replacing "a.h"))) := by
  have hfails : (run earlierTree ⟨[], [], []⟩ (replacing "b.h")).code = 1 := by decide +kernel
  have hsucceeds : (run earlierTree ⟨[], [], []⟩ (replacing "a.h")).code = 0 := by decide +kernel
  refine ⟨⟨hfails, (run_leaves_behind .standard _ _ _).1 ?_⟩, hsucceeds, by decide +kernel,
    (run_leaves_behind .standard _ _ _).2.1 hsucceeds⟩
  rw [hfails]
  decide

end HeaderMacros.CommandLine
