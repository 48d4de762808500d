import HeaderMacros.Harvest
import HeaderMacros.Proofs.Run.Termination
import HeaderMacros.Proofs.Search.FoundOnce
import HeaderMacros.Proofs.Search.Ordered
import HeaderMacros.Proofs.Source.Placement

/-!
# Includes from a tree of files

A name that is searched for may lead to a file in ever more spellings, so the names under which a
tree has files are not finitely many. Those that are ever searched for are: each is spelled by a
line of the document or of a file (`includeOf?`), and the line decides it, whatever the state is in
which the line is read.

* `FileTree.confined_resolver`: the includes of a document are confined to these names.
* `FileTree.run_nestingBound`: there are fewer of them than the nesting bound, so that it is never
  reached.
* `harvestText_nestingBound`: neither is it in harvests.
-/

namespace HeaderMacros

/-! ## The include on a line -/

/-- The include that a line spells, if it spells one. -/
def includeOf? (line : Text) : Option Include := do
  let d ← Directive.ofTokens? (Token.tokenize line)
  if d.name = ascii "include" then (Include.ofTokens d.params).toOption else none

theorem includeOf?_nil : includeOf? [] = none := by
  simp [includeOf?, Token.tokenize, Directive.ofTokens?]

/-- What a line asks for is the include that it spells, in every state. -/
theorem includeOf?_of_readLine {s : RunState} {line : Text} {request : Include}
    (h : s.readLine line = .ok (.enter request)) : includeOf? line = some request := by
  -- What only changes the state asks for no file.
  have hmap {x : Except Cause RunState} : x.map .proceed ≠ .ok (RunState.Action.enter request) := by
    cases x <;> exact nofun
  rw [RunState.readLine] at h
  split_ifs at h
  · cases h
  split at h
  · rename_i d hd
    rw [includeOf?, hd, Option.bind_eq_bind, Option.bind_some]
    rw [RunState.follow] at h
    split at h
    · cases h
    split at h
    · exact absurd h hmap
    split at h
    · -- Of all that is followed in active text, an include alone asks for a file.
      unfold RunState.followActive at h
      split_ifs at h with _ _ hname
      · cases hm : Macro.ofTokens d.params <;> rw [hm] at h <;> cases h
      · cases hundef : RunState.undefinedName d.params <;> rw [hundef] at h <;> cases h
      · rw [if_pos hname]
        cases hrequest : Include.ofTokens d.params with
        | error cause => rw [hrequest] at h; cases h
        | ok found => rw [hrequest] at h; cases h; rfl
      · cases h
    · cases h
  · cases h

/-! ## The names in a text -/

/-- The names of the files that the lines of a text include, in lower case. -/
def includedNames (text : Text) : List Text :=
  match Source.normalize text with
  | .error _ => []
  | .ok normalized => ((Text.lines normalized).filterMap includeOf?).map Include.key

/-- There are no more names than lines, because normalizing keeps the number of lines. -/
theorem length_includedNames_le (text : Text) :
    (includedNames text).length ≤ (Text.lines text).length := by
  rw [includedNames]
  cases hnormalize : Source.normalize text with
  | error line => exact Nat.zero_le _
  | ok normalized =>
    have hnewlines := (Source.keepsPlaces_splice text).newlines_eq normalized hnormalize
    have hlines : (Text.lines normalized).length = (Text.lines text).length := by
      rw [Text.lines, Text.lines, Text.length_splitOn, Text.length_splitOn]
      exact congrArg (· + 1) hnewlines
    dsimp only
    rw [List.length_map, ← hlines]
    exact List.length_filterMap_le _ _

namespace FileTree

/-! ## The names in a tree -/

/-- What is read from a tree is nothing, from a device, or the content of a file. -/
theorem mem_contents_of_read {t : FileTree} {path text : Text} (h : t.read path = .ok text) :
    text = [] ∨ text ∈ t.contents := by
  rw [read] at h
  split at h
  · cases h
  · cases h
  · rename_i content hstat
    obtain rfl : content = text := Except.ok.inj h
    obtain ⟨place, -, hentry⟩ := Search.stat_eq_ok_iff.1 hstat
    -- The root is a directory, so the file has an entry.
    have hplace : place ≠ [] := by
      rintro rfl
      cases hentry
    exact .inr (List.mem_filterMap.2 ⟨_, exists_mem_entries hplace hentry, rfl⟩)
  · exact .inl (Except.ok.inj h).symm
  · exact .inl (Except.ok.inj h).symm

/-- The texts that a document may include: itself, the contents of the files, and nothing. -/
def Includable (t : FileTree) (root text : Text) : Prop :=
  text = [] ∨ text ∈ root :: t.contents

/-- The names that a document and the files include, in lower case. -/
def names (t : FileTree) (root : Text) : Finset Text :=
  ((root :: t.contents).flatMap includedNames).toFinset

theorem card_names_lt (t : FileTree) (root : Text) : (t.names root).card < t.nestingBound root := by
  -- The bound counts the lines of the texts one after the other, with one to spare.
  have hsum (texts : List Text) (n : Nat) :
      (texts.flatMap includedNames).length + n ≤
        texts.foldl (fun n text => n + (Text.lines text).length) n := by
    induction texts generalizing n with
    | nil => simp
    | cons text texts ih =>
      have hnames := length_includedNames_le text
      have hrest := ih (n + (Text.lines text).length)
      rw [List.flatMap_cons, List.length_append, List.foldl_cons]
      omega
  have hcard := List.toFinset_card_le ((root :: t.contents).flatMap includedNames)
  exact Nat.lt_of_le_of_lt hcard (hsum (root :: t.contents) 1)

/-- A search through directories of a tree confines the includes of a document to the names that the
document and the files spell. -/
theorem confined_resolver (t : FileTree) (dirs : List Text) (root : Text) :
    Confined (t.Includable root) (t.names root) (some (Search.resolver t.disk dirs)) := by
  intro resolve hresolve request
  obtain rfl := Option.some.inj hresolve
  apply SatisfiesM_Id_eq.2
  intro text htext hincluded
  constructor
  · obtain ⟨path, -, hread⟩ := Search.exists_find_of_resolve htext
    exact (mem_contents_of_read hread).imp_right (List.mem_cons_of_mem root)
  · obtain ⟨line, ⟨source, normalized, hsource, hnormalize, hline⟩, here, hread⟩ := hincluded
    have hspelled := includeOf?_of_readLine hread
    rcases hsource with rfl | hsource
    · -- Nothing has one line only, which spells no include.
      have hnothing : Source.normalize [] = .ok [] := by decide +kernel
      cases hnothing.symm.trans hnormalize
      obtain rfl := List.mem_singleton.1 hline
      rw [includeOf?_nil] at hspelled
      cases hspelled
    · refine List.mem_toFinset.2 (List.mem_flatMap.2 ⟨source, hsource, ?_⟩)
      rw [includedNames, hnormalize]
      exact List.mem_map_of_mem (List.mem_filterMap.2 ⟨line, hline, hspelled⟩)

/-- Includes from a tree of files never reach its nesting bound: no run is cut short there, and a
greater depth comes to the same. -/
theorem run_nestingBound (t : FileTree) (dirs : List Text) {depth : Nat} {text : Text}
    (hdepth : t.nestingBound text ≤ depth) (predefined : List Macro) :
    run (some (Search.resolver t.disk dirs)) depth predefined text =
        run (some (Search.resolver t.disk dirs)) (t.nestingBound text) predefined text ∧
      ¬ (Id.run (run (some (Search.resolver t.disk dirs)) depth predefined text)).CutShort := by
  have hbound := t.card_names_lt text
  have hruns := run_of_confined (t.confined_resolver dirs text) (hbound.trans_le hdepth) hbound
    predefined text (.inr List.mem_cons_self)
  exact ⟨hruns.1, (SatisfiesM_Id_eq (p := fun out : Outcome => ¬ out.CutShort)).1 hruns.2⟩

end FileTree

/-! ## Harvests -/

/-- A harvest fails because of nested includes only if its run is cut short. -/
theorem Harvest.cutShort_of_macros {out : Outcome} {place : Position}
    (h : (Harvest.ofOutcome out).macros = .error (.fault ⟨place, .nestedTooDeeply⟩)) :
    out.CutShort := by
  rw [ofOutcome] at h
  cases hfault : out.fault with
  | none =>
    simp only [hfault] at h
    cases h
  | some f =>
    simp only [hfault] at h
    cases h
    exact ⟨place, hfault⟩

/-- A harvest from a tree of files never reaches its nesting bound: it does not fail there because of
nested includes, and a greater depth comes to the same. -/
theorem harvestText_nestingBound (t : FileTree) (options : HarvestOptions) {depth : Nat}
    {text : Text} (hdepth : t.nestingBound text ≤ depth) :
    harvestText t.disk depth options text =
        harvestText t.disk (t.nestingBound text) options text ∧
      ∀ place, (Id.run (harvestText t.disk depth options text)).macros ≠
        .error (.fault ⟨place, .nestedTooDeeply⟩) := by
  rw [harvestText, harvestText, harvestWith, harvestWith]
  cases hdefines : predefined options.defines with
  | error bad => exact ⟨rfl, fun place => nofun⟩
  | ok macros =>
    obtain ⟨hsame, hends⟩ := t.run_nestingBound options.includeDirs hdepth macros
    dsimp only
    exact ⟨by rw [hsame], fun place hmacros => hends (Harvest.cutShort_of_macros hmacros)⟩

end HeaderMacros
