import HeaderMacros.Proofs.Macro.Definition
import HeaderMacros.Proofs.Run.Invariant

/-!
# Reading a harvest back

The macros of a run all come from definitions, on its lines or given beforehand, so all of them are
recordable (`Table.tableInvariant_recordable`), and what a run harvests can be written and read back
(`read_write_of_run`).
-/

namespace HeaderMacros

/-- Every macro of a table is recordable. -/
def Table.Recordable (t : Table) : Prop := ∀ d ∈ t.macros, d.Recordable

/-- Lines keep all macros of a table recordable. -/
theorem Table.tableInvariant_recordable : TableInvariant Table.Recordable :=
  TableInvariant.forall_macros Macro.recordable_of_ofTokens

/-- What a run harvests can be written and read back, if no record is too long to be read and the
macros given beforehand are spelled on one line each: whatever the document, the files behind its
includes and the resolver that finds them, reading gives the same macros in the same order, except
that empty parentheses are forgotten. -/
theorem read_write_of_run {m : Type → Type} [Monad m] [LawfulMonad m]
    (resolver : Option (Resolver m)) (depth : Nat) (predefined : List Macro)
    (hpredefined : ∀ d ∈ predefined,
      ∃ option, Byte.newline ∉ option ∧ Macro.ofOption option = .ok d)
    (text : Text) :
    SatisfiesM
      (fun out => out.fault = none →
        (∀ d ∈ out.state.macros.macros, d.record.length ≤ 65535) →
        Report.read (Report.write out.state.macros.macros) =
          .ok (out.state.macros.macros.map Macro.readBack))
      (run resolver depth predefined text) := by
  have hinitial : (Table.ofList predefined).Recordable := by
    refine Table.forall_macros_ofList fun d hd => ?_
    obtain ⟨option, hnewline, hoption⟩ := hpredefined d hd
    exact Macro.recordable_of_ofOption hnewline hoption
  have hrun := Table.tableInvariant_recordable.satisfiesM_run resolver depth hinitial text
  exact hrun.imp fun hout _ hlen => Report.read_write hout fun d hd => Nat.lt_succ_of_le (hlen d hd)

/-- A document that includes one file, with one macro given beforehand. -/
def includingOutcome : Id Outcome :=
  run (some (FileSet.resolver [(ascii "a.h", ascii "#define F(x, ...) x + 1")])) 2
    [⟨ascii "A", none, [Token.word "1"]⟩] (ascii "#include <a.h>\n#define E() ")

/-- Its harvest is read back, `E` without its parentheses. -/
theorem read_write_of_run_include :
    Report.read (Report.write includingOutcome.state.macros.macros) =
      .ok [⟨ascii "A", none, [Token.word "1"]⟩,
        ⟨ascii "F", some [ascii "x", ascii "..."],
          [Token.word "x", Token.blank, Token.operator "+", Token.blank, Token.word "1"]⟩,
        ⟨ascii "E", none, []⟩] := by
  have hpredefined : ∀ d ∈ [(⟨ascii "A", none, [Token.word "1"]⟩ : Macro)],
      ∃ option, Byte.newline ∉ option ∧ Macro.ofOption option = .ok d := by
    intro d hd
    rw [List.mem_singleton.1 hd]
    refine ⟨ascii "A=1", by decide, ?_⟩
    have hoption : (Macro.ofOption (ascii "A=1")).toOption =
      some ⟨ascii "A", none, [Token.word "1"]⟩ := by decide +kernel
    cases hm : Macro.ofOption (ascii "A=1") with
    | error c => rw [hm] at hoption; cases hoption
    | ok m => rw [hm] at hoption; cases hoption; rfl
  have hread := SatisfiesM_Id_eq.1 (read_write_of_run (m := Id)
    (some (FileSet.resolver [(ascii "a.h", ascii "#define F(x, ...) x + 1")])) 2 _ hpredefined
    (ascii "#include <a.h>\n#define E() "))
  refine (hread ?_ ?_).trans (congrArg Except.ok ?_)
  all_goals decide +kernel

end HeaderMacros
