import HeaderMacros.Harvest
import HeaderMacros.Proofs.Macro.Definition
import HeaderMacros.Proofs.Run.Invariant

/-!
# One record, one line

Records are not escaped, so that a macro has a line of its own only if there is no newline in it. A
line of a document cannot put one in. An option can, inside the replacement: a harvest then writes
more lines than it has macros, and the lines are read back as other macros.

* `newlines_write_of_harvest`: a harvest writes one line for each macro and one more for each
  newline in a replacement; a macro with a newline in its replacement comes from an option, as it is
  spelled there. So there is one line for each macro unless an option has such a replacement.
* `not_lineEach_brokenDefine`: an option with such a replacement.
-/

namespace HeaderMacros

open Source (newlines)

/-! ## The lines of a record -/

theorem newlines_eq_zero_iff {text : Text} : newlines text = 0 ↔ Byte.newline ∉ text :=
  List.count_eq_zero

/-- Only the replacement of a macro can put a newline into its record. -/
def Macro.NamedOnLine (m : Macro) : Prop :=
  Byte.newline ∉ m.name ∧ Byte.newline ∉ Text.join [Byte.comma] (m.params.getD [])

theorem Macro.Recordable.namedOnLine {m : Macro} (h : m.Recordable) : m.NamedOnLine :=
  ⟨h.notMem_name (by decide), h.notMem_params (by decide) (by decide) (by decide)⟩

theorem Macro.namedOnLine_of_ofOption {option : Text} {m : Macro}
    (h : Macro.ofOption option = .ok m) : m.NamedOnLine := by
  obtain ⟨-, -, hparams, -, -, hbytes⟩ := Macro.ofOption_eq_ok h
  refine ⟨fun hmem => absurd (hbytes _ hmem) (by decide), ?_⟩
  rw [hparams]
  exact List.not_mem_nil

theorem Macro.NamedOnLine.newlines_record {m : Macro} (h : m.NamedOnLine) :
    newlines m.record = newlines (Tokens.text m.value) := by
  have hname : m.name.count Byte.newline = 0 := List.count_eq_zero.2 h.1
  have hparams : (Text.join [Byte.comma] (m.params.getD [])).count Byte.newline = 0 :=
    List.count_eq_zero.2 h.2
  rw [Macro.record, newlines, newlines, List.count_append, List.count_append,
    List.count_cons_of_ne (by decide), List.count_cons_of_ne (by decide), hname, hparams]
  omega

/-- Every macro is written with a newline after it and those of its replacement in it. -/
theorem Report.newlines_write {ms : List Macro} (h : ∀ m ∈ ms, m.NamedOnLine) :
    newlines (Report.write ms) =
      ms.length + (ms.map fun m => newlines (Tokens.text m.value)).sum := by
  induction ms with
  | nil => rfl
  | cons m ms ih =>
    obtain ⟨hm, hms⟩ := List.forall_mem_cons.1 h
    have hrecord := hm.newlines_record
    have hrest := ih hms
    rw [newlines] at hrecord hrest
    rw [Report.write, List.flatMap_cons, newlines, List.count_append, List.count_append, hrecord,
      ← Report.write, hrest, List.map_cons, List.sum_cons, List.length_cons,
      List.count_singleton_self]
    omega

/-! ## Where the macros of a harvest come from -/

/-- A macro that a line of a document can spell, or that one of the options defines. -/
def Macro.FromLineOr (defines : List Text) (m : Macro) : Prop :=
  m.Recordable ∨ ∃ option ∈ defines, Macro.ofOption option = .ok m

theorem mem_of_predefined {defines : List Text} {given : List Macro}
    (h : predefined defines = .ok given) :
    ∀ m ∈ given, ∃ option ∈ defines, Macro.ofOption option = .ok m := by
  unfold predefined at h
  dsimp only at h
  split at h
  · cases h
    intro m hm
    obtain ⟨⟨option, read⟩, hread, hsome⟩ := List.mem_filterMap.1 hm
    obtain ⟨other, hother, heq⟩ := List.mem_map.1 hread
    cases heq
    refine ⟨option, hother, ?_⟩
    cases hoption : Macro.ofOption option with
    | error cause => simp [hoption] at hsome
    | ok found => simpa [hoption] using hsome
  · cases h

/-- Every macro of a harvest is one that a line can spell or one that an option defines. -/
theorem satisfiesM_harvestWith {m : Type → Type} [Monad m] [LawfulMonad m]
    (resolver : Resolver m) (depth : Nat) (defines : List Text) (text : Text) :
    SatisfiesM (fun h : Harvest => ∀ ms, h.macros = .ok ms → ∀ d ∈ ms, d.FromLineOr defines)
      (harvestWith resolver depth defines text) := by
  unfold harvestWith
  split
  · exact SatisfiesM.pure fun ms h => nomatch h
  · rename_i given hgiven
    have hlines : TableInvariant fun t => ∀ d ∈ t.macros, d.FromLineOr defines :=
      TableInvariant.forall_macros fun hline hd hm =>
        .inl (Macro.recordable_of_ofTokens hline hd hm)
    have hinitial : ∀ d ∈ (Table.ofList given).macros, d.FromLineOr defines :=
      Table.forall_macros_ofList fun d hd => .inr (mem_of_predefined hgiven d hd)
    refine SatisfiesM.bind (hlines.satisfiesM_run (some resolver) depth hinitial text) ?_
    intro out hout
    refine SatisfiesM.pure fun ms hms => ?_
    rw [Harvest.ofOutcome] at hms
    cases hfault : out.fault with
    | some fault => simp [hfault] at hms
    | none =>
      simp only [hfault, Except.ok.injEq] at hms
      exact hms ▸ hout

/-- A harvest, whatever the document, the resolver and the options, writes one line for each macro
and one more for each newline inside a replacement. A macro with a newline in its replacement is one
that an option defines. So if no option defines such a macro, there are as many lines as macros. -/
theorem newlines_write_of_harvest {m : Type → Type} [Monad m] [LawfulMonad m]
    (resolver : Resolver m) (depth : Nat) (defines : List Text) (text : Text) :
    SatisfiesM
      (fun h : Harvest => ∀ ms, h.macros = .ok ms →
        newlines (Report.write ms) =
          ms.length + (ms.map fun d => newlines (Tokens.text d.value)).sum ∧
        (∀ d ∈ ms, Byte.newline ∈ Tokens.text d.value →
          ∃ option ∈ defines, Macro.ofOption option = .ok d) ∧
        ((∀ option ∈ defines, ∀ d, Macro.ofOption option = .ok d →
          Byte.newline ∉ Tokens.text d.value) → newlines (Report.write ms) = ms.length))
      (harvestWith resolver depth defines text) := by
  refine (satisfiesM_harvestWith resolver depth defines text).imp fun hfrom ms hms => ?_
  have hmacros := hfrom ms hms
  have hnamed : ∀ d ∈ ms, d.NamedOnLine := by
    intro d hd
    rcases hmacros d hd with hline | ⟨option, -, hoption⟩
    · exact hline.namedOnLine
    · exact Macro.namedOnLine_of_ofOption hoption
  have hcount := Report.newlines_write hnamed
  have hoptions : ∀ d ∈ ms, Byte.newline ∈ Tokens.text d.value →
      ∃ option ∈ defines, Macro.ofOption option = .ok d := by
    intro d hd hnewline
    -- A macro from a line has no newline in its replacement.
    exact (hmacros d hd).resolve_left fun hline => hline.newline_notMem_value hnewline
  refine ⟨hcount, hoptions, fun hdefines => ?_⟩
  have hzero : (ms.map fun d => newlines (Tokens.text d.value)).sum = 0 := by
    rw [List.sum_eq_zero_iff]
    intro n hn
    obtain ⟨d, hd, rfl⟩ := List.mem_map.1 hn
    rw [newlines_eq_zero_iff]
    intro hnewline
    obtain ⟨option, hoption, hmacro⟩ := hoptions d hd hnewline
    exact hdefines option hoption d hmacro hnewline
  rw [hcount, hzero, Nat.add_zero]

/-- A harvest of one definition, with an option that has a newline at the end of its replacement. -/
def plainHarvest : Id Harvest :=
  harvestWith (FileSet.resolver [(ascii "a.h", ascii "#define F(x) \\\n x")]) 2 [ascii "A=1 2 \n"]
    (ascii "#include <a.h>")

theorem newlines_write_of_harvest_plainHarvest :
    ∃ ms, plainHarvest.macros = .ok ms ∧ ms.length = 2 ∧ newlines (Report.write ms) = 2 := by
  have hmacros : plainHarvest.macros.toOption.map List.length = some 2 := by decide +kernel
  cases hms : plainHarvest.macros with
  | error failure => rw [hms] at hmacros; cases hmacros
  | ok ms =>
    rw [hms] at hmacros
    have hlength : ms.length = 2 := Option.some.inj hmacros
    have hharvest := SatisfiesM_Id_eq.1 (newlines_write_of_harvest (m := Id)
      (FileSet.resolver [(ascii "a.h", ascii "#define F(x) \\\n x")]) 2 [ascii "A=1 2 \n"]
      (ascii "#include <a.h>"))
    have hdefines : ∀ option ∈ [ascii "A=1 2 \n"], ∀ d, Macro.ofOption option = .ok d →
        Byte.newline ∉ Tokens.text d.value := by
      intro option hoption d hd
      rw [List.mem_singleton.1 hoption] at hd
      have hvalue : ((Macro.ofOption (ascii "A=1 2 \n")).toOption.map
          fun d => Tokens.text d.value) = some (ascii "1 2") := by decide +kernel
      rw [hd] at hvalue
      have htext : Tokens.text d.value = ascii "1 2" := Option.some.inj hvalue
      rw [htext]
      decide
    exact ⟨ms, rfl, hlength, ((hharvest ms hms).2.2 hdefines).trans hlength⟩

/-- An option with a newline inside its replacement gives one macro on two lines, which are read
back as two macros. -/
theorem not_lineEach_brokenDefine :
    ∃ ms, (harvestWith (m := Id) (FileSet.resolver []) 1 [ascii "A=1\nB\t\t2"] []).macros = .ok ms ∧
      ms.length = 1 ∧ newlines (Report.write ms) = 2 ∧
      Report.read (Report.write ms) =
        .ok [⟨ascii "A", none, [.word "1"]⟩, ⟨ascii "B", none, [.word "2"]⟩] := by
  refine ⟨[⟨ascii "A", none, [.word "1", ⟨.space, [Byte.newline]⟩, .word "B",
    ⟨.space, [Byte.tab, Byte.tab]⟩, .word "2"]⟩], ?_, ?_, ?_, ?_⟩
  all_goals decide +kernel

end HeaderMacros
