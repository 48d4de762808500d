import HeaderMacros.Proofs.Report.RoundTrip
import Mathlib.Control.Monad.Basic

/-!
# Rewriting records

A file of records may be written by hand: with empty lines, with carriage returns at the ends of
lines, with white space around replacements, and with names and parameters that no definition can
have. Reading forgets the first three, and what it gives has no separators in its fields
(`delimited_ofFields`) and a record that is no longer than the line it was read from
(`length_record_ofFields_le`). So it can be written and read back, and nothing is lost that way:

- `read_write_of_read`: macros that were read are read back from their records, and a file that was
  written from them is rewritten without a change.
-/

namespace HeaderMacros.Report

/-! ## The macro of three fields -/

section

variable {name params value : Text}

/-- The parameters are written as their field was. -/
theorem join_params_ofFields (name params value : Text) :
    Text.join [Byte.comma] ((ofFields name params value).params.getD []) = params := by
  rw [ofFields]
  dsimp only
  split_ifs with hparams
  · exact hparams.symm
  · exact Text.join_splitOn Byte.comma params

/-- A parameter is a part of its field between commas. -/
theorem mem_splitOn_of_mem_params {p : Text}
    (hp : p ∈ (ofFields name params value).params.getD []) :
    p ∈ Text.splitOn Byte.comma params := by
  rw [ofFields] at hp
  dsimp only at hp
  split_ifs at hp with hparams
  · cases hp
  · exact hp

/-- Of the third field, the white space at its ends is dropped and nothing else. -/
theorem text_trim_tokenize_isInfix (value : Text) :
    Tokens.text (Tokens.trim (Token.tokenize value)) <:+: value := by
  obtain ⟨before, after, h⟩ := Token.trim_isInfix (Token.tokenize value)
  refine ⟨Tokens.text before, Tokens.text after, ?_⟩
  calc Tokens.text before ++ Tokens.text (Tokens.trim (Token.tokenize value)) ++ Tokens.text after
      = Tokens.text (before ++ Tokens.trim (Token.tokenize value) ++ after) := by
        simp only [Tokens.text, List.flatMap_append]
    _ = value := by rw [h, Token.text_tokenize]

/-- Fields that were told apart by tabs on one line make a macro that the serialized form can
hold. -/
theorem delimited_ofFields (hne : name ≠ []) (hname : Byte.tab ∉ name ∧ Byte.newline ∉ name)
    (hparams : Byte.tab ∉ params ∧ Byte.newline ∉ params) (hvalue : Byte.newline ∉ value) :
    (ofFields name params value).Delimited where
  name_ne_nil := hne
  name_bytes := hname
  params_bytes p hp := by
    have hpiece := mem_splitOn_of_mem_params hp
    exact ⟨Text.notMem_of_mem_splitOn hpiece,
      fun hmem => hparams.1 (Text.mem_of_mem_splitOn hpiece hmem),
      fun hmem => hparams.2 (Text.mem_of_mem_splitOn hpiece hmem)⟩
  params_ne h := by
    -- A single empty parameter would come from an empty field, which has none.
    have hjoin := join_params_ofFields name params value
    rw [h] at hjoin
    subst hjoin
    simp [ofFields, Text.join] at h
  trim_value := Token.trim_trim _
  tokenize_value := Token.tokenize_text_of_isInfix (Token.trim_isInfix _)
  newline_notMem_value hmem := hvalue ((text_trim_tokenize_isInfix value).mem hmem)

/-- There are no empty parentheses to be forgotten. -/
theorem readBack_ofFields (name params value : Text) :
    (ofFields name params value).readBack = ofFields name params value := by
  rw [Macro.readBack, if_neg]
  rw [ofFields]
  dsimp only
  split_ifs
  · exact not_false
  · exact fun h => Text.splitOn_ne_nil Byte.comma params (Option.some.inj h)

/-- Reading drops white space, so the record of a macro is no longer than what it was read from. -/
theorem length_record_ofFields_le (name params value : Text) :
    (ofFields name params value).record.length ≤
      (name ++ Byte.tab :: (params ++ Byte.tab :: value)).length := by
  have hvalue := (text_trim_tokenize_isInfix value).length_le
  rw [Macro.record, join_params_ofFields]
  show (name ++ Byte.tab :: params ++
    Byte.tab :: Tokens.text (Tokens.trim (Token.tokenize value))).length ≤ _
  simp only [List.length_append, List.length_cons]
  omega

end

/-! ## Lines -/

/-- A macro that was read off a line can be written, and is read back as it is. -/
structure Rewritable (m : Macro) : Prop where
  /-- Its fields can be told apart in its record. -/
  delimited : m.Delimited
  /-- It has nothing that its record does not tell. -/
  readBack_eq : m.readBack = m
  /-- Its record fits on a line. -/
  length_record_lt : m.record.length < maxLineLength

/-- A macro that is read off a line comes of three fields that tabs on the line tell apart. -/
theorem readLine_eq_some {number : Nat} {line : Text} {m : Macro}
    (h : readLine number line = .ok (some m)) :
    ∃ name params value, m = ofFields name params value ∧ name ≠ [] ∧ Byte.tab ∉ name ∧
      Byte.tab ∉ params ∧ name ++ Byte.tab :: (params ++ Byte.tab :: value) <+: line ∧
      line.length < maxLineLength := by
  rw [readLine] at h
  split at h
  · cases h
  rename_i hlength
  dsimp only at h
  generalize hcontent : Text.dropLastIf Byte.carriageReturn
    (Text.dropLastIf Byte.carriageReturn line) = content at h
  have hstart : content <+: line := by
    rw [← hcontent]
    exact (Text.dropLastIf_isPrefix _ _).trans (Text.dropLastIf_isPrefix _ _)
  split at h
  · cases h
  split at h
  · rename_i name params value hfields
    split at h
    · cases h
    · rename_i hname
      cases h
      obtain ⟨after, rfl, htab, hafter⟩ := Text.splitAtMost_eq_cons hfields
      obtain ⟨last, rfl, htab', hlast⟩ := Text.splitAtMost_eq_cons hafter
      cases hlast
      exact ⟨name, params, value, rfl, hname, htab, htab', hstart, Nat.not_le.1 hlength⟩
  · cases h

theorem rewritable_of_readLine {number : Nat} {line : Text} (hline : Byte.newline ∉ line)
    {m : Macro} (h : readLine number line = .ok (some m)) : Rewritable m := by
  obtain ⟨name, params, value, rfl, hne, hname, hparams, hstart, hlength⟩ := readLine_eq_some h
  have hnewline : Byte.newline ∉ name ++ Byte.tab :: (params ++ Byte.tab :: value) :=
    fun hmem => hline (hstart.mem hmem)
  simp only [List.mem_append, List.mem_cons, not_or] at hnewline
  obtain ⟨hname', -, hparams', -, hvalue⟩ := hnewline
  refine ⟨delimited_ofFields hne ⟨hname, hname'⟩ ⟨hparams, hparams'⟩ hvalue,
    readBack_ofFields name params value, ?_⟩
  calc (ofFields name params value).record.length
      ≤ _ := length_record_ofFields_le name params value
    _ ≤ line.length := hstart.length_le
    _ < maxLineLength := hlength

theorem rewritable_of_readLines {number : Nat} {lines : List Text}
    (hlines : ∀ line ∈ lines, Byte.newline ∉ line) {ms : List Macro}
    (h : readLines number lines = .ok ms) : ∀ m ∈ ms, Rewritable m := by
  induction lines generalizing number ms with
  | nil =>
    cases h
    exact fun m hm => absurd hm List.not_mem_nil
  | cons line rest ih =>
    obtain ⟨hline, hrest⟩ := List.forall_mem_cons.1 hlines
    rw [readLines] at h
    cases hfirst : readLine number line with
    | error failure =>
      rw [hfirst] at h
      cases h
    | ok first =>
      cases hmore : readLines (number + 1) rest with
      | error failure =>
        rw [hfirst, hmore] at h
        cases h
      | ok more =>
        rw [hfirst, hmore] at h
        cases h
        intro m hm
        rcases List.mem_append.1 hm with hm | hm
        · exact rewritable_of_readLine hline (Option.mem_toList.1 hm ▸ hfirst)
        · exact ih hrest hmore m hm

theorem newline_notMem_of_mem_fileLines {text line : Text} (h : line ∈ fileLines text) :
    Byte.newline ∉ line := by
  have hmem : line ∈ Text.lines text := by
    rw [fileLines] at h
    split_ifs at h
    · exact (List.dropLast_sublist _).subset h
    · exact h
  exact Text.notMem_of_mem_splitOn hmem

/-! ## Files -/

/-- A file of records, read and written again. -/
def rewrite (text : Text) : Except ReadFailure Text := (read text).map write

/-- Whatever was read from a file is read back from its records, and writing these once more changes
nothing. -/
theorem read_write_of_read {text : Text} {ms : List Macro} (h : read text = .ok ms) :
    read (write ms) = .ok ms ∧ rewrite (write ms) = .ok (write ms) := by
  have hms := rewritable_of_readLines (fun line => newline_notMem_of_mem_fileLines) h
  have hread : read (write ms) = .ok ms := by
    have hback : ms.map Macro.readBack = ms :=
      (List.map_congr_left fun m hm => (hms m hm).readBack_eq).trans (List.map_id ms)
    rw [read_write_of_delimited (fun m hm => (hms m hm).delimited)
      (fun m hm => (hms m hm).length_record_lt), hback]
  refine ⟨hread, ?_⟩
  rw [rewrite, hread]
  rfl

/-- Records with white space in a name, with empty parameters, with white space around a
replacement and a tab in it, with an empty line, and with a replacement that is blank. -/
def untidyRecords : Text := ascii "a b\r\tx,,y\t 1\t+ \r\r\n\r\r\nN\t\t \t\r\nZ\t,\t"

/-- What is read from them. -/
def tidyMacros : List Macro :=
  [⟨ascii "a b\r", some [ascii "x", [], ascii "y"],
      [.word "1", ⟨.space, [Byte.tab]⟩, .operator "+"]⟩,
    ⟨ascii "N", none, []⟩, ⟨ascii "Z", some [[], []], []⟩]

/-- These records are read, and what is written for them is read back. -/
theorem read_write_of_read_untidyRecords :
    read untidyRecords = .ok tidyMacros ∧ read (write tidyMacros) = .ok tidyMacros ∧
      rewrite (write tidyMacros) = .ok (write tidyMacros) := by
  have hread : read untidyRecords = .ok tidyMacros := by decide +kernel
  exact ⟨hread, read_write_of_read hread⟩

end HeaderMacros.Report
