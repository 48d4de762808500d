import HeaderMacros.Proofs.Text.Lines
import HeaderMacros.Proofs.Token.Lexing
import HeaderMacros.Report.Record

/-!
# Reading records back

Macros that are *delimited* can be written and read back (`read_write_of_delimited`): their names and
parameters have no separators in them, and their replacements are tokens that a line could have,
without white space at the ends. So can macros that are *recordable* (`read_write`): their names and
parameters are words.

One thing is lost: a function-like macro without parameters is read back as an object-like one.
-/

namespace HeaderMacros

/-- What the serialized form can hold: the fields have no tabs, commas and newlines that could be
taken for separators, and the replacement is what the lexer makes of its own text. -/
structure Macro.Delimited (m : Macro) : Prop where
  /-- There is a name. -/
  name_ne_nil : m.name ≠ []
  /-- The name goes on to the first tab. -/
  name_bytes : Byte.tab ∉ m.name ∧ Byte.newline ∉ m.name
  /-- A parameter goes on to the next comma or to the second tab. -/
  params_bytes : ∀ p ∈ m.params.getD [], Byte.comma ∉ p ∧ Byte.tab ∉ p ∧ Byte.newline ∉ p
  /-- An empty parameter is not alone, since it would leave its field empty. -/
  params_ne : m.params ≠ some [[]]
  /-- The replacement has no white space at its ends. -/
  trim_value : Tokens.trim m.value = m.value
  /-- The replacement is cut from its text again. -/
  tokenize_value : Token.tokenize (Tokens.text m.value) = m.value
  /-- The replacement is on one line. -/
  newline_notMem_value : Byte.newline ∉ Tokens.text m.value

/-- What the serialized form can hold of macros from definitions: the name and the parameters are
words, and the replacement is what the lexer makes of its own text. -/
structure Macro.Recordable (m : Macro) : Prop where
  /-- There is a name. -/
  name_ne_nil : m.name ≠ []
  /-- The name is a word. -/
  name_bytes : ∀ b ∈ m.name, Byte.isWordByte b = true
  /-- The parameters are words or the variadic marker. -/
  params_bytes : ∀ p ∈ m.params.getD [], p ≠ [] ∧ ∀ b ∈ p, Byte.isWordByte b = true ∨ b = Byte.dot
  /-- The replacement has no white space at its ends. -/
  trim_value : Tokens.trim m.value = m.value
  /-- The replacement is cut from its text again. -/
  tokenize_value : Token.tokenize (Tokens.text m.value) = m.value
  /-- The replacement is on one line. -/
  newline_notMem_value : Byte.newline ∉ Tokens.text m.value

/-- A macro as it is read back: empty parentheses are forgotten. -/
def Macro.readBack (m : Macro) : Macro :=
  { m with params := if m.params = some [] then none else m.params }

namespace Macro.Recordable

variable {m : Macro}

theorem notMem_name (h : m.Recordable) {b : UInt8} (hb : Byte.isWordByte b = false) : b ∉ m.name :=
  fun hmem => absurd (h.name_bytes b hmem) (Bool.eq_false_iff.1 hb)

theorem notMem_param (h : m.Recordable) {b : UInt8} (hb : Byte.isWordByte b = false)
    (hdot : b ≠ Byte.dot) {p : Text} (hp : p ∈ m.params.getD []) : b ∉ p := by
  intro hmem
  rcases (h.params_bytes p hp).2 b hmem with hword | rfl
  · exact absurd hword (Bool.eq_false_iff.1 hb)
  · exact hdot rfl

theorem notMem_params (h : m.Recordable) {b : UInt8} (hb : Byte.isWordByte b = false)
    (hdot : b ≠ Byte.dot) (hcomma : b ≠ Byte.comma) :
    b ∉ Text.join [Byte.comma] (m.params.getD []) :=
  Text.notMem_join (fun hmem => hcomma (List.mem_singleton.1 hmem))
    fun _ hp => h.notMem_param hb hdot hp

/-- Words have no separators in them. -/
theorem delimited (h : m.Recordable) : m.Delimited where
  name_ne_nil := h.name_ne_nil
  name_bytes := ⟨h.notMem_name (by decide), h.notMem_name (by decide)⟩
  params_bytes p hp :=
    ⟨h.notMem_param (by decide) (by decide) hp, h.notMem_param (by decide) (by decide) hp,
      h.notMem_param (by decide) (by decide) hp⟩
  params_ne hparams := by
    have hempty := (h.params_bytes [] (by rw [hparams]; exact List.mem_cons_self)).1
    exact hempty rfl
  trim_value := h.trim_value
  tokenize_value := h.tokenize_value
  newline_notMem_value := h.newline_notMem_value

end Macro.Recordable

namespace Macro.Delimited

variable {m : Macro}

theorem newline_notMem_record (h : m.Delimited) : Byte.newline ∉ m.record := by
  rw [Macro.record, List.mem_append, List.mem_append, List.mem_cons, List.mem_cons]
  rintro ((hname | htab | hparams) | htab | hvalue)
  · exact h.name_bytes.2 hname
  · exact absurd htab (by decide)
  · exact Text.notMem_join (by decide) (fun p hp => (h.params_bytes p hp).2.2) hparams
  · exact absurd htab (by decide)
  · exact h.newline_notMem_value hvalue

/-- The text of the replacement does not end in white space. -/
theorem isSpace_getLast?_value (h : m.Delimited) :
    ∀ b ∈ (Tokens.text m.value).getLast?, Byte.isSpace b = false := by
  intro b hb
  have hlast := (Token.isSpace_ends_trim m.value).2
  rw [h.trim_value] at hlast
  cases hvalue : m.value.getLast? with
  | none =>
    rw [List.getLast?_eq_none_iff] at hvalue
    rw [hvalue] at hb
    cases hb
  | some t =>
    obtain ⟨before, hbefore⟩ := List.getLast?_eq_some_iff.1 hvalue
    have ht : t ∈ Token.tokenize (Tokens.text m.value) := by
      rw [h.tokenize_value, hbefore]
      exact List.mem_append_right _ List.mem_cons_self
    have htext := (Token.eq_classify_of_mem_tokenize ht).2
    refine Token.isSpace_of_mem_text ht (hlast t hvalue) b ?_
    rw [hbefore, Tokens.text, List.flatMap_append, List.flatMap_singleton, List.getLast?_append,
      List.getLast?_eq_some_getLast htext, Option.some_or, Option.mem_some_iff] at hb
    exact hb ▸ List.getLast_mem htext

/-- A record does not end in a carriage return. -/
theorem dropLastIf_record (h : m.Delimited) :
    Text.dropLastIf Byte.carriageReturn m.record = m.record := by
  -- It ends in the last byte of the replacement, or in the tab before an empty one.
  refine if_neg fun hlast => ?_
  rw [Macro.record, List.getLast?_append, List.getLast?_cons, Option.some_or, Option.some.injEq]
    at hlast
  cases hvalue : (Tokens.text m.value).getLast? with
  | none =>
    rw [hvalue] at hlast
    exact absurd hlast (by decide)
  | some b =>
    have hspace := h.isSpace_getLast?_value b hvalue
    rw [hvalue, Option.getD_some] at hlast
    rw [hlast] at hspace
    exact absurd hspace (by decide)

theorem splitAtMost_record (h : m.Delimited) :
    Text.splitAtMost Byte.tab 2 m.record =
      [m.name, Text.join [Byte.comma] (m.params.getD []), Tokens.text m.value] := by
  have hparams : Byte.tab ∉ Text.join [Byte.comma] (m.params.getD []) :=
    Text.notMem_join (by decide) fun p hp => (h.params_bytes p hp).2.1
  rw [Macro.record, List.append_assoc, List.cons_append, Text.splitAtMost_append_sep h.name_bytes.1,
    Text.splitAtMost_append_sep hparams, Text.splitAtMost]

/-- The fields of a record give the macro back. -/
theorem ofFields_record (h : m.Delimited) :
    Report.ofFields m.name (Text.join [Byte.comma] (m.params.getD [])) (Tokens.text m.value) =
      m.readBack := by
  have hvalue : Tokens.trim (Token.tokenize (Tokens.text m.value)) = m.value := by
    rw [h.tokenize_value, h.trim_value]
  have hparams : (if Text.join [Byte.comma] (m.params.getD []) = [] then none
      else some (Text.splitOn Byte.comma (Text.join [Byte.comma] (m.params.getD [])))) =
      if m.params = some [] then none else m.params := by
    have hcomma : ∀ p ∈ m.params.getD [], Byte.comma ∉ p := fun p hp => (h.params_bytes p hp).1
    have halone := h.params_ne
    -- No parameters and empty parentheses are both written as an empty field.
    match hm : m.params with
    | none => rfl
    | some [] => rfl
    | some (p :: ps) =>
      rw [hm, Option.getD_some] at hcomma
      rw [hm] at halone
      have hne : Text.join [Byte.comma] (p :: ps) ≠ [] := by
        cases ps with
        | nil =>
          rintro rfl
          exact halone rfl
        | cons q ps =>
          rw [Text.join_cons (List.cons_ne_nil q ps)]
          simp
      rw [Option.getD_some, if_neg hne, Text.splitOn_join (List.cons_ne_nil p ps) hcomma,
        if_neg (by simp)]
  rw [Report.ofFields, Macro.readBack, hvalue, hparams]

end Macro.Delimited

namespace Report

/-- A record that is not too long is read back. -/
theorem readLine_record {m : Macro} (h : m.Delimited) (hlen : m.record.length < maxLineLength)
    (number : Nat) : readLine number m.record = .ok (some m.readBack) := by
  have hne : m.record ≠ [] := by simp [Macro.record]
  rw [readLine, if_neg (Nat.not_le.2 hlen)]
  simp only [h.dropLastIf_record]
  rw [if_neg hne, h.splitAtMost_record]
  simp only
  rw [if_neg h.name_ne_nil, h.ofFields_record]

/-- The lines of a file of records are the records. -/
theorem fileLines_write {ms : List Macro} (h : ∀ m ∈ ms, Byte.newline ∉ m.record) :
    fileLines (write ms) = ms.map Macro.record := by
  -- Every record ends its line, so an empty line is left at the end.
  have hlines : Text.lines (write ms) = ms.map Macro.record ++ [[]] := by
    induction ms with
    | nil => rfl
    | cons m ms ih =>
      have hrest := ih fun other hother => h other (List.mem_cons_of_mem m hother)
      rw [write, List.flatMap_cons, List.append_assoc, List.singleton_append, ← write, Text.lines,
        Text.splitOn_append_sep, Text.splitOn_of_notMem (h m List.mem_cons_self), ← Text.lines,
        hrest]
      rfl
  simp only [fileLines, hlines, List.getLast?_concat, if_true, List.dropLast_concat]

/-- Reading records that are not too long gives the macros back. -/
theorem read_write_of_delimited {ms : List Macro} (h : ∀ m ∈ ms, m.Delimited)
    (hlen : ∀ m ∈ ms, m.record.length < maxLineLength) :
    read (write ms) = .ok (ms.map Macro.readBack) := by
  have hlines (number : Nat) :
      readLines number (ms.map Macro.record) = .ok (ms.map Macro.readBack) := by
    induction ms generalizing number with
    | nil => rfl
    | cons m ms ih =>
      have hrest := ih (fun other hother => h other (List.mem_cons_of_mem m hother))
        (fun other hother => hlen other (List.mem_cons_of_mem m hother)) (number + 1)
      rw [List.map_cons, readLines,
        readLine_record (h m List.mem_cons_self) (hlen m List.mem_cons_self), hrest]
      rfl
  rw [read, fileLines_write fun m hm => (h m hm).newline_notMem_record, hlines]

theorem read_write {ms : List Macro} (h : ∀ m ∈ ms, m.Recordable)
    (hlen : ∀ m ∈ ms, m.record.length < maxLineLength) :
    read (write ms) = .ok (ms.map Macro.readBack) :=
  read_write_of_delimited (fun m hm => (h m hm).delimited) hlen

end Report

end HeaderMacros
