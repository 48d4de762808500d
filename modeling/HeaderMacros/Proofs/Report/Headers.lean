import HeaderMacros.Proofs.Include.Spelling
import HeaderMacros.Proofs.Run.Notes
import HeaderMacros.Proofs.Source.Normal
import HeaderMacros.Proofs.Token.Lexing
import HeaderMacros.Report.Header
import Mathlib.Data.List.Infix

/-!
# Harvesting includes headers in order

A harvest of headers is a run over a document with an include for each of them. For names that can
stand between angle brackets, that run is what one expects of it: the names are gone through in
order, and each of them is included where no group that an earlier header left open skips it
(`run_rootDocument_eq_includeEach`).

The document is in normal form (`isNormal_rootDocument`), each of its lines is an include of the very
name (`IsHeaderName.readLine_includeText`), and on which line an include stands does not matter for
what follows.
-/

namespace HeaderMacros

open Source (IsNormal Apart isLineSpace)

/-- A name that can be included between angle brackets: there is something left of it in the
brackets, nothing of it ends it early, and nothing of it is a literal or a comment. -/
structure IsHeaderName (name : Text) : Prop where
  /-- There is a name. -/
  ne_nil : name ≠ []
  /-- It has no blank characters at its ends. -/
  trimmed : Text.trim name = name
  /-- It has no white space. -/
  solid : ∀ b ∈ name, Byte.isSpace b = false
  /-- It has no brackets. -/
  unbracketed : Byte.lessThan ∉ name ∧ Byte.greaterThan ∉ name
  /-- It has no quotes. -/
  unquoted : Source.Unquoted name
  /-- It has no comment marks. -/
  uncommented : ¬ Source.lineOpen <:+: name ∧ ¬ Source.blockOpen <:+: name

instance (name : Text) : Decidable (IsHeaderName name) :=
  decidable_of_iff (name ≠ [] ∧ Text.trim name = name ∧
    name.all (fun b => Byte.isSpace b == false) = true ∧
    (Byte.lessThan ∉ name ∧ Byte.greaterThan ∉ name) ∧ Source.Unquoted name ∧
    ¬ Source.lineOpen <:+: name ∧ ¬ Source.blockOpen <:+: name)
    ⟨fun ⟨hne, htrim, hsolid, hbracket, hquote, hcomment⟩ =>
      ⟨hne, htrim, fun b hb => beq_iff_eq.1 (List.all_eq_true.1 hsolid b hb), hbracket, hquote,
        hcomment⟩,
    fun h => ⟨h.ne_nil, h.trimmed, List.all_eq_true.2 fun b hb => beq_iff_eq.2 (h.solid b hb),
      h.unbracketed, h.unquoted, h.uncommented⟩⟩

/-- The line that includes a name between angle brackets. -/
def includeText (name : Text) : Text := ascii "#include " ++ IncludeKind.angled.quote name

/-- What stands before the name on its line. -/
def includeStart : Text := ascii "#include <"

theorem includeText_eq (name : Text) :
    includeText name = includeStart ++ (name ++ [Byte.greaterThan]) := rfl

/-! ## The document -/

namespace IsHeaderName

variable {name : Text} (h : IsHeaderName name)

include h

theorem includeLine_eq : Report.includeLine name = includeText name ++ [Byte.newline] := by
  -- The name is put between brackets, since it does not come with delimiters of its own.
  obtain ⟨b, rest, rfl⟩ := List.exists_cons_of_ne_nil h.ne_nil
  have hdelimiter : ¬ (b = Byte.doubleQuote ∨ b = Byte.lessThan) := by
    rintro (rfl | rfl)
    · exact h.unquoted.1 List.mem_cons_self
    · exact h.unbracketed.1 List.mem_cons_self
  rw [Report.includeLine, h.trimmed]
  show (if b = Byte.doubleQuote ∨ b = Byte.lessThan then _ else _) = _
  rw [if_neg hdelimiter]
  simp [includeText, IncludeKind.quote, ascii]

theorem newline_notMem : Byte.newline ∉ includeText name := by
  have hname : Byte.newline ∉ name := fun hmem => absurd (h.solid _ hmem) (by decide)
  have hstart : Byte.newline ∉ includeStart := by decide
  rw [includeText_eq, List.mem_append, List.mem_append, not_or, not_or]
  exact ⟨hstart, hname, by decide⟩

/-- No two bytes of a name open a comment. -/
theorem isChain_apart : name.IsChain Apart := by
  refine (List.isChain_isInfix name).imp_of_mem_imp fun b c _ hc hpair => ?_
  refine Apart.of_solid (h.solid c hc) ?_ ?_
  · intro heq
    exact h.uncommented.2 (heq ▸ hpair)
  · intro heq
    exact h.uncommented.1 (heq ▸ hpair)

/-- The line of a name is in normal form. -/
theorem isNormal_line : IsNormal (includeText name ++ [Byte.newline]) := by
  have hline : includeText name ++ [Byte.newline] =
      includeStart ++ (name ++ [Byte.greaterThan, Byte.newline]) := by
    rw [includeText_eq, List.append_assoc, List.append_assoc]
    rfl
  rw [hline]
  constructor
  case unquoted =>
    simp only [Source.Unquoted, List.mem_append, not_or]
    exact ⟨⟨by decide, h.unquoted.1, by decide⟩, by decide, h.unquoted.2, by decide⟩
  case spaces =>
    -- The only white space is the space before the bracket.
    have hstart : includeStart.all fun b => !isLineSpace b || b == Byte.space := by decide
    simp only [List.mem_append, List.mem_cons, List.not_mem_nil, or_false]
    rintro b (hb | hb | rfl | rfl) hspace
    · have hb' := List.all_eq_true.1 hstart b hb
      rw [hspace] at hb'
      exact beq_iff_eq.1 hb'
    · rw [Source.isLineSpace_of_solid (h.solid b hb)] at hspace
      cases hspace
    · exact absurd hspace (by decide)
    · exact absurd hspace (by decide)
  case start =>
    intro b hb
    obtain rfl : Byte.hash = b := Option.some.inj hb
    rfl
  case apart =>
    -- Each of the three parts is in order, and so are the two places where they meet.
    refine List.isChain_append.2
      ⟨by decide, List.isChain_append.2 ⟨h.isChain_apart, by decide, ?_⟩, ?_⟩
    · rintro b - c hc
      obtain rfl : Byte.greaterThan = c := Option.some.inj hc
      refine Apart.of_solid rfl ?_ ?_
      · exact fun heq => absurd (List.head_eq_of_cons_eq (List.tail_eq_of_cons_eq heq)) (by decide)
      · exact fun heq => absurd (List.head_eq_of_cons_eq (List.tail_eq_of_cons_eq heq)) (by decide)
    · intro b hb c hc
      obtain rfl : Byte.lessThan = b := Option.some.inj hb
      have hmem : c ∈ name := by
        rw [List.head?_append_of_ne_nil _ h.ne_nil] at hc
        exact List.mem_of_mem_head? hc
      obtain ⟨hblock, hmark⟩ :=
        Source.pair_ne_marks (c := c) (by decide : Byte.lessThan ≠ Byte.slash)
      exact Apart.of_solid (h.solid c hmem) hblock hmark

end IsHeaderName

variable {names : List Text}

/-- The document is in normal form. -/
theorem isNormal_rootDocument (h : ∀ name ∈ names, IsHeaderName name) :
    IsNormal (Report.rootDocument names) := by
  induction names with
  | nil => exact Source.isNormal_nil
  | cons name rest ih =>
    obtain ⟨hname, hrest⟩ := List.forall_mem_cons.1 h
    rw [Report.rootDocument, List.flatMap_cons, hname.includeLine_eq]
    exact hname.isNormal_line.append List.getLast?_concat (ih hrest)

/-- The lines of the document: one for each name, and an empty one at the end. -/
theorem lines_rootDocument (h : ∀ name ∈ names, IsHeaderName name) :
    Text.lines (Report.rootDocument names) = names.map includeText ++ [[]] := by
  induction names with
  | nil => rfl
  | cons name rest ih =>
    obtain ⟨hname, hrest⟩ := List.forall_mem_cons.1 h
    rw [Report.rootDocument, List.flatMap_cons, hname.includeLine_eq, List.append_assoc,
      List.singleton_append, Source.lines_append_newline hname.newline_notMem,
      ← Report.rootDocument, ih hrest]
    rfl

/-! ## A line of the document -/

theorem tokenize_includeText (name : Text) :
    Token.tokenize (includeText name) =
      Token.operator "#" :: Token.word "include" :: Token.blank ::
        Token.tokenize (IncludeKind.angled.quote name) := by
  have hhash : Token.lex Byte.hash (ascii "include " ++ IncludeKind.angled.quote name) =
    (Token.operator "#", ascii "include " ++ IncludeKind.angled.quote name) := rfl
  have hinclude : Token.lex 0x69 (ascii "nclude " ++ IncludeKind.angled.quote name) =
    (Token.word "include", Byte.space :: IncludeKind.angled.quote name) := rfl
  have hblank : Token.lex Byte.space (IncludeKind.angled.quote name) =
    (Token.blank, IncludeKind.angled.quote name) := rfl
  have hline : includeText name =
    Byte.hash :: (ascii "include " ++ IncludeKind.angled.quote name) := rfl
  have hword : ascii "include " ++ IncludeKind.angled.quote name =
    0x69 :: (ascii "nclude " ++ IncludeKind.angled.quote name) := rfl
  -- The number sign, the word and the space are cut off; what follows is not looked at.
  rw [hline, Token.tokenize, hhash, hword, Token.tokenize, hinclude, Token.tokenize, hblank]

/-- A name between angle brackets is one include, whatever its tokens are. -/
theorem IsHeaderName.ofTokens_quote {name : Text} (h : IsHeaderName name) :
    Include.ofTokens (Token.tokenize (IncludeKind.angled.quote name)) = .ok ⟨name, .angled⟩ := by
  have hblank : ∀ c ∈ name, Include.isBlank c = false := by
    intro c hc
    refine Bool.eq_false_iff.2 fun hblank => ?_
    have hsolid := h.solid c hc
    simp only [Include.isBlank, Bool.or_eq_true, beq_iff_eq] at hblank
    rcases hblank with rfl | rfl <;> exact absurd hsolid (by decide)
  have hends : ∀ c ∈ name, Include.endsName c = false := fun c hc =>
    Include.endsName_eq_false_iff.2 ⟨fun heq => h.unbracketed.2 (heq ▸ hc), hblank c hc⟩
  rw [Include.ofTokens, Token.text_tokenize]
  exact (@Include.ReadFrom.angled [] name Byte.greaterThan (fun b hb => absurd hb List.not_mem_nil)
    h.ne_nil hends rfl []).ofText

/-- The line of a name is a directive with the tokens of what stands between its brackets. -/
theorem IsHeaderName.ofTokens?_includeText {name : Text} (h : IsHeaderName name) :
    Directive.ofTokens? (Token.tokenize (includeText name)) =
      some ⟨ascii "include", Token.tokenize (IncludeKind.angled.quote name)⟩ := by
  have hsolid : ∀ b ∈ IncludeKind.angled.quote name, Byte.isSpace b = false := by
    intro b hb
    rcases List.mem_cons.1 hb with rfl | hb
    · rfl
    rcases List.mem_append.1 hb with hb | hb
    · exact h.solid b hb
    · rw [List.mem_singleton.1 hb]
      rfl
  have htrim : Tokens.trim (Token.tokenize (IncludeKind.angled.quote name)) =
      Token.tokenize (IncludeKind.angled.quote name) :=
    Token.trim_eq_self
      (fun t ht => Token.isSpace_of_mem_tokenize hsolid (List.mem_of_mem_head? ht))
      (fun t ht => Token.isSpace_of_mem_tokenize hsolid (List.mem_of_mem_getLast? ht))
  rw [tokenize_includeText]
  show some (⟨ascii "include", Tokens.trim (Token.tokenize _)⟩ : Directive) = _
  rw [htrim]

/-- A line of the document includes its name, unless it is skipped. -/
theorem IsHeaderName.readLine_includeText {name : Text} (h : IsHeaderName name) (s : RunState) :
    s.readLine (includeText name) =
      .ok (if s.groups.active then .enter ⟨name, .angled⟩ else .proceed s) := by
  -- The number sign is not blank, whatever comes after it.
  have hblank : Text.isBlank (includeText name) = false := rfl
  have hgroup : RunState.GroupDirective.ofName? (ascii "include") = none := by decide
  rw [RunState.readLine, hblank, if_neg Bool.false_ne_true, h.ofTokens?_includeText]
  dsimp only
  rw [RunState.follow]
  dsimp only
  rw [if_neg (by decide), hgroup]
  dsimp only
  split_ifs
  · rw [RunState.followActive]
    dsimp only
    rw [if_neg (by decide), if_neg (by decide), if_pos rfl, h.ofTokens_quote]
    rfl
  · rfl

/-! ## The run over the document -/

variable {m : Type → Type} [Monad m]

/-- Goes through names in order, and follows an include between angle brackets for each of them at
which no open group skips it, up to the first fault. -/
def RunState.includeEach (enter : RunState → Include → m Outcome) :
    RunState → List Text → m Outcome
  | s, [] => pure ⟨s, none⟩
  | s, name :: rest =>
    -- A group that an earlier file left open may skip this one.
    if s.groups.active then
      enter s ⟨name, .angled⟩ >>= Nesting.andThen fun next => includeEach enter next rest
    else includeEach enter s rest

variable [LawfulMonad m]

/-- Reading the lines of the document goes through the names. Its lines have numbers and the names
have none, which does not matter to what is included. -/
theorem readLines_map_includeText {enter : RunState → Include → m Outcome}
    (henter : ∀ request, RunState.IgnoresPlace (enter · request))
    (h : ∀ name ∈ names, IsHeaderName name) {s t : RunState} (hs : s.unplaced = t.unplaced)
    (number : Nat) :
    Outcome.unplaced <$> RunState.readLines enter s number (names.map includeText ++ [[]]) =
      Outcome.unplaced <$> RunState.includeEach enter t names := by
  induction names generalizing s t number with
  | nil =>
    -- The empty line at the end does nothing.
    have hread : Nesting.followRole (s.atLine number) [] (Nesting.role []) =
        .ok (.proceed (s.atLine number)) := by
      rw [← Nesting.readLine_eq_followRole]
      rfl
    rw [List.map_nil, List.nil_append, Nesting.readLines_cons_of_proceed enter hread,
      RunState.readLines, RunState.includeEach, map_pure, map_pure]
    exact congrArg (fun state => pure (state, none)) hs
  | cons name rest ih =>
    obtain ⟨hname, hrest⟩ := List.forall_mem_cons.1 h
    -- The line is read in a state that differs from that of the name by its number only.
    have hread := hname.readLine_includeText (s.atLine number)
    have hhere : (s.atLine number).unplaced = t.unplaced := hs
    have hgroups : s.groups = t.groups := (congrArg RunState.groups hs :)
    rw [Nesting.readLine_eq_followRole, RunState.groups_atLine, hgroups] at hread
    rw [List.map_cons, List.cons_append, RunState.includeEach]
    split_ifs at hread ⊢
    · rw [Nesting.readLines_cons_of_enter enter hread]
      refine RunState.unplaced_bind_andThen (henter _ _ _ hhere) fun next next' hnext => ?_
      exact ih hrest hnext (number + 1)
    · rw [Nesting.readLines_cons_of_proceed enter hread]
      exact ih hrest hhere (number + 1)

/-- A run over the document of some headers ends like going through their names in order from the
initial state, with an include between angle brackets for each name at which no group skips it, and
the check for open groups at the end: in the same state but for the notes and the line number, after
the same requests to the resolver, or with a fault of the same cause. -/
theorem run_rootDocument_eq_includeEach (resolver : Option (Resolver m)) (depth : Nat)
    (predefined : List Macro) (h : ∀ name ∈ names, IsHeaderName name) :
    Outcome.unplaced <$> run resolver (depth + 1) predefined (Report.rootDocument names) =
      Outcome.unplaced <$> Outcome.close <$>
        RunState.includeEach (RunState.enter resolver (RunState.process resolver depth))
          (RunState.initial predefined) names := by
  -- The document comes through normalization, so its lines are those of the names.
  have hprocess : Outcome.unplaced <$>
      (RunState.initial predefined).process resolver (depth + 1) (Report.rootDocument names) =
      Outcome.unplaced <$>
        RunState.includeEach (RunState.enter resolver (RunState.process resolver depth))
          (RunState.initial predefined) names := by
    rw [RunState.process, Source.normalize_of_isNormal (isNormal_rootDocument h)]
    dsimp only
    rw [lines_rootDocument h]
    exact readLines_map_includeText
      (RunState.enter_unplaced resolver (RunState.process_unplaced resolver depth)) h rfl 1
  rw [run, ← bind_pure_comp Outcome.close]
  refine map_bind_congr hprocess fun out out' hout => ?_
  rw [map_pure, map_pure, Outcome.close_unplaced hout]

/-- Headers of which the first leaves a group open and the second turns to its other branch. -/
def turningFiles : FileSet :=
  [(ascii "=open.h", ascii "#define A\n#ifdef A\nopened"), (ascii "turn.h", ascii "#else\nturned"),
    (ascii "last.h", ascii "#endif")]

/-- The third of these headers is skipped, so the group stays open. The first name makes one token
with the bracket before it. -/
theorem run_rootDocument_turningFiles :
    (∀ name ∈ turningFiles.map Prod.fst, IsHeaderName name) ∧
    (run (m := Id) (some turningFiles.resolver) 3 []
        (Report.rootDocument (turningFiles.map Prod.fst))).unplaced =
      (RunState.includeEach (m := Id)
        (RunState.enter (some turningFiles.resolver)
          (RunState.process (some turningFiles.resolver) 2))
        (RunState.initial []) (turningFiles.map Prod.fst)).close.unplaced ∧
    (run (m := Id) (some turningFiles.resolver) 3 []
        (Report.rootDocument (turningFiles.map Prod.fst))).unplaced.2 =
      some (.malformed .unterminatedGroup []) := by
  have hnames : ∀ name ∈ turningFiles.map Prod.fst, IsHeaderName name := by decide +kernel
  exact ⟨hnames, run_rootDocument_eq_includeEach (m := Id) (some turningFiles.resolver) 2 [] hnames,
    by decide +kernel⟩

end HeaderMacros
