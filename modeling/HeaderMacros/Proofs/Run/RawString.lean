import HeaderMacros.Proofs.Run.Code
import HeaderMacros.Proofs.Source.RawString
import Mathlib.Control.Traversable.Instances

/-!
# What the body of a raw string does to a run

A document is normalized with its raw strings as they are, and then read line by line. What a line
is, its first token decides: the lines of a raw string are read as all others.

* `run_rawString_body`: the body of a raw string does not matter, but for its number of lines, if it
  is recognized with either body and every line that it stands on is the same with both or no
  directive with either. A run then comes to the same macros, the same files and the same fault, in
  fact to the same state but for the code.
* `rawString_bodies_tell`: each of these conditions is needed. A line of the body that starts with a
  number sign is followed as a directive, and so is the line that the raw string opens on. Another
  body may keep the raw string from being recognized. And if the scan for white space does not
  recognize it, its body may close another raw string.
-/

namespace HeaderMacros

open Source

/-! ## Lines -/

/-- Texts that differ in a part between others, with as many newlines, have the same lines but for
those of the part, so that they are the same but for code if these are. -/
theorem forall₂_sameButCode {lead text text' tail : Text}
    (hnewlines : newlines text = newlines text')
    (hpart : ∀ k line line', newlines lead ≤ k → k ≤ newlines lead + newlines text →
      (Text.lines (lead ++ (text ++ tail)))[k]? = some line →
      (Text.lines (lead ++ (text' ++ tail)))[k]? = some line' → SameButCode line line') :
    List.Forall₂ SameButCode (Text.lines (lead ++ (text ++ tail)))
      (Text.lines (lead ++ (text' ++ tail))) := by
  have hlength : (Text.lines (lead ++ (text ++ tail))).length =
      (Text.lines (lead ++ (text' ++ tail))).length := by
    rw [Text.lines, Text.lines, Text.length_splitOn, Text.length_splitOn, ← newlines, ← newlines,
      newlines_append, newlines_append, newlines_append, newlines_append, hnewlines]
  refine List.forall₂_iff_get.2 ⟨hlength, fun k h h' => ?_⟩
  have hline := List.getElem?_eq_getElem h
  have hline' := List.getElem?_eq_getElem h'
  -- A line comes before the part, after it, or is one of its lines.
  by_cases hbefore : k < newlines lead
  · have heq : (Text.lines (lead ++ (text ++ tail)))[k]? =
        (Text.lines (lead ++ (text' ++ tail)))[k]? := by
      rw [Text.lines, Text.lines, Text.getElem?_splitOn_append_of_lt hbefore,
        Text.getElem?_splitOn_append_of_lt hbefore]
    rw [hline, hline'] at heq
    exact .inl (Option.some.inj heq)
  by_cases hafter : newlines lead + newlines text < k
  · have hrest (text : Text) (hafter : newlines lead + newlines text < k) :
        (Text.lines (lead ++ (text ++ tail)))[k]? =
          (Text.lines tail)[k - newlines lead - newlines text]? := by
      unfold newlines at hafter ⊢
      rw [Text.lines, Text.getElem?_splitOn_append_of_gt (by omega),
        Text.getElem?_splitOn_append_of_gt (by omega), Text.lines]
    have heq := (hrest text hafter).trans (hnewlines ▸ (hrest text' (hnewlines ▸ hafter)).symm)
    rw [hline, hline'] at heq
    exact .inl (Option.some.inj heq)
  · exact hpart k _ _ (by omega) (by omega) hline hline'

/-- Every line that a raw string stands on is the same with two bodies, or no directive with
either. -/
def SameOnLines (start delimiter body body' after before : Text) : Prop :=
  ∀ out out', normalize (document start delimiter body after) = .ok out →
    normalize (document start delimiter body' after) = .ok out' →
    ∀ k line line', newlines before ≤ k → k ≤ newlines before + newlines body →
      (Text.lines out)[k]? = some line → (Text.lines out')[k]? = some line' →
      SameButCode line line'

/-- Documents with another body in a raw string are the same but for code, if the lines that it
stands on are. -/
theorem alikeButCode_of_standsAfter {start delimiter body body' after before before' : Text}
    (h : StandsAfter start delimiter body after before)
    (h' : StandsAfter start delimiter body' after before')
    (hnewlines : newlines body = newlines body')
    (hlines : SameOnLines start delimiter body body' after before) :
    AlikeButCode (document start delimiter body after) (document start delimiter body' after) := by
  obtain ⟨lead, emptied, hlead⟩ := ScannedAfter.exists_spliced start delimiter after
  obtain ⟨rfl, hspliced⟩ := hlead h.toScannedAfter
  obtain ⟨rfl, hspliced'⟩ := hlead h'.toScannedAfter
  have hout := normalize_of_standsAfter h hspliced
  have hout' := normalize_of_standsAfter h' hspliced'
  rw [← hnewlines] at hout'
  generalize normalizeAfter (1 + newlines before' + newlines body) _ = rest at hout hout'
  cases hkept : strip before' with
  | error line =>
    rw [hkept] at hout hout'
    exact .unclosed line hout hout'
  | ok kept =>
    rw [hkept] at hout hout'
    cases rest with
    | error line => exact .unclosed line hout hout'
    | ok tail =>
      have hlead : newlines (coalesce kept) = newlines before' := by
        rw [(keeps_coalesce kept).newlines_eq, (keeps_strip hkept).newlines_eq]
      refine .normalized hout hout' (forall₂_sameButCode ?_ ?_)
      · rw [h.newlines_rawString, h'.newlines_rawString, hnewlines]
      · rw [hlead, h.newlines_rawString]
        exact hlines _ _ hout hout'

/-- The body of a raw string is never followed, if it is recognized with either body and the lines
that it stands on are the same or no directives: a run comes to the same end but for the code. -/
theorem run_rawString_body {m : Type → Type} [Monad m] [LawfulMonad m]
    (resolver : Option (Resolver m)) (depth : Nat) (predefined : List Macro)
    {start delimiter body body' after before before' : Text}
    (h : StandsAfter start delimiter body after before)
    (h' : StandsAfter start delimiter body' after before')
    (hnewlines : newlines body = newlines body')
    (hlines : SameOnLines start delimiter body body' after before) :
    Outcome.withoutCode <$> run resolver depth predefined (document start delimiter body after) =
      Outcome.withoutCode <$>
        run resolver depth predefined (document start delimiter body' after) := by
  apply run_withoutCode
  exact alikeButCode_of_standsAfter h h' hnewlines hlines

/-! ## Two bodies that make no difference -/

theorem eq_of_toOption {x : Except Nat Text} {text text' : Text} (h : x.toOption = some text)
    (h' : x = .ok text') : text = text' := by
  subst h'
  exact (Option.some.inj h).symm

/-- Where no line of the start is continued, the segments of a document tell whether its raw string
is recognized. -/
theorem scannedAfter_of_segments {start delimiter body after : Text} {rest : List Segment}
    (hdelimiter : Byte.openParen ∉ delimiter) (hstart : spliced start = start)
    (hsegments : segments (spliced (document start delimiter body after)) =
      segments start ++ .literal (rawString delimiter (Text.unifyLineEnds body)) :: rest) :
    ScannedAfter start delimiter body after start where
  openParen_notMem := hdelimiter
  spliced_start := ⟨0, hstart.trans (List.append_nil start).symm⟩
  comments := ⟨segments start, rest, hsegments, source_segments start⟩

/-- The text before a raw string of two lines. -/
def quotedStart : Text := ascii "#define A 1\ns = "

/-- The text after a raw string of two lines. -/
def quotedAfter : Text := ascii ";\n#define B A"

/-- A body with something in it that opens a comment elsewhere. -/
def quotedComment : Text := ascii "a\n /* b"

/-- A body with something in it that is a directive at the start of a line. -/
def quotedUndef : Text := ascii "c\n #undef A"

theorem standsAfter_quoted {body : Text} (hbody : body ∈ [quotedComment, quotedUndef]) :
    StandsAfter quotedStart (ascii "d") body quotedAfter quotedStart := by
  have hscans : ∀ body ∈ [quotedComment, quotedUndef],
      segments (spliced (document quotedStart (ascii "d") body quotedAfter)) =
        segments quotedStart ++ .literal (rawString (ascii "d") (Text.unifyLineEnds body)) ::
          segments quotedAfter ∧
      (strip (spliced (document quotedStart (ascii "d") body quotedAfter))).toOption =
        some (document quotedStart (ascii "d") body quotedAfter) ∧
      stretches (document quotedStart (ascii "d") body quotedAfter) =
        stretches quotedStart ++ .literal (rawString (ascii "d") (Text.unifyLineEnds body)) ::
          stretches quotedAfter := by
    decide +kernel
  obtain ⟨hsegments, hstrip, hstretches⟩ := hscans body hbody
  refine ⟨scannedAfter_of_segments (by decide) (by decide +kernel) hsegments, ?_⟩
  intro kept stripped hkept hstripped
  have hstart : (strip quotedStart).toOption = some quotedStart := by decide +kernel
  obtain rfl := eq_of_toOption hstrip hstripped
  obtain rfl := eq_of_toOption hstart hkept
  exact ⟨_, _, hstretches, source_stretches _⟩

theorem sameOnLines_quoted :
    SameOnLines quotedStart (ascii "d") quotedComment quotedUndef quotedAfter quotedStart := by
  have hout : ∀ body ∈ [quotedComment, quotedUndef],
      (normalize (document quotedStart (ascii "d") body quotedAfter)).toOption =
        some (document quotedStart (ascii "d") body quotedAfter) ∧
      ∀ k ∈ [1, 2], ∀ line ∈ (Text.lines (document quotedStart (ascii "d") body quotedAfter))[k]?,
        IsCode line := by
    decide +kernel
  obtain ⟨hcomment, hcode⟩ := hout quotedComment (by simp)
  obtain ⟨hundef, hcode'⟩ := hout quotedUndef (by simp)
  intro out out' hnormalize hnormalize' k line line' hk hk' hline hline'
  obtain rfl := eq_of_toOption hcomment hnormalize
  obtain rfl := eq_of_toOption hundef hnormalize'
  have hstart : newlines quotedStart = 1 := by decide
  have hbody : newlines quotedComment = 1 := by decide
  have hmem : k ∈ [1, 2] := by
    rw [List.mem_cons, List.mem_singleton]
    omega
  exact .inr ⟨hcode k hmem line hline, hcode' k hmem line' hline'⟩

/-- A comment and a directive in the body of a raw string are neither. -/
theorem run_rawString_body_quoted :
    Outcome.withoutCode <$> run (m := Id) none 1 []
        (document quotedStart (ascii "d") quotedComment quotedAfter) =
      Outcome.withoutCode <$> run (m := Id) none 1 []
        (document quotedStart (ascii "d") quotedUndef quotedAfter) := by
  apply run_rawString_body
  · exact standsAfter_quoted (by simp)
  · exact standsAfter_quoted (by simp)
  · decide
  · exact sameOnLines_quoted

/-! ## Bodies that make a difference -/

/-- The macros and the files that a run comes to, unless it fails. -/
def Outcome.result? (out : Outcome) : Option (List Macro × List Text) :=
  match out.fault with
  | some _ => none
  | none => some (out.state.macros.macros, out.state.files)

/-- A run tells two bodies of a raw string apart, although the scan for comments recognizes it with
the first one, and the second one has as many newlines, does not end the raw string and has no
continued line. -/
structure BodiesTell (start delimiter body body' after : Text) : Prop where
  /-- The scan for comments recognizes the raw string with the first body. -/
  scanned : ScannedAfter start delimiter body after start
  /-- The second body has as many newlines. -/
  newlines_eq : newlines body = newlines body'
  /-- The second body does not end the raw string. -/
  rawStringEnd_not_isInfix : ¬ rawStringEnd delimiter <:+: body'
  /-- The second body has no continued line. -/
  continued_not_isInfix : ¬ [Byte.backslash, Byte.newline] <:+: body'
  /-- The runs come to other macros or files, or one of them fails. -/
  result_ne :
    (run (m := Id) none 1 [] (document start delimiter body after)).result? ≠
      (run (m := Id) none 1 [] (document start delimiter body' after)).result?

/-- A start in which the two scans find other raw strings: the comment keeps an `R` from being part
of a word, and without it the quotes pair up differently. -/
def regroupedStart : Text := ascii "x/**/R\"e(\" R\"f( )e\"\n  #define Z\n"

theorem rawString_bodies_tell :
    -- A line of the body is a directive.
    BodiesTell [] [] (ascii "\n#define X\n") (ascii "\n\n") [] ∧
    -- The raw string opens on a directive.
    BodiesTell (ascii "#define X ") [] (ascii "a") (ascii "b") [] ∧
    -- The second body closes a quote that is left open before.
    BodiesTell (ascii "' ") [] (ascii "a") (ascii "'/*") [] ∧
    -- The first body closes a raw string that only the scan for white space finds.
    BodiesTell regroupedStart (ascii "d") (ascii ")f\"") [] [] := by
  have hscanned {start delimiter body : Text} (hdelimiter : Byte.openParen ∉ delimiter)
      (hstart : spliced start = start)
      (hsegments : segments (spliced (document start delimiter body [])) =
        segments start ++ [.literal (rawString delimiter (Text.unifyLineEnds body))]) :
      ScannedAfter start delimiter body [] start :=
    scannedAfter_of_segments hdelimiter hstart hsegments
  refine ⟨⟨hscanned ?_ ?_ ?_, ?_, ?_, ?_, ?_⟩, ⟨hscanned ?_ ?_ ?_, ?_, ?_, ?_, ?_⟩,
    ⟨hscanned ?_ ?_ ?_, ?_, ?_, ?_, ?_⟩, ⟨hscanned ?_ ?_ ?_, ?_, ?_, ?_, ?_⟩⟩
  all_goals decide +kernel

end HeaderMacros
