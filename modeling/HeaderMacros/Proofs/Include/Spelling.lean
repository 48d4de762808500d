import HeaderMacros.Directive
import HeaderMacros.Proofs.Text.Lines
import HeaderMacros.Proofs.Token.Lexing
import Mathlib.Control.Monad.Basic
import Mathlib.Data.List.Basic

/-!
# The two spellings of an include

An include spells a name between double quotes or between angle brackets, and there may be blanks
around a name in brackets (`Include.SpelledBy`). The reader looks for the closing quote in the one
case and for a bracket or a blank in the other, so what it accepts is `Include.ReadFrom`.

- `ofText_eq_ok_iff`: the reader accepts exactly that.
- `readFrom_iff_spelledBy_iff`: the two agree on all texts but those that are `CutShort`, where the
  blanks after the first word in the brackets do not go on to the closing bracket.
- `ofTokens_spelling_iff`: what is read of the spelling of an include.
-/

namespace HeaderMacros.Include

/-- The spellings of an include: a text that starts with the name between double quotes, or with the
name between angle brackets and with blanks around it. The name in brackets does not start or end
with a blank. -/
inductive SpelledBy : Include → Text → Prop where
  /-- A name without double quotes between two of them. -/
  | quoted {name : Text} (hname : Byte.doubleQuote ∉ name) (rest : Text) :
    SpelledBy ⟨name, .quoted⟩ (Byte.doubleQuote :: (name ++ Byte.doubleQuote :: rest))
  /-- A name without closing brackets between brackets and blanks. -/
  | angled {lead name trail : Text} (hlead : ∀ b ∈ lead, isBlank b = true) (hne : name ≠ [])
    (hname : Byte.greaterThan ∉ name) (hhead : ∀ b ∈ name.head?, isBlank b = false)
    (hlast : ∀ b ∈ name.getLast?, isBlank b = false) (htrail : ∀ b ∈ trail, isBlank b = true)
    (rest : Text) :
    SpelledBy ⟨name, .angled⟩
      (Byte.lessThan :: (lead ++ (name ++ (trail ++ Byte.greaterThan :: rest))))

/-- A byte at which the reading of a name in brackets ends. -/
def endsName (b : UInt8) : Bool := b == Byte.greaterThan || isBlank b

/-- The texts from which an include is read. After an opening bracket and blanks, the name goes on
to the first closing bracket or blank, whatever follows. -/
inductive ReadFrom : Include → Text → Prop where
  /-- A name without double quotes between two of them. -/
  | quoted {name : Text} (hname : Byte.doubleQuote ∉ name) (rest : Text) :
    ReadFrom ⟨name, .quoted⟩ (Byte.doubleQuote :: (name ++ Byte.doubleQuote :: rest))
  /-- A name in brackets up to its first end. -/
  | angled {lead name : Text} {stop : UInt8} (hlead : ∀ b ∈ lead, isBlank b = true)
    (hne : name ≠ []) (hname : ∀ b ∈ name, endsName b = false) (hstop : endsName stop = true)
    (rest : Text) :
    ReadFrom ⟨name, .angled⟩ (Byte.lessThan :: (lead ++ (name ++ stop :: rest)))

/-- The texts of which only a part of what stands in the brackets is read: after the first word of
it there are blanks, and then something other than the closing bracket. -/
inductive CutShort : Text → Prop where
  /-- The blanks, the first word, the blanks after it, and what follows them. -/
  | mk {lead word gap rest : Text} (hlead : ∀ b ∈ lead, isBlank b = true) (hne : word ≠ [])
    (hword : ∀ b ∈ word, endsName b = false) (hgap : ∀ b ∈ gap, isBlank b = true)
    (hgap_ne : gap ≠ []) (hrest : ∀ b ∈ rest.head?, endsName b = false) :
    CutShort (Byte.lessThan :: (lead ++ (word ++ (gap ++ rest))))

theorem endsName_eq_false_iff {b : UInt8} :
    endsName b = false ↔ b ≠ Byte.greaterThan ∧ isBlank b = false := by
  rw [endsName, Bool.or_eq_false_iff, beq_eq_false_iff_ne]

theorem endsName_of_isBlank {b : UInt8} (h : isBlank b = true) : endsName b = true := by
  rw [endsName, h, Bool.or_true]

/-- A name in which nothing ends it has no blanks. -/
theorem isBlank_of_mem {name : Text} (hname : ∀ b ∈ name, endsName b = false) {b : UInt8}
    (hb : b ∈ name) : isBlank b = false :=
  (endsName_eq_false_iff.1 (hname b hb)).2

/-! ## Reading -/

/-- After an opening bracket, blanks are dropped and the name goes on to the first byte that ends
it. -/
theorem ofText_angled {lead name rest : Text} (hlead : ∀ b ∈ lead, isBlank b = true)
    (hhead : ∀ b ∈ (name ++ rest).head?, isBlank b = false)
    (hname : ∀ b ∈ name, endsName b = false) (hrest : ∀ b ∈ rest.head?, endsName b = true) :
    ofText (Byte.lessThan :: (lead ++ (name ++ rest))) =
      if name = [] ∨ rest = [] then
        .error (.malformed .badInclude (Byte.lessThan :: (lead ++ (name ++ rest))))
      else .ok ⟨name, .angled⟩ := by
  -- The blanks are dropped, and the name is all that comes before its first end.
  have hdrop := (Text.span_append hlead hhead).2
  have htake : (name ++ rest).takeWhile (fun b => !(b == Byte.greaterThan || isBlank b)) = name :=
    (Text.span_append (fun b hb => (congrArg (! ·) (hname b hb) :))
      (fun b hb => (congrArg (! ·) (hrest b hb) :))).1
  rw [ofText.eq_def]
  dsimp only
  rw [if_neg (by decide), if_pos rfl, hdrop, htake]
  simp only [List.self_eq_append_right]

/-- What an include is read from is read as that include. -/
theorem ReadFrom.ofText {i : Include} {text : Text} (h : i.ReadFrom text) :
    Include.ofText text = .ok i := by
  cases h with
  | quoted hname rest =>
    rw [Include.ofText.eq_def]
    dsimp only
    rw [if_pos rfl, Text.cut?_append_sep hname]
  | @angled lead name stop hlead hne hname hstop rest =>
    have hhead : ∀ b ∈ (name ++ stop :: rest).head?, isBlank b = false := by
      rw [List.head?_append_of_ne_nil _ hne]
      exact fun b hb => isBlank_of_mem hname (List.mem_of_mem_head? hb)
    rw [ofText_angled hlead hhead hname (by rintro _ ⟨⟩; exact hstop), if_neg (by simp [hne])]

/-- A text is blanks, a name that may be empty, and what follows it. -/
theorem exists_named (text : Text) : ∃ lead name rest : Text, text = lead ++ (name ++ rest) ∧
    (∀ b ∈ lead, isBlank b = true) ∧ (∀ b ∈ (name ++ rest).head?, isBlank b = false) ∧
    (∀ b ∈ name, endsName b = false) ∧ ∀ b ∈ rest.head?, endsName b = true := by
  obtain ⟨lead, named, rfl, hlead, hhead⟩ := Text.exists_span isBlank text
  obtain ⟨name, rest, rfl, hname, hrest⟩ := Text.exists_span (fun b => !endsName b) named
  simp only [Bool.not_eq_true', Bool.not_eq_false'] at hname hrest
  exact ⟨lead, name, rest, rfl, hlead, hhead, hname, hrest⟩

/-- An include is read from a text, or the whole text is reported. -/
theorem exists_readFrom_or_ofText (text : Text) :
    (∃ i : Include, i.ReadFrom text) ∨ ofText text = .error (.malformed .badInclude text) := by
  rcases text with _ | ⟨b, text⟩
  · exact .inr rfl
  by_cases hquote : b = Byte.doubleQuote
  · subst hquote
    cases hcut : Text.cut? [Byte.doubleQuote] text with
    | some parts =>
      obtain ⟨rfl, hname⟩ := Text.cut?_sep_eq_some_iff.1 hcut
      exact .inl ⟨_, .quoted hname parts.2⟩
    | none =>
      right
      rw [ofText.eq_def]
      dsimp only
      rw [if_pos rfl, hcut]
  by_cases hopen : b = Byte.lessThan
  · subst hopen
    obtain ⟨lead, name, rest, rfl, hlead, hhead, hname, hrest⟩ := exists_named text
    -- There must be a name, and something that ends it.
    by_cases hend : name = [] ∨ rest = []
    · right
      rw [ofText_angled hlead hhead hname hrest, if_pos hend]
    · obtain ⟨hne, hrest_ne⟩ := not_or.1 hend
      obtain ⟨stop, rest, rfl⟩ := List.exists_cons_of_ne_nil hrest_ne
      exact .inl ⟨_, .angled hlead hne hname (hrest stop rfl) rest⟩
  · right
    rw [ofText.eq_def]
    dsimp only
    rw [if_neg hquote, if_neg hopen]

theorem ofText_eq_ok_iff {text : Text} {i : Include} : ofText text = .ok i ↔ i.ReadFrom text := by
  refine ⟨fun h => ?_, ReadFrom.ofText⟩
  rcases exists_readFrom_or_ofText text with ⟨j, hj⟩ | herror
  · rw [hj.ofText] at h
    cases h
    exact hj
  · rw [herror] at h
    cases h

/-! ## Where reading agrees with the spellings -/

/-- What is read is spelled, unless it is cut short. -/
theorem ReadFrom.spelledBy {i : Include} {text : Text} (h : i.ReadFrom text)
    (hshort : ¬ CutShort text) : i.SpelledBy text := by
  cases h with
  | quoted hname rest => exact .quoted hname rest
  | @angled lead name stop hlead hne hname hstop rest =>
    obtain ⟨gap, after, hafter, hgap, hhead⟩ := Text.exists_span isBlank (stop :: rest)
    rw [hafter] at hshort ⊢
    by_cases hclosed : after.head? = some Byte.greaterThan
    · obtain ⟨rest, rfl⟩ := List.head?_eq_some_iff.1 hclosed
      exact .angled hlead hne (fun hmem => absurd (hname _ hmem) (by decide))
        (fun b hb => isBlank_of_mem hname (List.mem_of_mem_head? hb))
        (fun b hb => isBlank_of_mem hname (List.mem_of_mem_getLast? hb)) hgap rest
    · have hends : ∀ b ∈ after.head?, endsName b = false := fun b hb =>
        endsName_eq_false_iff.2 ⟨fun heq => hclosed (heq ▸ hb), hhead b hb⟩
      refine absurd (.mk hlead hne hname hgap ?_ hends) hshort
      -- The byte after the name ends it, so it is one of the blanks.
      rintro rfl
      have hstop' := hends stop (by rw [← List.nil_append after, ← hafter]; rfl)
      exact Bool.false_ne_true (hstop'.symm.trans hstop)

/-- A spelling is read, unless it is one in brackets with a blank in the name. -/
theorem SpelledBy.readFrom {i : Include} {text : Text} (h : i.SpelledBy text)
    (hsolid : i.kind = .angled → ∀ b ∈ i.name, isBlank b = false) : i.ReadFrom text := by
  cases h with
  | quoted hname rest => exact .quoted hname rest
  | @angled lead name trail hlead hne hname hhead hlast htrail rest =>
    have hends : ∀ b ∈ name, endsName b = false := fun b hb =>
      endsName_eq_false_iff.2 ⟨fun heq => hname (heq ▸ hb), hsolid rfl b hb⟩
    cases trail with
    | nil => exact .angled hlead hne hends (by decide) rest
    | cons stop trail =>
      exact .angled hlead hne hends (endsName_of_isBlank (htrail stop List.mem_cons_self)) _

/-- A spelling in brackets with a blank in the name is cut short. -/
theorem SpelledBy.cutShort {i : Include} {text : Text} (h : i.SpelledBy text)
    (hangled : i.kind = .angled) {b : UInt8} (hb : b ∈ i.name) (hblank : isBlank b = true) :
    CutShort text := by
  cases h with
  | quoted hname rest => cases hangled
  | @angled lead name trail hlead hne hname hhead hlast htrail rest =>
    -- The name is a word, a blank, more blanks, and more of the name, with which it ends.
    obtain ⟨word, tail, rfl, hword, htail⟩ := Text.exists_span (fun b => !isBlank b) name
    simp only [Bool.not_eq_true', Bool.not_eq_false'] at hword htail
    rcases tail with _ | ⟨stop, tail⟩
    · rw [List.append_nil] at hb
      exact absurd hblank (Bool.eq_false_iff.1 (hword b hb))
    obtain ⟨gap, more, rfl, hgap, hmore⟩ := Text.exists_span isBlank tail
    have hgap' : ∀ b ∈ stop :: gap, isBlank b = true :=
      List.forall_mem_cons.2 ⟨htail stop rfl, hgap⟩
    have hword_ne : word ≠ [] := by
      rintro rfl
      exact Bool.false_ne_true ((hhead stop rfl).symm.trans (htail stop rfl))
    have hmore_ne : more ≠ [] := by
      rintro rfl
      rw [List.append_nil, List.getLast?_append_of_ne_nil _ (List.cons_ne_nil stop gap)] at hlast
      have hmem := List.getLast_mem (List.cons_ne_nil stop gap)
      have hnot := hlast _ (List.getLast?_eq_getLast_of_ne_nil (List.cons_ne_nil stop gap))
      exact Bool.false_ne_true (hnot.symm.trans (hgap' _ hmem))
    have hbracket : ∀ b ∈ word ++ stop :: (gap ++ more), b ≠ Byte.greaterThan :=
      fun b hb heq => hname (heq ▸ hb)
    have hends : ∀ b ∈ word, endsName b = false := fun b hb =>
      endsName_eq_false_iff.2 ⟨hbracket b (List.mem_append_left _ hb), hword b hb⟩
    have hrest : ∀ b ∈ (more ++ (trail ++ Byte.greaterThan :: rest)).head?,
        endsName b = false := by
      rw [List.head?_append_of_ne_nil _ hmore_ne]
      intro b hb
      have hmem : b ∈ more := List.mem_of_mem_head? hb
      exact endsName_eq_false_iff.2 ⟨hbracket b (by simp [hmem]), hmore b hb⟩
    have hcut := CutShort.mk hlead hword_ne hends hgap' (List.cons_ne_nil stop gap) hrest
    simpa using hcut

/-- Of a text that is cut short, a name is read that it does not spell. -/
theorem CutShort.exists_readFrom {text : Text} (h : CutShort text) :
    ∃ i : Include, i.ReadFrom text ∧ ¬ i.SpelledBy text := by
  obtain @⟨lead, word, gap, rest, hlead, hne, hword, hgap, hgap_ne, hrest⟩ := h
  refine ⟨⟨word, .angled⟩, ?_, ?_⟩
  · obtain ⟨stop, gap, rfl⟩ := List.exists_cons_of_ne_nil hgap_ne
    exact .angled hlead hne hword (endsName_of_isBlank (hgap stop List.mem_cons_self)) _
  · generalize hwhole : Byte.lessThan :: (lead ++ (word ++ (gap ++ rest))) = whole
    intro hspelled
    cases hspelled with
    | @angled lead' _ trail hlead' _ _ hhead _ htrail rest' =>
      -- Without the blanks before the name and the name, the blanks after it are left.
      have hstart (tail : Text) : ∀ b ∈ (word ++ tail).head?, isBlank b = false := by
        rw [List.head?_append_of_ne_nil _ hne]
        exact hhead
      have hnamed := congrArg (List.dropWhile isBlank) (List.cons.inj hwhole).2
      rw [(Text.span_append hlead (hstart _)).2, (Text.span_append hlead' (hstart _)).2] at hnamed
      have hblank := congrArg (List.dropWhile isBlank) (List.append_cancel_left hnamed)
      have hrest' : ∀ b ∈ rest.head?, isBlank b = false := fun b hb =>
        (endsName_eq_false_iff.1 (hrest b hb)).2
      rw [(Text.span_append hgap hrest').2,
        (Text.span_append htrail (by rintro b ⟨⟩; decide)).2] at hblank
      rw [hblank] at hrest
      exact absurd (hrest _ rfl) (by decide)

/-- The two agree exactly on the texts that are not cut short. -/
theorem readFrom_iff_spelledBy_iff (text : Text) :
    (∀ i : Include, i.ReadFrom text ↔ i.SpelledBy text) ↔ ¬ CutShort text := by
  constructor
  · intro hiff hshort
    obtain ⟨i, hread, hspelled⟩ := hshort.exists_readFrom
    exact hspelled ((hiff i).1 hread)
  · intro hshort i
    refine ⟨fun h => h.spelledBy hshort, fun h => h.readFrom fun hangled b hb => ?_⟩
    exact Bool.eq_false_iff.2 fun hblank => hshort (h.cutShort hangled hb hblank)

/-! ## What is read of tokens -/

/-- Of the spelling of an include that has one, that include is read, unless it is one in brackets
with a blank in its name. -/
theorem ofTokens_spelling_iff {i : Include} (h : i.SpelledBy i.spelling) :
    ofTokens (Token.tokenize i.spelling) = .ok i ↔
      (i.kind = .angled → ∀ b ∈ i.name, isBlank b = false) := by
  rw [ofTokens, Token.text_tokenize, ofText_eq_ok_iff]
  refine ⟨fun hread hangled b hb => ?_, h.readFrom⟩
  generalize i.spelling = text at hread
  cases hread with
  | quoted => cases hangled
  | angled _ _ hname => exact isBlank_of_mem hname hb

/-- Tokens are read as an include exactly if it is read from their text, and all other tokens are
reported as a bad include with their text. They are read by the two spellings of an include exactly
if their text is not cut short. In particular the spelling of an include is read back exactly if it
is not one in brackets with a blank in its name. -/
theorem ofTokens_eq_ok_iff_spelledBy (params : List Token) :
    (∀ i, ofTokens params = .ok i ↔ i.ReadFrom (Tokens.text params)) ∧
    ((∃ i, ofTokens params = .ok i) ∨
      ofTokens params = .error (.malformed .badInclude (Tokens.text params))) ∧
    ((∀ i, ofTokens params = .ok i ↔ i.SpelledBy (Tokens.text params)) ↔
      ¬ CutShort (Tokens.text params)) ∧
    ∀ i : Include, i.SpelledBy i.spelling →
      (ofTokens (Token.tokenize i.spelling) = .ok i ↔
        (i.kind = .angled → ∀ b ∈ i.name, isBlank b = false)) := by
  have hread (i : Include) : ofTokens params = .ok i ↔ i.ReadFrom (Tokens.text params) :=
    ofText_eq_ok_iff
  refine ⟨hread, ?_, ?_, fun i => ofTokens_spelling_iff⟩
  · exact (exists_readFrom_or_ofText (Tokens.text params)).imp_left fun ⟨i, hi⟩ => ⟨i, hi.ofText⟩
  · simp only [hread]
    exact readFrom_iff_spelledBy_iff (Tokens.text params)

/-- Of a name in brackets with a space in it, only the part before the space is read, though the
text spells the whole name. -/
theorem not_ofTokens_eq_ok_iff_spelledBy :
    ofTokens (Token.tokenize (ascii "<a b.h>")) = .ok ⟨ascii "a", .angled⟩ ∧
    (⟨ascii "a b.h", .angled⟩ : Include).SpelledBy (ascii "<a b.h>") ∧
    ¬ ∀ i, ofTokens (Token.tokenize (ascii "<a b.h>")) = .ok i ↔ i.SpelledBy (ascii "<a b.h>") := by
  have hread : ofTokens (Token.tokenize (ascii "<a b.h>")) = .ok ⟨ascii "a", .angled⟩ := by
    decide +kernel
  have hspelled : (⟨ascii "a b.h", .angled⟩ : Include).SpelledBy (ascii "<a b.h>") :=
    @SpelledBy.angled [] (ascii "a b.h") [] nofun (by decide) (by decide)
      (by rintro _ ⟨⟩; decide) (by rintro _ ⟨⟩; decide) nofun []
  refine ⟨hread, hspelled, fun hiff => ?_⟩
  have hwhole := (hiff _).2 hspelled
  rw [hread] at hwhole
  exact absurd hwhole (by decide)

end HeaderMacros.Include
