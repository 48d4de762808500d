import HeaderMacros.Proofs.Condition.Positions
import HeaderMacros.Proofs.Token.Lexing
import HeaderMacros.Proofs.Token.WithoutSpace
import Mathlib.Data.List.Basic

/-!
# Invocations

An invocation succeeds exactly if the macro takes arguments, its replacement is free of the variadic
marker, and the arguments are as many as the parameters (`substitute_eq_ok_iff`). What it comes to
is then known from the replacement alone: every token of it is looked at once, and what an argument
puts in its place is not looked at again.

So the names of the parameters do not matter: others can be taken for them, as long as they are kept
apart from each other and from the rest of the replacement (`substitute_renameParams`). Nothing is
asked of the arguments, which may well have tokens with the old names or with the new ones.
-/

namespace HeaderMacros.Condition

variable {name : Text} {m : Macro} {params : List Text} {argTokens body : List Token}

/-! ## Success -/

/-- The tokens between the parentheses of an invocation are as many groups as the parameters ask
for: white space only if there are none, any number of further groups if the last one is the
variadic marker, and one group for each of them otherwise. -/
def Accepts (params : List Text) (argTokens : List Token) : Prop :=
  if params = [] then
    ∃ group, Tokens.splitOnCommas argTokens = [group] ∧ ∀ t ∈ group, t.isSpace = true
  else if params.getLast? = some ellipsis then
    params.length - 1 ≤ (Tokens.splitOnCommas argTokens).length
  else (Tokens.splitOnCommas argTokens).length = params.length

theorem isSpace_of_trim_eq_nil {ts : List Token} :
    Tokens.trim ts = [] ↔ ∀ t ∈ ts, t.isSpace = true := by
  simp [Tokens.trim_eq_nil_iff, Tokens.withoutSpace]

/-- A single group between commas is blank if all the tokens are. -/
theorem exists_blank_group_iff :
    (∃ group, Tokens.splitOnCommas argTokens = [group] ∧ ∀ t ∈ group, t.isSpace = true) ↔
      (Tokens.splitOnCommas argTokens).length = 1 ∧ Tokens.trim argTokens = [] := by
  rw [isSpace_of_trim_eq_nil]
  constructor
  · rintro ⟨group, hgroups, hblank⟩
    have hone : (Tokens.splitOnCommas argTokens).length = 1 := by rw [hgroups]; rfl
    rw [Tokens.splitOnCommas_eq_singleton hone] at hgroups
    obtain rfl := List.singleton_inj.1 hgroups
    exact ⟨hone, hblank⟩
  · rintro ⟨hone, hblank⟩
    exact ⟨argTokens, Tokens.splitOnCommas_eq_singleton hone, hblank⟩

theorem checkArguments_eq_ok_iff (hparams : m.params = some params) :
    checkArguments name m params argTokens (Tokens.splitOnCommas argTokens) = .ok () ↔
      Accepts params argTokens := by
  have hvariadic : m.isVariadic = true ↔ params.getLast? = some ellipsis := by
    simp [Macro.isVariadic, hparams]
  rw [checkArguments, Accepts, exists_blank_group_iff]
  by_cases hempty : params = []
  · rw [if_pos hempty, if_pos hempty]
    split_ifs with haccepted <;> simp [haccepted]
  rw [if_neg hempty, if_neg hempty]
  by_cases hmarker : params.getLast? = some ellipsis
  · rw [if_pos (hvariadic.2 hmarker), if_pos hmarker]
    split_ifs with haccepted <;> simp [haccepted]
  · rw [if_neg (mt hvariadic.1 hmarker), if_neg hmarker]
    split_ifs with haccepted <;> simp [haccepted]

/-- When an invocation succeeds, and what it comes to. -/
theorem substitute_eq_ok_iff :
    substitute name m argTokens = .ok body ↔
      ∃ params, m.params = some params ∧ (∀ t ∈ m.value, t.text ≠ ellipsis) ∧
        Accepts params argTokens ∧
        body = m.value.flatMap (substituteToken params (Tokens.splitOnCommas argTokens)) := by
  unfold substitute
  cases hparams : m.params with
  | none => simp
  | some params =>
    have hmarker : (m.value.any fun t => t.is ellipsis) = true ↔
        ¬ ∀ t ∈ m.value, t.text ≠ ellipsis := by
      simp [Token.is]
    have haccepts :
        checkArguments name m params argTokens (Tokens.splitOnCommas argTokens) = .ok () ↔
          Accepts params argTokens := checkArguments_eq_ok_iff hparams
    simp only [Option.some.injEq, exists_eq_left', bind, Except.bind]
    cases hcheck : checkArguments name m params argTokens (Tokens.splitOnCommas argTokens) with
    | error cause =>
      rw [hcheck] at haccepts
      have hrefused : ¬ Accepts params argTokens := by
        intro h
        cases haccepts.2 h
      simp [hrefused]
    | ok accepted =>
      rw [hcheck] at haccepts
      have haccepted : Accepts params argTokens := haccepts.1 rfl
      -- The arguments are accepted; what can still fail is a variadic marker in the replacement.
      by_cases hfree : ∀ t ∈ m.value, t.text ≠ ellipsis
      · rw [if_neg (by rwa [hmarker, not_not])]
        simp only [Except.ok.injEq, haccepted, true_and, and_iff_right hfree]
        exact eq_comm
      · rw [if_pos (hmarker.2 hfree)]
        simp [hfree]

/-! ## Other names for the parameters -/

/-- The names of the parameters of a macro, without the variadic marker. -/
def paramNames (m : Macro) : List Text := (m.params.getD []).filter (· ≠ ellipsis)

/-- A parameter under another name; the variadic marker keeps its own. -/
def renameParam (rename : Text → Text) (p : Text) : Text := if p = ellipsis then p else rename p

/-- A token of a replacement with another name for a parameter. -/
def renameToken (names : List Text) (rename : Text → Text) (t : Token) : Token :=
  if names.contains t.text then Token.classify (rename t.text) else t

/-- A macro with other names for its parameters, in their list and in the replacement. -/
def renameParams (rename : Text → Text) (m : Macro) : Macro where
  name := m.name
  params := m.params.map (List.map (renameParam rename))
  value := m.value.map (renameToken (paramNames m) rename)

/-- Names that can be taken for the parameters of a macro. -/
structure Renames (rename : Text → Text) (m : Macro) : Prop where
  /-- They are words. -/
  word : ∀ p ∈ paramNames m, (Token.classify (rename p)).isWord = true
  /-- Two parameters have two names. -/
  distinct : ∀ p ∈ paramNames m, ∀ q ∈ paramNames m, rename p = rename q → p = q
  /-- No token of the replacement that is no parameter has one of them. -/
  fresh : ∀ p ∈ paramNames m, ∀ t ∈ m.value, t.text ∉ paramNames m → t.text ≠ rename p

theorem renameToken_of_mem {names : List Text} {rename : Text → Text} {t : Token}
    (h : t.text ∈ names) : renameToken names rename t = Token.classify (rename t.text) :=
  if_pos (List.contains_iff_mem.2 h)

theorem renameToken_of_notMem {names : List Text} {rename : Text → Text} {t : Token}
    (h : t.text ∉ names) : renameToken names rename t = t :=
  if_neg (mt List.contains_iff_mem.1 h)

theorem findIdx?_congr {p q : Text → Bool} {names : List Text} (h : ∀ n ∈ names, p n = q n) :
    names.findIdx? p = names.findIdx? q := by
  induction names with
  | nil => rfl
  | cons n names ih =>
    obtain ⟨hn, hrest⟩ := List.forall_mem_cons.1 h
    rw [List.findIdx?_cons, List.findIdx?_cons, hn, ih hrest]

theorem mem_paramNames (hparams : m.params = some params) {p : Text} :
    p ∈ paramNames m ↔ p ∈ params ∧ p ≠ ellipsis := by
  simp [paramNames, hparams]

namespace Renames

variable {rename : Text → Text}

theorem ne_ellipsis (h : Renames rename m) {p : Text} (hp : p ∈ paramNames m) :
    rename p ≠ ellipsis := by
  intro heq
  have hword := h.word p hp
  rw [heq] at hword
  exact absurd hword (by decide)

theorem text_renameToken_ne_ellipsis (h : Renames rename m) {t : Token} (ht : t.text ≠ ellipsis) :
    (renameToken (paramNames m) rename t).text ≠ ellipsis := by
  by_cases hparam : t.text ∈ paramNames m
  · rw [renameToken_of_mem hparam, Token.text_classify]
    exact h.ne_ellipsis hparam
  · rwa [renameToken_of_notMem hparam]

/-- A parameter has a new name exactly where it had the old one. -/
theorem eq_text_renameToken_iff (h : Renames rename m) {t : Token} (ht : t ∈ m.value) {p : Text}
    (hp : p ∈ paramNames m) :
    rename p = (renameToken (paramNames m) rename t).text ↔ p = t.text := by
  by_cases hparam : t.text ∈ paramNames m
  · rw [renameToken_of_mem hparam, Token.text_classify]
    exact ⟨h.distinct p hp t.text hparam, congrArg rename⟩
  · rw [renameToken_of_notMem hparam]
    refine iff_of_false (fun heq => h.fresh p hp t ht hparam heq.symm) ?_
    rintro rfl
    exact hparam hp

/-- A token of the replacement stands for the same parameter as before. -/
theorem parameterIndex?_eq (h : Renames rename m) (hparams : m.params = some params) {t : Token}
    (ht : t ∈ m.value) :
    parameterIndex? (params.map (renameParam rename))
      (renameToken (paramNames m) rename t).text = parameterIndex? params t.text := by
  rw [parameterIndex?, parameterIndex?, List.findIdx?_map]
  refine findIdx?_congr fun p hp => ?_
  rw [Function.comp_apply, Bool.eq_iff_iff, Bool.and_eq_true, Bool.and_eq_true, beq_iff_eq,
    beq_iff_eq, bne_iff_ne, bne_iff_ne]
  by_cases hmarker : p = ellipsis
  · simp [renameParam, hmarker]
  · have hname : p ∈ paramNames m := (mem_paramNames hparams).2 ⟨hp, hmarker⟩
    rw [renameParam, if_neg hmarker, h.eq_text_renameToken_iff ht hname]
    exact and_congr_right fun _ => iff_of_true (h.ne_ellipsis hname) hmarker

theorem substituteToken_eq (h : Renames rename m) (hparams : m.params = some params)
    (args : List (List Token)) {t : Token} (ht : t ∈ m.value) :
    substituteToken (params.map (renameParam rename)) args
      (renameToken (paramNames m) rename t) = substituteToken params args t := by
  rw [substituteToken, substituteToken, h.parameterIndex?_eq hparams ht]
  cases hindex : parameterIndex? params t.text with
  | some i => rfl
  | none =>
    -- A token that stands for no parameter has no new name either.
    have hother : t.text ∉ paramNames m := fun hname => by
      obtain ⟨hmem, hmarker⟩ := (mem_paramNames hparams).1 hname
      have hnone := List.findIdx?_eq_none_iff.1 hindex t.text hmem
      simp [hmarker] at hnone
    rw [renameToken_of_notMem hother]

theorem accepts_iff (h : Renames rename m) (hparams : m.params = some params) :
    Accepts (params.map (renameParam rename)) argTokens ↔
      Accepts params argTokens := by
  have hmarker : (params.map (renameParam rename)).getLast? = some ellipsis ↔
      params.getLast? = some ellipsis := by
    rw [List.getLast?_map, Option.map_eq_some_iff]
    constructor
    · rintro ⟨p, hp, heq⟩
      rw [renameParam] at heq
      split_ifs at heq with hp'
      · rw [hp, hp']
      · have hname : p ∈ paramNames m :=
          (mem_paramNames hparams).2 ⟨List.mem_of_getLast? hp, hp'⟩
        exact absurd heq (h.ne_ellipsis hname)
    · intro hlast
      exact ⟨ellipsis, hlast, if_pos rfl⟩
  simp only [Accepts, List.map_eq_nil_iff, hmarker, List.length_map]

/-- An invocation that succeeds comes to the same with other names for the parameters. -/
theorem substitute_renameParams (h : Renames rename m)
    (hbody : substitute name m argTokens = .ok body) :
    substitute name (renameParams rename m) argTokens = .ok body := by
  obtain ⟨params, hparams, hfree, haccepted, rfl⟩ := substitute_eq_ok_iff.1 hbody
  refine substitute_eq_ok_iff.2 ⟨_, ?_, ?_, (h.accepts_iff hparams).2 haccepted, ?_⟩
  · rw [renameParams, hparams]
    rfl
  · intro t ht
    obtain ⟨old, hold, rfl⟩ := List.mem_map.1 ht
    exact h.text_renameToken_ne_ellipsis (hfree old hold)
  · rw [renameParams, List.flatMap_map]
    exact (List.flatMap_congr fun t ht => h.substituteToken_eq hparams _ ht).symm

end Renames

/-- An invocation never asks for an argument that is not there. It succeeds exactly if the macro
takes arguments, its replacement is free of the variadic marker, and the arguments are as many as
the parameters. What it comes to does not depend on the names of the parameters. -/
theorem substitute_simultaneous (name : Text) (m : Macro) (argTokens : List Token) :
    substituteAt? name m argTokens = some (substitute name m argTokens) ∧
    ((∃ body, substitute name m argTokens = .ok body) ↔
      ∃ params, m.params = some params ∧ (∀ t ∈ m.value, t.text ≠ ellipsis) ∧
        Accepts params argTokens) ∧
    ∀ body rename, substitute name m argTokens = .ok body → Renames rename m →
      substitute name (renameParams rename m) argTokens = .ok body := by
  refine ⟨substituteAt?_eq_some name m argTokens, ⟨?_, ?_⟩, ?_⟩
  · rintro ⟨body, hbody⟩
    obtain ⟨params, hparams, hfree, haccepted, -⟩ := substitute_eq_ok_iff.1 hbody
    exact ⟨params, hparams, hfree, haccepted⟩
  · rintro ⟨params, hparams, hfree, haccepted⟩
    exact ⟨_, substitute_eq_ok_iff.2 ⟨params, hparams, hfree, haccepted, rfl⟩⟩
  · intro body rename hbody h
    exact h.substitute_renameParams hbody

/-- A macro that has the same parameter twice and the variadic marker twice. -/
def doubledMacro : Macro :=
  ⟨ascii "F", some (["x", "...", "y", "x", "..."].map ascii), Token.tokenize (ascii "y x z")⟩

/-- Arguments with the name of a parameter, and with a new name for it. -/
def crossedArguments : List Token := Token.tokenize (ascii "y,,new_x,")

theorem substitute_simultaneous_doubledMacro :
    substitute (ascii "F") doubledMacro crossedArguments =
        .ok (Token.tokenize (ascii "new_x y z")) ∧
      Renames (ascii "new_" ++ ·) doubledMacro ∧
      (renameParams (ascii "new_" ++ ·) doubledMacro).value =
        Token.tokenize (ascii "new_y new_x z") ∧
      substitute (ascii "F") (renameParams (ascii "new_" ++ ·) doubledMacro) crossedArguments =
        .ok (Token.tokenize (ascii "new_x y z")) := by
  have hbody : substitute (ascii "F") doubledMacro crossedArguments =
      .ok (Token.tokenize (ascii "new_x y z")) := by decide +kernel
  have hnames : Renames (ascii "new_" ++ ·) doubledMacro :=
    ⟨by decide +kernel, by decide +kernel, by decide +kernel⟩
  exact ⟨hbody, hnames, by decide +kernel,
    (substitute_simultaneous (ascii "F") doubledMacro crossedArguments).2.2 _ _ hbody hnames⟩

end HeaderMacros.Condition
