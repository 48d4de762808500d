import HeaderMacros.Proofs.Condition.Expansion
import Mathlib.Data.List.Induction

/-!
# Conditions by positions

The steps of expansion and reduction, told by positions in token lists. Everything that is looked up
by its position may be missing: a token, a stretch of tokens, an argument of an invocation, the first
byte of a word. `none` stands for a position out of range.

No step meets one, and each step by positions is the step itself:

* `expandAt?_eq_some`: a step of expansion, on tokens of which no word is empty.
* `stepAt?_eq_some`: a step of reduction, on any tokens.
-/

namespace HeaderMacros.Condition

/-- The tokens from one position up to another one. -/
def slice? (ts : List Token) (start stop : Nat) : Option (List Token) :=
  if start ≤ stop ∧ stop ≤ ts.length then some ((ts.take stop).drop start) else none

/-- The tokens up to a position. -/
def take? (ts : List Token) (stop : Nat) : Option (List Token) :=
  if stop ≤ ts.length then some (ts.take stop) else none

/-- The tokens from a position on. -/
def drop? (ts : List Token) (start : Nat) : Option (List Token) :=
  if start ≤ ts.length then some (ts.drop start) else none

/-- The token before a position. -/
def previous? (ts : List Token) : Nat → Option Token
  | 0 => none
  | i + 1 => ts[i]?

/-- Whether a token is a name, told by its first byte if it is a word. -/
def isIdentAt? (t : Token) : Option Bool :=
  if t.isWord then t.text[0]?.map fun b => !Byte.isDigit b else some false

/-! ## Expansion -/

/-- The position of the last token before a position that is not white space, if there is one. -/
def beforeSpace? (ts : List Token) : Nat → Option (Option Nat)
  | 0 => some none
  | i + 1 => do
    let t ← ts[i]?
    if t.isSpace then beforeSpace? ts i else return some i

/-- The position of the first token from a position on that is not white space, or the end. -/
def afterSpace? (ts : List Token) (i : Nat) : Option Nat :=
  if i < ts.length then do
    let t ← ts[i]?
    if t.isSpace then afterSpace? ts (i + 1) else return i
  else some i
termination_by ts.length - i

/-- The position of the first name, if there is one, where `i` tokens have been passed. -/
def nameFrom? (i : Nat) : List Token → Option (Option Nat)
  | [] => some none
  | t :: rest => do
    if ← isIdentAt? t then return some i else nameFrom? (i + 1) rest

/-- Whether a macro accepts arguments. -/
def checkArgumentsAt? (name : Text) (m : Macro) (params : List Text) (argTokens : List Token)
    (args : List (List Token)) : Option (Except Cause Unit) :=
  if params = [] ∧ args.length = 1 then do
    let only ← args[0]?
    return if Tokens.trim only = [] then .ok ()
      else .error (.malformed (.unexpectedArguments name) (Tokens.text argTokens))
  else some (checkArguments name m params argTokens args)

/-- A token of a replacement with the arguments put in. -/
def substituteTokenAt? (params : List Text) (args : List (List Token)) (t : Token) :
    Option (List Token) :=
  match parameterIndex? params t.text with
  | some i => args[i]?
  | none => some [t]

/-- The tokens of a replacement with the arguments put in. -/
def substituteTokensAt? (name : Text) (m : Macro) (params : List Text) (args : List (List Token)) :
    List Token → Option (Except Cause (List Token))
  | [] => some (.ok [])
  | t :: rest =>
    if t.is ellipsis then some (.error (.malformed (.variadicMarker name) (Tokens.text m.value)))
    else do
      let first ← substituteTokenAt? params args t
      let others ← substituteTokensAt? name m params args rest
      return others.map (first ++ ·)

/-- The replacement of an invocation. -/
def substituteAt? (name : Text) (m : Macro) (argTokens : List Token) :
    Option (Except Cause (List Token)) :=
  match m.params with
  | none => some (.error (.malformed (.notFunctionLike name) (Tokens.text argTokens)))
  | some params => do
    let args := Tokens.splitOnCommas argTokens
    match ← checkArgumentsAt? name m params argTokens args with
    | .error cause => return .error cause
    | .ok () => substituteTokensAt? name m params args m.value

/-- One expansion step on tokens without an opening parenthesis. -/
def expandNameAt? (lookup : Lookup) (ts : List Token) : Option (Except Cause Progress) := do
  match ← nameFrom? 0 ts with
  | none => return .ok .finished
  | some i =>
    let front ← take? ts i
    let name ← ts[i]?
    match lookup name.text with
    | .definedOperator =>
      let j ← afterSpace? ts (i + 1)
      if j = ts.length then return .error (.malformed .definedWithoutName (Tokens.text ts))
      else
        let tested ← ts[j]?
        if ← isIdentAt? tested then
          let rest ← drop? ts (j + 1)
          return .ok (.expanded
            (front ++ Token.ofBool (lookup tested.text != .undefined) :: rest))
        else return .error (.malformed .definedWithoutName (Tokens.text ts))
    | meaning =>
      let after ← drop? ts (i + 1)
      return .ok (.expanded (front ++ (meaning.toMacro.value ++ after)))

/-- One expansion step at the parentheses that open and close at the given positions. -/
def expandGroupAt? (lookup : Lookup) (ts : List Token) (opening closing : Nat) :
    Option (Except Cause Progress) := do
  let before ← take? ts opening
  let inner ← slice? ts (opening + 1) closing
  let after ← drop? ts (closing + 1)
  match ← beforeSpace? ts opening with
  | none => return .ok (.nested before.reverse inner after)
  | some i =>
    let name ← ts[i]?
    if ← isIdentAt? name then
      let front ← take? ts i
      let body ← substituteAt? name.text (lookup name.text).toMacro inner
      return body.map fun body => .expanded (front ++ (body ++ after))
    else return .ok (.nested before.reverse inner after)

/-- One expansion step. -/
def expandAt? (lookup : Lookup) (ts : List Token) : Option (Except Cause Progress) :=
  match Tokens.lastIndex? [Byte.openParen] ts with
  | none => expandNameAt? lookup ts
  | some opening =>
    match Tokens.indexFrom? [Byte.closeParen] (opening + 1) ts with
    | none => some (.error (.malformed .unmatchedParenthesis (Tokens.text ts)))
    | some closing => expandGroupAt? lookup ts opening closing

/-! ## Reduction -/

/-- The position of the leftmost negation of a word, from a position on. -/
def negationFrom? (ts : List Token) (i : Nat) : Option (Option Nat) :=
  if i + 1 < ts.length then do
    let sign ← ts[i]?
    let x ← ts[i + 1]?
    if sign.is notSymbol && x.isWord then return some i else negationFrom? ts (i + 1)
  else some none
termination_by ts.length - i

/-- The position of the leftmost occurrence of an operator between two words, from a position on. -/
def operatorFrom? (op : BinaryOp) (ts : List Token) (i : Nat) : Option (Option Nat) :=
  if i + 1 < ts.length then do
    let sign ← ts[i]?
    let y ← ts[i + 1]?
    if sign.is op.symbol && y.isWord then
      -- The operand on the left is looked at last.
      let x ← previous? ts i
      if x.isWord then return some i else operatorFrom? op ts (i + 1)
    else operatorFrom? op ts (i + 1)
  else some none
termination_by ts.length - i

/-- One step of reduction by the first of some operators that applies. -/
def operatorStepAt? (ts : List Token) :
    List BinaryOp → Option (Except Cause (Option (List Token)))
  | [] => some (.ok none)
  | op :: others => do
    match ← operatorFrom? op ts 1 with
    | none => operatorStepAt? ts others
    | some i =>
      let x ← previous? ts i
      let y ← ts[i + 1]?
      let before ← take? ts (i - 1)
      let after ← drop? ts (i + 2)
      return (Operation.binary op x y).value.map fun n =>
        some (before ++ resultToken n :: after)

/-- One step of reduction. -/
def stepAt? (ts : List Token) : Option (Except Cause (Option (List Token))) := do
  match ← negationFrom? ts 0 with
  | some i =>
    let x ← ts[i + 1]?
    let before ← take? ts i
    let after ← drop? ts (i + 2)
    return (Operation.negation x).value.map fun n => some (before ++ resultToken n :: after)
  | none => operatorStepAt? ts BinaryOp.all

/-! ## Looking up positions in range -/

theorem slice?_append (front inner back : List Token) (start stop : Nat)
    (hstart : front.length = start) (hstop : front.length + inner.length = stop) :
    slice? (front ++ (inner ++ back)) start stop = some inner := by
  subst hstart hstop
  have hlen : front.length + inner.length ≤ (front ++ (inner ++ back)).length := by
    simp only [List.length_append]
    omega
  rw [slice?, if_pos ⟨Nat.le_add_right _ _, hlen⟩, ← List.append_assoc, ← List.length_append,
    List.take_left, List.drop_left]

theorem take?_append (front back : List Token) {stop : Nat} (hstop : front.length = stop) :
    take? (front ++ back) stop = some front := by
  subst hstop
  simp [take?]

theorem drop?_append (front back : List Token) (start : Nat) (hstart : front.length = start) :
    drop? (front ++ back) start = some back := by
  subst hstart
  simp [drop?]

theorem lastIndex?_append {text : Text} {t : Token} {rest : List Token} (ht : t.is text = true)
    (hrest : ∀ u ∈ rest, u.is text = false) (front : List Token) :
    Tokens.lastIndex? text (front ++ t :: rest) = some front.length := by
  have hnone : rest.reverse.findIdx? (fun u => u.is text) = none := by
    simpa [List.findIdx?_eq_none_iff] using hrest
  rw [Tokens.lastIndex?, List.reverse_append, List.reverse_cons, List.append_assoc,
    List.findIdx?_append, hnone]
  simp [List.findIdx?_cons, ht]

theorem lastIndex?_eq_none {text : Text} {ts : List Token} (h : ∀ u ∈ ts, u.is text = false) :
    Tokens.lastIndex? text ts = none := by
  have hnone : ts.reverse.findIdx? (fun u => u.is text) = none := by
    simpa [List.findIdx?_eq_none_iff] using h
  rw [Tokens.lastIndex?, hnone]
  rfl

theorem indexFrom?_append {text : Text} {t : Token} {front inner : List Token} {start : Nat}
    (hstart : front.length = start) (hinner : ∀ u ∈ inner, u.is text = false)
    (ht : t.is text = true) (after : List Token) :
    Tokens.indexFrom? text start (front ++ (inner ++ t :: after)) =
      some (front.length + inner.length) := by
  subst hstart
  have hnone : inner.findIdx? (fun u => u.is text) = none := by
    simpa [List.findIdx?_eq_none_iff] using hinner
  rw [Tokens.indexFrom?, List.drop_left, List.findIdx?_append, hnone]
  simp [List.findIdx?_cons, ht, Nat.add_comm]

theorem indexFrom?_eq_none {text : Text} {front back : List Token} {start : Nat}
    (hstart : front.length = start) (h : ∀ u ∈ back, u.is text = false) :
    Tokens.indexFrom? text start (front ++ back) = none := by
  subst hstart
  have hnone : back.findIdx? (fun u => u.is text) = none := by
    simpa [List.findIdx?_eq_none_iff] using h
  rw [Tokens.indexFrom?, List.drop_left, hnone]
  rfl

/-- A word that is not empty has a first byte. -/
theorem isIdentAt?_eq_some {t : Token} (h : t.isWord = true → t.text ≠ []) :
    isIdentAt? t = some t.isIdent := by
  obtain ⟨kind, text⟩ := t
  by_cases hword : kind = .word
  · subst hword
    cases text with
    | nil => exact absurd rfl (h rfl)
    | cons b rest => rfl
  · simp [isIdentAt?, Token.isWord, Token.isIdent, hword]

theorem beforeSpace?_append (front back : List Token) :
    beforeSpace? (front ++ back) front.length =
      some (match Tokens.trimLeft front.reverse with
        | [] => none
        | _ :: others => some others.length) := by
  -- The search goes from the parenthesis back, so the tokens are taken from the last one on.
  induction front using List.reverseRecOn generalizing back with
  | nil => rfl
  | append_singleton front t ih =>
    have hlen : (front ++ [t]).length = front.length + 1 := by simp
    rw [hlen, beforeSpace?, List.append_assoc, List.reverse_append]
    by_cases hspace : t.isSpace = true
    · simpa [hspace, Tokens.trimLeft] using ih (t :: back)
    · simp [hspace, Tokens.trimLeft]

theorem afterSpace?_append (front back : List Token) :
    afterSpace? (front ++ back) front.length =
      some (front.length + (back.takeWhile Token.isSpace).length) := by
  induction back generalizing front with
  | nil => simp [afterSpace?]
  | cons t back ih =>
    rw [afterSpace?, if_pos (by simp)]
    by_cases hspace : t.isSpace = true
    · have hnext := ih (front ++ [t])
      simp only [List.append_assoc, List.singleton_append, List.length_append,
        List.length_singleton] at hnext
      simp only [List.getElem?_append_right (Nat.le_refl _), Nat.sub_self, List.getElem?_cons_zero,
        hspace, if_true, hnext, List.takeWhile_cons_of_pos, List.length_cons, Option.bind_eq_bind,
        Option.bind_some, Option.some.injEq]
      omega
    · simp [hspace]

theorem nameFrom?_eq_some {ts : List Token} (h : ∀ t ∈ ts, t.isWord = true → t.text ≠ [])
    (i : Nat) :
    nameFrom? i ts = some (match ts.dropWhile fun t => !t.isIdent with
      | [] => none
      | _ :: _ => some (i + (ts.takeWhile fun t => !t.isIdent).length)) := by
  induction ts generalizing i with
  | nil => rfl
  | cons t ts ih =>
    rw [nameFrom?, isIdentAt?_eq_some (h t List.mem_cons_self)]
    by_cases hident : t.isIdent = true
    · simp [hident]
    · have hnext := ih (fun u hu => h u (List.mem_cons_of_mem t hu)) (i + 1)
      rw [Bool.not_eq_true] at hident
      simp only [Option.bind_eq_bind, Option.bind_some, hident, Bool.false_eq_true, if_false, hnext,
        List.dropWhile_cons, List.takeWhile_cons, Bool.not_false, if_true, List.length_cons]
      split
      · rfl
      · rw [Nat.add_assoc, Nat.add_comm 1]

/-! ## Expansion meets no position out of range -/

theorem checkArgumentsAt?_eq_some (name : Text) (m : Macro) (params : List Text)
    (argTokens : List Token) :
    checkArgumentsAt? name m params argTokens (Tokens.splitOnCommas argTokens) =
      some (checkArguments name m params argTokens (Tokens.splitOnCommas argTokens)) := by
  rw [checkArgumentsAt?]
  split
  · rename_i h
    rw [Tokens.splitOnCommas_eq_singleton h.2, checkArguments, if_pos h.1]
    simp
  · rfl

/-- Accepted arguments reach as far as the parameters that a replacement can name: the variadic
marker, which may lack an argument, stands behind them. -/
theorem lt_length_of_checkArguments {name : Text} {m : Macro} {params : List Text}
    {argTokens : List Token} {args : List (List Token)} (hm : m.params = some params)
    (h : checkArguments name m params argTokens args = .ok ()) {text : Text} {i : Nat}
    (hi : parameterIndex? params text = some i) : i < args.length := by
  obtain ⟨hlt, hname, -⟩ := List.findIdx?_eq_some_iff_getElem.1 hi
  rw [Bool.and_eq_true, bne_iff_ne] at hname
  have hparams : params ≠ [] := List.ne_nil_of_length_pos (Nat.zero_lt_of_lt hlt)
  rw [checkArguments, if_neg hparams] at h
  split at h
  · rename_i hvariadic
    have hlast : params[params.length - 1]? = some ellipsis := by
      simpa [Macro.isVariadic, hm, List.getLast?_eq_getElem?] using hvariadic
    -- The last parameter is the marker, which no token of a replacement stands for.
    have hne : i ≠ params.length - 1 := by
      rintro rfl
      rw [List.getElem?_eq_getElem hlt, Option.some.injEq] at hlast
      exact hname.2 hlast
    split at h
    · omega
    · cases h
  · split at h
    · omega
    · cases h

theorem substituteTokensAt?_eq_some {name : Text} {m : Macro} {params : List Text}
    {args : List (List Token)}
    (hargs : ∀ text i, parameterIndex? params text = some i → i < args.length)
    (value : List Token) :
    substituteTokensAt? name m params args value =
      some (if value.any fun t => t.is ellipsis then
          .error (.malformed (.variadicMarker name) (Tokens.text m.value))
        else .ok (value.flatMap (substituteToken params args))) := by
  induction value with
  | nil => rfl
  | cons t value ih =>
    have hfirst : substituteTokenAt? params args t = some (substituteToken params args t) := by
      rw [substituteTokenAt?, substituteToken]
      cases hindex : parameterIndex? params t.text with
      | none => rfl
      | some i => simp [hargs t.text i hindex]
    rw [substituteTokensAt?, ih]
    by_cases hdots : t.is ellipsis = true
    · simp [hdots]
    · rw [if_neg hdots, hfirst]
      by_cases hmore : value.any fun t => t.is ellipsis
      · simp [hdots, hmore, Except.map]
      · simp [hdots, hmore, Except.map]

theorem substituteAt?_eq_some (name : Text) (m : Macro) (argTokens : List Token) :
    substituteAt? name m argTokens = some (substitute name m argTokens) := by
  unfold substituteAt? substitute
  cases hm : m.params with
  | none => rfl
  | some params =>
    simp only [checkArgumentsAt?_eq_some, Option.bind_eq_bind, Option.bind_some]
    cases hcheck : checkArguments name m params argTokens (Tokens.splitOnCommas argTokens) with
    | error cause => rfl
    | ok accepted =>
      exact substituteTokensAt?_eq_some
        (fun text i hi => lt_length_of_checkArguments hm hcheck hi) m.value

theorem expandNameAt?_eq_some {lookup : Lookup} {ts : List Token}
    (hwords : ∀ t ∈ ts, t.isWord = true → t.text ≠ [])
    (hopen : ∀ t ∈ ts, t.is [Byte.openParen] = false) :
    expandNameAt? lookup ts = some (expandOnce lookup ts) := by
  rw [expandNameAt?, expandOnce, Tokens.splitLast?_eq_none_iff.2 hopen, nameFrom?_eq_some hwords]
  have hwhole := List.takeWhile_append_dropWhile (p := fun t : Token => !t.isIdent) (l := ts)
  generalize ts.takeWhile (fun t => !t.isIdent) = front at hwhole ⊢
  generalize ts.dropWhile (fun t => !t.isIdent) = back at hwhole ⊢
  subst hwhole
  cases back with
  | nil => rfl
  | cons name after =>
    have hname : (front ++ name :: after)[front.length]? = some name := by simp
    have hafter : drop? (front ++ name :: after) (front.length + 1) = some after := by
      simpa using drop?_append (front ++ [name]) after (front.length + 1) (by simp)
    simp only [Option.bind_eq_bind, Option.bind_some, Nat.zero_add, take?_append front _ rfl, hname]
    rw [replaceName]
    cases hmeaning : lookup name.text with
    | undefined | defined m => simp [hafter]
    | definedOperator =>
      -- The tested token is the first one after the white space behind the operator.
      have hspace := afterSpace?_append (front ++ [name]) after
      rw [List.append_assoc, List.singleton_append, List.length_append, List.length_singleton]
        at hspace
      have hsplit := List.takeWhile_append_dropWhile (p := Token.isSpace) (l := after)
      rw [Tokens.trimLeft]
      generalize after.takeWhile Token.isSpace = spaces at hspace hsplit
      generalize after.dropWhile Token.isSpace = tail at hsplit ⊢
      subst hsplit
      simp only [hspace, Option.bind_some]
      cases tail with
      | nil =>
        have hend : front.length + 1 + spaces.length = (front ++ name :: (spaces ++ [])).length := by
          simp
          omega
        rw [if_pos hend]
        rfl
      | cons tested rest =>
        have hlen : (front ++ name :: spaces).length = front.length + 1 + spaces.length := by
          simp
          omega
        have hassoc : front ++ name :: (spaces ++ tested :: rest) =
            (front ++ name :: spaces) ++ tested :: rest := by simp
        have htested : (front ++ name :: (spaces ++ tested :: rest))[front.length + 1 +
            spaces.length]? = some tested := by
          rw [hassoc, ← hlen]
          simp
        have hrest : drop? (front ++ name :: (spaces ++ tested :: rest))
            (front.length + 1 + spaces.length + 1) = some rest := by
          simpa using drop?_append (front ++ name :: (spaces ++ [tested])) rest
            (front.length + 1 + spaces.length + 1) (by simp; omega)
        have hbelow : front.length + 1 + spaces.length ≠
            (front ++ name :: (spaces ++ tested :: rest)).length := by
          simp
          omega
        have hident := isIdentAt?_eq_some (hwords tested (by simp))
        simp only [if_neg hbelow, htested, hident, hrest, Option.bind_some]
        cases tested.isIdent <;> rfl

theorem expandGroupAt?_eq_some {lookup : Lookup} {front inner after : List Token}
    {opening closing : Token} (hwords : ∀ t ∈ front, t.isWord = true → t.text ≠ []) :
    expandGroupAt? lookup (front ++ opening :: (inner ++ closing :: after)) front.length
        (front.length + 1 + inner.length) =
      some (expandGroup lookup front.reverse inner after) := by
  have hinner : slice? (front ++ opening :: (inner ++ closing :: after)) (front.length + 1)
      (front.length + 1 + inner.length) = some inner := by
    simpa using slice?_append (front ++ [opening]) inner (closing :: after)
      (front.length + 1) (front.length + 1 + inner.length) (by simp) (by simp)
  have hafter : drop? (front ++ opening :: (inner ++ closing :: after))
      (front.length + 1 + inner.length + 1) = some after := by
    simpa using drop?_append (front ++ opening :: (inner ++ [closing])) after
      (front.length + 1 + inner.length + 1) (by simp; omega)
  rw [expandGroupAt?, expandGroup, callee?, take?_append front _ rfl, hinner, hafter,
    beforeSpace?_append]
  have hsplit := List.takeWhile_append_dropWhile (p := Token.isSpace) (l := front.reverse)
  rw [Tokens.trimLeft]
  generalize front.reverse.takeWhile Token.isSpace = spaces at hsplit
  generalize front.reverse.dropWhile Token.isSpace = tail at hsplit ⊢
  cases tail with
  | nil => simp
  | cons name others =>
    -- In order, the tokens before the parenthesis are those before the name, the name and spaces.
    have hfront : front = others.reverse ++ name :: spaces.reverse := by
      simpa using (congrArg List.reverse hsplit).symm
    have hname : (front ++ opening :: (inner ++ closing :: after))[others.length]? = some name := by
      rw [hfront]
      simp
    have hothers : take? (front ++ opening :: (inner ++ closing :: after)) others.length =
        some others.reverse := by
      rw [hfront, List.append_assoc]
      exact take?_append _ _ (by simp)
    have hident := isIdentAt?_eq_some (hwords name (by simp [hfront]))
    simp only [Option.bind_eq_bind, Option.bind_some, hname, hident, hothers, substituteAt?_eq_some]
    cases name.isIdent with
    | false => simp
    | true => rfl

/-- A step of expansion meets no position out of range. -/
theorem expandAt?_eq_some {lookup : Lookup} {ts : List Token}
    (hwords : ∀ t ∈ ts, t.isWord = true → t.text ≠ []) :
    expandAt? lookup ts = some (expandOnce lookup ts) := by
  -- The cases are those of the positions found: no parenthesis, one without an end, a whole group.
  rcases Tokens.forall_or_exists_last [Byte.openParen] ts with
    hopen | ⟨front, opening, back, rfl, hopening, hback⟩
  · rw [expandAt?, lastIndex?_eq_none hopen]
    exact expandNameAt?_eq_some hwords hopen
  have hstart : (front ++ [opening]).length = front.length + 1 := by simp
  have hassoc (tail : List Token) : front ++ opening :: tail = (front ++ [opening]) ++ tail := by
    simp
  rw [expandAt?, lastIndex?_append hopening hback]
  rcases Tokens.forall_or_exists_first [Byte.closeParen] back with
    hclose | ⟨inner, closing, after, rfl, hclosing, hinner⟩
  · rw [expandOnce_of_unclosed hopening hback hclose]
    simp only [hassoc back, indexFrom?_eq_none hstart hclose]
  · have hindex : Tokens.indexFrom? [Byte.closeParen] (front.length + 1)
        (front ++ opening :: (inner ++ closing :: after)) =
          some (front.length + 1 + inner.length) := by
      rw [hassoc, indexFrom?_append hstart hinner hclosing, hstart]
    rw [expandOnce_of_closed hopening hclosing hback hinner]
    simp only [hindex]
    exact expandGroupAt?_eq_some fun t ht => hwords t (List.mem_append_left _ ht)

/-! ## Reduction meets no position out of range -/

theorem getElem?_append_zero (front : List Token) (t : Token) (rest : List Token) :
    (front ++ t :: rest)[front.length]? = some t := by
  simp

theorem getElem?_append_one (front : List Token) (t u : Token) (rest : List Token) :
    (front ++ t :: u :: rest)[front.length + 1]? = some u := by
  simp

/-- Passing a token moves what is found after it one position on. -/
theorem map_before_cons (x : Token) (found : Option Redex) (i : Nat) :
    (found.map (Redex.cons x)).map (fun r => i + r.before.length) =
      found.map fun r => i + 1 + r.before.length := by
  cases found with
  | none => rfl
  | some r =>
    simp only [Option.map_some, Redex.cons, List.length_cons, Option.some.injEq]
    omega

theorem negationFrom?_append (front ts : List Token) :
    negationFrom? (front ++ ts) front.length =
      some ((negation? ts).map fun r => front.length + r.before.length) := by
  fun_induction negation? ts generalizing front with
  | case1 sign x rest hsign =>
    rw [negationFrom?, if_pos (by simp), getElem?_append_zero, getElem?_append_one]
    simp only [Option.bind_eq_bind, Option.bind_some]
    rw [if_pos hsign]
    rfl
  | case2 sign x rest hsign ih =>
    have hnext := ih (front ++ [sign])
    simp only [List.append_assoc, List.singleton_append, List.length_append,
      List.length_singleton] at hnext
    rw [negationFrom?, if_pos (by simp), getElem?_append_zero, getElem?_append_one]
    simp only [Option.bind_eq_bind, Option.bind_some]
    rw [if_neg hsign, hnext, map_before_cons]
  | case3 ts hshort =>
    have hlen : ¬ front.length + 1 < (front ++ ts).length := by
      rcases ts with _ | ⟨sign, _ | ⟨x, rest⟩⟩
      · simp
      · simp
      · exact absurd rfl (hshort sign x rest)
    rw [negationFrom?, if_neg hlen]
    rfl

theorem operatorFrom?_append (op : BinaryOp) (front : List Token) (x : Token) (ts : List Token) :
    operatorFrom? op (front ++ x :: ts) (front.length + 1) =
      some ((application? op (x :: ts)).map fun r => front.length + 1 + r.before.length) := by
  induction ts generalizing front x with
  | nil =>
    rw [operatorFrom?, if_neg (by simp)]
    rfl
  | cons sign ts ih =>
    cases ts with
    | nil =>
      rw [operatorFrom?, if_neg (by simp)]
      rfl
    | cons y rest =>
      have hnext := ih (front ++ [x]) sign
      simp only [List.append_assoc, List.singleton_append, List.length_append,
        List.length_singleton] at hnext
      have hlen : front.length + 1 + 1 < (front ++ x :: sign :: y :: rest).length := by
        simp only [List.length_append, List.length_cons]
        omega
      have hx : previous? (front ++ x :: sign :: y :: rest) (front.length + 1) = some x :=
        getElem?_append_zero front x _
      have hy : (front ++ x :: sign :: y :: rest)[front.length + 1 + 1]? = some y := by
        simpa using getElem?_append_one (front ++ [x]) sign y rest
      rw [operatorFrom?, if_pos hlen, getElem?_append_one, hy, application?]
      simp only [Option.bind_eq_bind, Option.bind_some, hx]
      by_cases hsign : (sign.is op.symbol && y.isWord) = true
      · rw [if_pos hsign, hsign, Bool.true_and]
        by_cases hword : x.isWord = true
        · rw [if_pos hword, if_pos hword]
          rfl
        · -- No operand stands before the operator, so the search goes on one place further.
          rw [if_neg hword, if_neg hword, hnext, map_before_cons]
      · rw [Bool.not_eq_true] at hsign
        rw [hsign, Bool.false_and, if_neg Bool.false_ne_true, if_neg Bool.false_ne_true, hnext,
          map_before_cons]

theorem operatorStepAt?_eq_some (ts : List Token) (ops : List BinaryOp) :
    operatorStepAt? ts ops =
      some (match ops.findSome? fun op => application? op ts with
        | none => .ok none
        | some r => r.operation.value.map fun n => some (r.before ++ resultToken n :: r.after)) := by
  induction ops with
  | nil => rfl
  | cons op ops ih =>
    have hfound : operatorFrom? op ts 1 =
        some ((application? op ts).map fun r => 1 + r.before.length) := by
      cases ts with
      | nil =>
        rw [operatorFrom?, if_neg (by simp)]
        rfl
      | cons x ts => simpa using operatorFrom?_append op [] x ts
    rw [operatorStepAt?, hfound, List.findSome?_cons]
    cases happ : application? op ts with
    | none => exact ih
    | some r =>
      -- The operator is one past the tokens before its left operand.
      obtain ⟨x, sign, y, rfl, hoperation, -⟩ := application?_eq_some happ
      have hx : previous? (r.before ++ x :: sign :: y :: r.after) (1 + r.before.length) =
          some x := by
        rw [Nat.add_comm]
        exact getElem?_append_zero r.before x _
      have hy : (r.before ++ x :: sign :: y :: r.after)[1 + r.before.length + 1]? = some y := by
        rw [Nat.add_comm 1]
        simpa using getElem?_append_one (r.before ++ [x]) sign y r.after
      have hbefore : take? (r.before ++ x :: sign :: y :: r.after) (1 + r.before.length - 1) =
          some r.before := take?_append _ _ (by omega)
      have hafter : drop? (r.before ++ x :: sign :: y :: r.after) (1 + r.before.length + 2) =
          some r.after := by
        simpa using drop?_append (r.before ++ [x, sign, y]) r.after _ (by simp; omega)
      simp only [Option.map_some, Option.bind_eq_bind, Option.bind_some, hx, hy, hbefore, hafter,
        hoperation]
      rfl

/-- A step of reduction meets no position out of range. -/
theorem stepAt?_eq_some (ts : List Token) : stepAt? ts = some (step ts) := by
  have hfound : negationFrom? ts 0 = some ((negation? ts).map fun r => r.before.length) := by
    simpa using negationFrom?_append [] ts
  rw [stepAt?, step, redex?, hfound]
  cases hneg : negation? ts with
  | none =>
    rw [Option.none_or]
    exact operatorStepAt?_eq_some ts BinaryOp.all
  | some r =>
    obtain ⟨sign, x, rfl, hoperation, -⟩ := negation?_eq_some hneg
    have hx : (r.before ++ sign :: x :: r.after)[r.before.length + 1]? = some x :=
      getElem?_append_one r.before sign x r.after
    have hafter : drop? (r.before ++ sign :: x :: r.after) (r.before.length + 2) =
        some r.after := by
      simpa using drop?_append (r.before ++ [sign, x]) r.after _ (by simp)
    simp only [Option.map_some, Option.bind_eq_bind, Option.bind_some, hx, take?_append r.before _ rfl,
      hafter, Option.some_or, hoperation]
    rfl

end HeaderMacros.Condition
