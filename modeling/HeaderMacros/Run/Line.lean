import HeaderMacros.Directive
import HeaderMacros.Run.State
import HeaderMacros.Text.Blank

/-!
# Reading a line

What one normalized line does to the state of a run. Directives that open, switch and close groups
are followed everywhere, all other lines only where no group skips them.

A line does everything it can by itself. An include needs the text of another file, so reading such
a line ends in a request for it.
-/

namespace HeaderMacros.RunState

/-- What a line comes to. -/
inductive Action where
  /-- The run goes on in the given state. -/
  | proceed (s : RunState)
  /-- A file is to be included. -/
  | enter (request : Include)

/-- Opens a group with a condition, which is looked at only where no group skips it. -/
def openGroup (s : RunState) (condition : List Token) : Except Cause RunState :=
  if s.groups.active then
    (s.evaluate condition).map fun v => { s with groups := s.groups.push v s.position }
  else .ok { s with groups := s.groups.push false s.position }

/-- Goes on to a branch with a condition. -/
def nextBranch (s : RunState) (condition : List Token) : Except Cause RunState :=
  match s.groups.elif with
  | .error cause => .error cause
  | .ok (.settled g) => .ok { s with groups := g }
  | .ok (.depends next) => (s.evaluate condition).map fun v => { s with groups := next v }

/-- The condition that the name in front of some tokens is defined. -/
def definedCondition (name : Token) : List Token := [Token.word "defined", Token.blank, name]

/-- The directives that open, switch or close a group. -/
inductive GroupDirective where
  /-- Tests whether a macro is defined. -/
  | ifdef
  /-- Tests whether a macro is not defined. -/
  | ifndef
  /-- Tests a condition. -/
  | opening
  /-- Tests a further condition. -/
  | elif
  /-- The alternative to all conditions. -/
  | otherwise
  /-- Ends a group. -/
  | endif
  deriving DecidableEq, Repr

/-- The group directive of a name. -/
def GroupDirective.ofName? (name : Text) : Option GroupDirective :=
  if name = ascii "ifdef" then some .ifdef
  else if name = ascii "ifndef" then some .ifndef
  else if name = ascii "if" then some .opening
  else if name = ascii "elif" then some .elif
  else if name = ascii "else" then some .otherwise
  else if name = ascii "endif" then some .endif
  else none

/-- Follows a directive that opens, switches or closes a group. -/
def followGroup (s : RunState) (d : GroupDirective) (params : List Token) :
    Except Cause RunState :=
  match d, params with
  | .ifdef, [] => .error (.malformed (.missingName (ascii "ifdef")) [])
  | .ifdef, name :: _ => s.openGroup (definedCondition name)
  | .ifndef, [] => .error (.malformed (.missingName (ascii "ifndef")) [])
  | .ifndef, name :: _ =>
    s.openGroup (Token.operator "!" :: Token.blank :: definedCondition name)
  | .opening, condition => s.openGroup condition
  | .elif, condition => s.nextBranch condition
  | .otherwise, _ => s.groups.orElse.map fun g => { s with groups := g }
  | .endif, _ => s.groups.pop.map fun g => { s with groups := g }

/-- The name that a removal of a macro names: its only parameter, a word. -/
def undefinedName (params : List Token) : Except Cause Text :=
  match params with
  | [name] =>
    if name.isWord then .ok name.text else .error (.malformed .badUndef (Tokens.text params))
  | _ => .error (.malformed .badUndef (Tokens.text params))

/-- Follows any other directive, in active text. A directive of an unknown name is noted and
otherwise ignored. -/
def followActive (s : RunState) (d : Directive) : Except Cause Action :=
  if d.name = ascii "define" then
    (Macro.ofTokens d.params).map fun m => .proceed { s with macros := s.macros.define m }
  else if d.name = ascii "undef" then
    (undefinedName d.params).map fun name =>
      .proceed { s with macros := s.macros.undefine name }
  else if d.name = ascii "include" then (Include.ofTokens d.params).map .enter
  else .ok (.proceed (s.note (ascii "ignoring #" ++ d.name)))

/-- Follows a directive. -/
def follow (s : RunState) (d : Directive) : Except Cause Action :=
  if d.name = [] then .ok (.proceed s)
  else
    match GroupDirective.ofName? d.name with
    | some g => (s.followGroup g d.params).map .proceed
    | none => if s.groups.active then s.followActive d else .ok (.proceed s)

/-- Keeps a line that is no directive, if no group skips it. -/
def keepCode (s : RunState) (ts : List Token) : RunState :=
  if s.groups.active then { s with code := s.code ++ (ts ++ [Token.lineEnd]) } else s

/-- Reads a line. A line of blank characters does nothing. -/
def readLine (s : RunState) (text : Text) : Except Cause Action :=
  if Text.isBlank text then .ok (.proceed s)
  else
    match Directive.ofTokens? (Token.tokenize text) with
    | some d => s.follow d
    | none => .ok (.proceed (s.keepCode (Token.tokenize text)))

end HeaderMacros.RunState
