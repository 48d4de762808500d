import HeaderMacros.Include.Basic
import HeaderMacros.Search.Failure
import HeaderMacros.Text.Quoted

/-!
# Faults

What can be wrong with the headers of a run. A *cause* says what is wrong: the source cannot be
parsed, a condition has no value, an included file cannot be had, or includes are nested too
deeply. A *fault* is a cause together with the place where it was found.

The wording of every cause is fixed here and nowhere else.
-/

namespace HeaderMacros

/-- A place in a file: the start of one of its lines. -/
structure Position where
  /-- The name of the file; it may be empty. -/
  file : Text
  /-- The number of the line, counted from one. -/
  line : Nat
  deriving DecidableEq, Repr

/-- A position in words. An unnamed file is left out, and an unknown position is `0:0`. -/
def Position.message : Option Position → Text
  | none => ascii "0:0"
  | some p =>
    (if p.file = [] then [] else p.file ++ ascii ":") ++ Text.ofNat p.line ++ ascii ":1"

/-- What makes source text malformed. -/
inductive Defect where
  /-- A block comment is never closed. -/
  | unterminatedComment
  /-- A conditional group is never closed. -/
  | unterminatedGroup
  /-- An include names no file. -/
  | badInclude
  /-- A definition names no macro. -/
  | badDefine
  /-- A parameter list is never closed. -/
  | unclosedParameters
  /-- A parameter list holds something other than words. -/
  | badParameters
  /-- An undefinition does not name one macro. -/
  | badUndef
  /-- A test for a macro does not name one. -/
  | missingName (directive : Text)
  /-- A further condition outside every group. -/
  | elifOutside
  /-- An alternative outside every group. -/
  | elseOutside
  /-- The end of a group outside every group. -/
  | endifOutside
  /-- A predefined macro has no proper name. -/
  | invalidName
  /-- A condition is not expanded within the allowed number of steps. -/
  | recursiveInvocation
  /-- A parenthesis in a condition is never closed. -/
  | unmatchedParenthesis
  /-- The operator `defined` is not followed by a name. -/
  | definedWithoutName
  /-- Something is invoked that takes no arguments at all. -/
  | notFunctionLike (name : Text)
  /-- A macro without parameters is given arguments. -/
  | unexpectedArguments (name : Text)
  /-- A variadic macro is given too few arguments. -/
  | tooFewArguments (name : Text) (wanted given : Nat)
  /-- A macro is given a wrong number of arguments. -/
  | argumentCount (name : Text) (wanted given : Nat)
  /-- The body of an invoked macro has the variadic marker in it. -/
  | variadicMarker (name : Text)
  deriving DecidableEq, Repr

/-- The wording of a defect. -/
def Defect.message : Defect → Text
  | .unterminatedComment => ascii "unterminated comment"
  | .unterminatedGroup => ascii "unterminated conditional directive"
  | .badInclude => ascii "bad #include syntax"
  | .badDefine => ascii "bad #define"
  | .unclosedParameters => ascii "missing ')' in macro parameter list"
  | .badParameters => ascii "bad macro parameter list"
  | .badUndef => ascii "bad #undef"
  | .missingName directive => ascii "#" ++ directive ++ ascii " without macro name"
  | .elifOutside => ascii "#elif without #if"
  | .elseOutside => ascii "#else without #if"
  | .endifOutside => ascii "#endif without #if"
  | .invalidName => ascii "invalid macro name"
  | .recursiveInvocation => ascii "recursive macro invocation"
  | .unmatchedParenthesis => ascii "unmatched '('"
  | .definedWithoutName => ascii "operator \"defined\" requires an identifier"
  | .notFunctionLike name => name ++ ascii " is not a function-like macro"
  | .unexpectedArguments name => ascii "macro " ++ name ++ ascii " takes no arguments"
  | .tooFewArguments name wanted given =>
    ascii "macro " ++ name ++ ascii " requires at least " ++ Text.ofNat wanted ++
      ascii " arguments, got " ++ Text.ofNat given
  | .argumentCount name wanted given =>
    ascii "macro " ++ name ++ ascii " requires " ++ Text.ofNat wanted ++
      ascii " arguments, got " ++ Text.ofNat given
  | .variadicMarker name => ascii "variadic marker in body of macro " ++ name

/-- Why an expression has no value. -/
inductive ValueDefect where
  /-- No operator applies and more than one token is left. -/
  | irreducible
  /-- There is no token at all. -/
  | empty
  /-- A token that should be a number is none. -/
  | invalidInteger
  deriving DecidableEq, Repr

/-- The wording of the lack of a value. -/
def ValueDefect.message : ValueDefect → Text
  | .irreducible => ascii "cannot reduce expression"
  | .empty => ascii "empty expression"
  | .invalidInteger => ascii "invalid integer literal"

/-- What ended a run. -/
inductive Cause where
  /-- The source is malformed, near the given text. -/
  | malformed (defect : Defect) (near : Text)
  /-- The given expression has no value. -/
  | valueless (defect : ValueDefect) (expression : Text)
  /-- The text behind an include could not be had. -/
  | unresolved (request : Include) (failure : SearchFailure)
  /-- Includes are nested more deeply than was allowed for. -/
  | nestedTooDeeply
  deriving DecidableEq, Repr

/-- The wording of a cause at a position. The text near a defect is left out if it is empty; an
expression without a value is always shown. -/
def Cause.message (position : Option Position) (cause : Cause) : Text :=
  Position.message position ++ ascii ": " ++
    match cause with
    | .malformed defect near =>
      defect.message ++ if near = [] then [] else ascii ": " ++ Text.quote near
    | .valueless defect expression => defect.message ++ ascii ": " ++ Text.quote expression
    | .unresolved request failure =>
      ascii "include " ++ request.spelling ++ ascii ": " ++ failure.message
    | .nestedTooDeeply => ascii "includes nested too deeply"

/-- A cause and the place where it was found. -/
structure Fault where
  /-- Where it was found. -/
  position : Position
  /-- What it is. -/
  cause : Cause
  deriving DecidableEq, Repr

/-- The wording of a fault. -/
def Fault.message (f : Fault) : Text := f.cause.message (some f.position)

end HeaderMacros
