import HeaderMacros.Macro.Table

/-!
# Invoking a macro

An invocation gives a function-like macro groups of tokens as arguments. Each parameter name in the
replacement gives way to its argument, all at once: tokens that came from an argument are not
looked at again. Arguments past the parameters of a variadic macro are dropped.
-/

namespace HeaderMacros.Condition

/-- Whether a macro with the given parameters accepts the given groups of tokens as arguments. -/
def checkArguments (name : Text) (m : Macro) (params : List Text) (argTokens : List Token)
    (args : List (List Token)) : Except Cause Unit :=
  if params = [] then
    if args.length = 1 ∧ Tokens.trim argTokens = [] then .ok ()
    else .error (.malformed (.unexpectedArguments name) (Tokens.text argTokens))
  else if m.isVariadic then
    if params.length - 1 ≤ args.length then .ok ()
    else
      .error (.malformed (.tooFewArguments name (params.length - 1) args.length)
        (Tokens.text argTokens))
  else if args.length = params.length then .ok ()
  else
    .error (.malformed (.argumentCount name params.length args.length) (Tokens.text argTokens))

/-- The position of the first parameter with the given name; the variadic marker is none. -/
def parameterIndex? (params : List Text) (name : Text) : Option Nat :=
  params.findIdx? fun p => p == name && p != ellipsis

/-- A token of a replacement with the arguments put in. -/
def substituteToken (params : List Text) (args : List (List Token)) (t : Token) : List Token :=
  match parameterIndex? params t.text with
  | some i => (args[i]?).getD []
  | none => [t]

/-- The replacement of an invocation of the macro `m` under the name `name`, where the tokens
between the parentheses of the invocation have no parenthesis among them. -/
def substitute (name : Text) (m : Macro) (argTokens : List Token) : Except Cause (List Token) :=
  match m.params with
  | none => .error (.malformed (.notFunctionLike name) (Tokens.text argTokens))
  | some params => do
    let args := Tokens.splitOnCommas argTokens
    checkArguments name m params argTokens args
    if m.value.any fun t => t.is ellipsis then
      .error (.malformed (.variadicMarker name) (Tokens.text m.value))
    else .ok (m.value.flatMap (substituteToken params args))

end HeaderMacros.Condition
