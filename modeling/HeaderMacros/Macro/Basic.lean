import HeaderMacros.Fault
import HeaderMacros.Token.Lexer

/-!
# Macros

A macro has a name, a replacement, and, if it is function-like, a list of parameters. A macro
declared with empty parentheses is function-like without parameters. An empty replacement and no
replacement are the same.

`Macro.ofTokens` reads the parameters of a definition directive, `Macro.ofOption` a definition from
a command line, and `Macro.record` writes the serialized form.
-/

namespace HeaderMacros

/-- The marker of a variadic macro. -/
def ellipsis : Text := ascii "..."

/-- A macro. -/
structure Macro where
  /-- The name. -/
  name : Text
  /-- The parameters of a function-like macro; an object-like macro has none. -/
  params : Option (List Text)
  /-- The replacement. -/
  value : List Token
  deriving DecidableEq, Repr

namespace Macro

/-- Whether a macro takes arguments. -/
def isFunctionLike (m : Macro) : Bool := m.params.isSome

/-- Whether the last parameter of a macro is the variadic marker. -/
def isVariadic (m : Macro) : Bool := (m.params.getD []).getLast? == some ellipsis

/-- The serialized form of a macro: name, parameters with commas between them, and replacement,
with tabs between the three. -/
def record (m : Macro) : Text :=
  m.name ++ Byte.tab :: Text.join [Byte.comma] (m.params.getD []) ++
    Byte.tab :: Tokens.text m.value

/-- The name of the parameter that a group of tokens between commas is: one word, or the variadic
marker. -/
def parameter? (group : List Token) : Option Text :=
  match Tokens.trim group with
  | [t] => if t.isWord || t.is ellipsis then some t.text else none
  | _ => none

/-- The names of a parameter list, given the tokens between its parentheses. -/
def parameters (list : List Token) : Except Cause (List Text) :=
  if Tokens.trim list = [] then .ok []
  else
    match (Tokens.splitOnCommas list).mapM parameter? with
    | some names => .ok names
    | none => .error (.malformed .badParameters (Tokens.text list))

/-- The macro that the parameters of a definition directive define. A parameter list follows the
name at once; anything else, white space included, starts the replacement. -/
def ofTokens (params : List Token) : Except Cause Macro :=
  match params with
  | [] => .error (.malformed .badDefine [])
  | name :: rest =>
    if name.isWord then
      match rest with
      | [] => .ok ⟨name.text, none, []⟩
      | next :: list =>
        if next.is [Byte.openParen] then
          match Tokens.splitFirst? [Byte.closeParen] list with
          | none => .error (.malformed .unclosedParameters (Tokens.text params))
          | some (inner, value) =>
            (parameters inner).map fun names => ⟨name.text, some names, Tokens.trim value⟩
        else .ok ⟨name.text, none, Tokens.trim rest⟩
    else .error (.malformed .badDefine (Tokens.text params))

/-- The macro that a command line option `NAME=VALUE` defines; `NAME` alone is defined as `1`. -/
def ofOption (option : Text) : Except Cause Macro :=
  let parts := (Text.cut? [Byte.equals] option).getD (option, ascii "1")
  match Token.tokenize parts.1 with
  | [name] =>
    if name.isIdent then .ok ⟨parts.1, none, Tokens.trim (Token.tokenize parts.2)⟩
    else .error (.malformed .invalidName (Tokens.text [name]))
  | tokens => .error (.malformed .invalidName (Tokens.text tokens))

end Macro

end HeaderMacros
