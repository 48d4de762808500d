import HeaderMacros.Text.Basic

/-!
# Failures of the settings notation

Why a text is no document of the settings notation (a subset of YAML 1.1 with the scalars of
YAML 1.2), and the wording of each reason.
-/

namespace HeaderMacros.Yaml

/-- Why a text is no document. -/
inductive Problem where
  /-- The bytes are no characters. -/
  | encoding
  /-- The text ends inside a character. -/
  | incompleteCharacter
  /-- A control character occurs. -/
  | controlCharacter
  /-- No token starts with a character. -/
  | noToken
  /-- An entry of a block sequence stands where none can be. -/
  | entryContext
  /-- A mapping key stands where none can be. -/
  | keyContext
  /-- A mapping value stands where none can be. -/
  | valueContext
  /-- A key has no colon after it. -/
  | missingColon
  /-- Collections are nested too deeply. -/
  | depth
  /-- An anchor or alias has no proper name. -/
  | anchorName
  /-- A tag has no text. -/
  | tagText
  /-- A verbatim tag is not closed. -/
  | tagClose
  /-- A tag is not followed by white space. -/
  | tagEnd
  /-- A percent escape in a tag is malformed. -/
  | tagEscape
  /-- Percent escapes in a tag start with a byte that starts no character. -/
  | tagLeadingOctet
  /-- Percent escapes in a tag go on with a byte that does not continue a character. -/
  | tagTrailingOctet
  /-- A tag handle is not declared. -/
  | tagHandle
  /-- A directive has no name. -/
  | directiveName
  /-- The name of a directive is not followed by white space. -/
  | directiveNameEnd
  /-- A directive is unknown. -/
  | unknownDirective
  /-- A version has no number where it should. -/
  | versionNumber
  /-- A number of a version is too long. -/
  | versionLength
  /-- The numbers of a version are not separated. -/
  | versionPoint
  /-- A tag directive has no proper handle. -/
  | handleMark
  /-- The handle of a tag directive is not followed by white space. -/
  | handleEnd
  /-- The version of a document is not supported. -/
  | version
  /-- The version of a document is given twice. -/
  | repeatedVersion
  /-- A tag handle is declared twice. -/
  | repeatedHandle
  /-- Something other than a comment follows on a line. -/
  | lineEnd
  /-- The indentation of a block scalar is given as zero. -/
  | zeroIndent
  /-- A tab stands where indentation is expected. -/
  | tabIndent
  /-- A tab stands in the indentation of a plain scalar. -/
  | tabInPlain
  /-- A document mark stands inside a quoted scalar. -/
  | markInQuotes
  /-- A quoted scalar is never closed. -/
  | endInQuotes
  /-- An escape is unknown. -/
  | unknownEscape
  /-- An escape has too few hexadecimal digits. -/
  | shortEscape
  /-- An escape gives no character. -/
  | badEscape
  /-- A document does not start where it should. -/
  | documentStart
  /-- A node has no content. -/
  | nodeContent
  /-- A block sequence goes on with something else. -/
  | sequenceEntry
  /-- A block mapping goes on with something else. -/
  | mappingKey
  /-- A flow sequence goes on with something else. -/
  | flowSequence
  /-- A flow mapping goes on with something else. -/
  | flowMapping
  /-- An alias names no anchor. -/
  | unknownAnchor (name : Text)
  /-- An anchored node contains itself. -/
  | selfContained (name : Text)
  /-- A scalar is not of the kind its tag says. -/
  | tagMismatch (found : Text) (value : Text) (wanted : Text)
  /-- Most of a document would come from aliases. -/
  | aliasing
  /-- A scalar tagged as binary is no base 64 text. -/
  | base64
  /-- A collection is used as a key. -/
  | collectionKey
  /-- Something other than mappings is merged. -/
  | mergeValue
  deriving DecidableEq, Repr

/-- The wording of a problem. -/
def Problem.message : Problem → Text
  | .encoding => ascii "invalid leading UTF-8 octet"
  | .incompleteCharacter => ascii "incomplete UTF-8 octet sequence"
  | .controlCharacter => ascii "control characters are not allowed"
  | .noToken => ascii "found character that cannot start any token"
  | .entryContext => ascii "block sequence entries are not allowed in this context"
  | .keyContext => ascii "mapping keys are not allowed in this context"
  | .valueContext => ascii "mapping values are not allowed in this context"
  | .missingColon => ascii "could not find expected ':'"
  | .depth => ascii "exceeded max depth of 10000"
  | .anchorName => ascii "did not find expected alphabetic or numeric character"
  | .tagText => ascii "did not find expected tag URI"
  | .tagClose => ascii "did not find the expected '>'"
  | .tagEnd => ascii "did not find expected whitespace or line break"
  | .tagEscape => ascii "did not find URI escaped octet"
  | .tagLeadingOctet => ascii "found an incorrect leading UTF-8 octet"
  | .tagTrailingOctet => ascii "found an incorrect trailing UTF-8 octet"
  | .tagHandle => ascii "found undefined tag handle"
  | .directiveName => ascii "could not find expected directive name"
  | .directiveNameEnd => ascii "found unexpected non-alphabetical character"
  | .unknownDirective => ascii "found unknown directive name"
  | .versionNumber => ascii "did not find expected version number"
  | .versionLength => ascii "found extremely long version number"
  | .versionPoint => ascii "did not find expected digit or '.' character"
  | .handleMark => ascii "did not find expected '!'"
  | .handleEnd => ascii "did not find expected whitespace"
  | .version => ascii "found incompatible YAML document"
  | .repeatedVersion => ascii "found duplicate %YAML directive"
  | .repeatedHandle => ascii "found duplicate %TAG directive"
  | .lineEnd => ascii "did not find expected comment or line break"
  | .zeroIndent => ascii "found an indentation indicator equal to 0"
  | .tabIndent => ascii "found a tab character where an indentation space is expected"
  | .tabInPlain => ascii "found a tab character that violates indentation"
  | .markInQuotes => ascii "found unexpected document indicator"
  | .endInQuotes => ascii "found unexpected end of stream"
  | .unknownEscape => ascii "found unknown escape character"
  | .shortEscape => ascii "did not find expected hexdecimal number"
  | .badEscape => ascii "found invalid Unicode character escape code"
  | .documentStart => ascii "did not find expected <document start>"
  | .nodeContent => ascii "did not find expected node content"
  | .sequenceEntry => ascii "did not find expected '-' indicator"
  | .mappingKey => ascii "did not find expected key"
  | .flowSequence => ascii "did not find expected ',' or ']'"
  | .flowMapping => ascii "did not find expected ',' or '\x7d'"
  | .unknownAnchor name => ascii "unknown anchor '" ++ name ++ ascii "' referenced"
  | .selfContained name => ascii "anchor '" ++ name ++ ascii "' value contains itself"
  | .tagMismatch found value wanted =>
    ascii "cannot decode " ++ found ++ ascii " `" ++ value ++ ascii "` as a " ++ wanted
  | .aliasing => ascii "document contains excessive aliasing"
  | .base64 => ascii "!!binary value contains invalid base64 data"
  | .collectionKey => ascii "invalid map key"
  | .mergeValue => ascii "map merge requires map or sequence of maps as the value"

/-- A problem and the line it is reported on, if it is reported on one. -/
structure Failure where
  /-- What is wrong. -/
  problem : Problem
  /-- The number of the line, zero for none. -/
  line : Nat
  deriving DecidableEq, Repr

/-- A failure while cutting tokens. It is reported on the line of its context, or else on its own
line; the first line of a text is not reported. -/
def Failure.cutting (problem : Problem) (context place : Nat) : Failure :=
  ⟨problem, if context ≠ 0 then context + 1 else if place ≠ 0 then place + 1 else 0⟩

/-- A failure while reading tokens. It is reported on the line before that of its context, or else
of its own line; the first line of a text is not reported. -/
def Failure.reading (problem : Problem) (context place : Nat) : Failure :=
  ⟨problem, if context ≠ 0 then context else place⟩

/-- The wording of a failure. -/
def Failure.message (f : Failure) : Text :=
  ascii "yaml: " ++
    (if f.line = 0 then [] else ascii "line " ++ Text.ofNat f.line ++ ascii ": ") ++
    f.problem.message

end HeaderMacros.Yaml
