import Nsh.Input.Frame

/-!
# Classes of input

What a unit of the input means to the lexer depends on the quoting it is read in.
-/

namespace Nsh.Parser

open Nsh.Input

inductive SyntaxClass where
  | word
  | newline
  | backslash
  | singleQuote
  | doubleQuote
  | endQuote
  | backquote
  | variable
  | endVariable
  | control
  | wordSeparator
  | endOfInput
deriving DecidableEq, Repr

/-- The quoting a unit is classified in. -/
inductive SyntaxContext where
  | base
  | doubleQuoted
  | singleQuoted
deriving DecidableEq, Repr

/-- The bytes that quotes keep from meaning anything later. -/
def controlBytes : Bytes :=
  [chr '!', chr '*', chr '-', chr '/', chr ':', chr '=', chr '?', chr '[', chr ']', chr '^',
    chr '~']

/-- The bytes that end a word outside quotes. -/
def separators : Bytes :=
  [chr ' ', chr '\t', chr '&', chr ';', chr '<', chr '>', chr '|', chr '(', chr ')']

/-- `SyntaxContext::classify`. -/
def classify : SyntaxContext → InputUnit → SyntaxClass
  | _, .endOfInput => .endOfInput
  | .base, .byte byte =>
    if byte = 0x0a then .newline
    else if byte = chr '\\' then .backslash
    else if byte = 0x27 then .singleQuote
    else if byte = chr '"' then .doubleQuote
    else if byte = 0x60 then .backquote
    else if byte = chr '$' then .variable
    else if byte = 0x7d then .endVariable
    else if byte ∈ separators then .wordSeparator
    else .word
  | .doubleQuoted, .byte byte =>
    if byte = 0x0a then .newline
    else if byte = chr '\\' then .backslash
    else if byte = chr '"' then .endQuote
    else if byte = 0x60 then .backquote
    else if byte = chr '$' then .variable
    else if byte = 0x7d then .endVariable
    else if byte ∈ controlBytes then .control
    else .word
  | .singleQuoted, .byte byte =>
    if byte = 0x0a then .newline
    else if byte = 0x27 then .endQuote
    else if byte ∈ controlBytes ∨ byte = chr '\\' then .control
    else .word

/-- What ends a here-document, and whether the tabs its lines begin with are taken away. -/
structure DelimitedDocument where
  delimiter : Bytes
  stripTabs : Bool
deriving DecidableEq, Repr

/-- A here-document whose body is still to be read; it is expanded unless its delimiter was
quoted. -/
structure PendingHereDocument extends DelimitedDocument where
  expand : Bool
deriving DecidableEq, Repr

end Nsh.Parser
