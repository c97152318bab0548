import Nsh.Lib.Failing
import Nsh.Parser.Syntax
import Nsh.Parser.Words
import Nsh.Shell.Error

/-!
# Reading tokens

The grammar asks the reader for the next token.  A token may be pushed back; a word that
is not quoted is a reserved word where the grammar says that reserved words are
recognised.  Words are read here as far as they are made of ordinary bytes: what quotes,
expansions, redirections, aliases and here-documents become is the surroundings' matter.
-/

namespace Nsh.Parser

open Nsh.Input

inductive TokenKind where
  | eof
  | blank
  | newline
  | semicolon
  | background
  | andIf
  | orIf
  | pipe
  | leftParen
  | rightParen
  | endCase
  | fallThrough
  | redirection
  | word
  | bang
  | caseWord
  | doWord
  | doneWord
  | elifWord
  | elseWord
  | esacWord
  | fiWord
  | forWord
  | ifWord
  | inWord
  | selectWord
  | thenWord
  | timeWord
  | untilWord
  | whileWord
  | leftBrace
  | rightBrace
  | doubleParen
deriving DecidableEq, Repr

def TokenKind.endsList : TokenKind → Bool
  | .eof | .rightParen | .endCase | .fallThrough | .doWord | .doneWord | .elifWord | .elseWord
  | .esacWord | .fiWord | .thenWord | .rightBrace => true
  | _ => false

def TokenKind.canBeCasePattern : TokenKind → Bool
  | .word | .bang | .caseWord | .doWord | .doneWord | .elifWord | .elseWord | .esacWord | .fiWord
  | .forWord | .ifWord | .inWord | .thenWord | .untilWord | .whileWord | .leftBrace | .rightBrace
  | .doubleParen => true
  | _ => false

/-- `RESERVED_WORDS`. -/
def reservedWords : List (Bytes × TokenKind) :=
  [(text "!", .bang),
    (text "case", .caseWord),
    (text "do", .doWord),
    (text "done", .doneWord),
    (text "elif", .elifWord),
    (text "else", .elseWord),
    (text "esac", .esacWord),
    (text "fi", .fiWord),
    (text "for", .forWord),
    (text "if", .ifWord),
    (text "in", .inWord),
    (text "select", .selectWord),
    (text "then", .thenWord),
    (text "time", .timeWord),
    (text "until", .untilWord),
    (text "while", .whileWord),
    (text "\x7b", .leftBrace),
    (text "\x7d", .rightBrace)]

/-- `reserved_word`: the table is sorted and has each word once, so the binary search of the
    source finds what a search from the front does. -/
def reservedWord (s : Bytes) (dialect : Dialect) : Option TokenKind :=
  (reservedWords.lookup s).filter fun kind => kind ≠ .selectWord ∨ dialect = .bash

structure TokenContext where
  aliases : Bool
  reservedWords : Bool
  skipNewlines : Bool
  assignmentPosition : Bool
deriving DecidableEq, Repr

/-- `TokenContext::NONE`. -/
def TokenContext.plain : TokenContext := ⟨false, false, false, false⟩

/-- `TokenContext::COMMAND_START_AFTER_NEWLINES`. -/
def TokenContext.commandStartAfterNewlines : TokenContext := ⟨true, true, true, true⟩

/-- `TokenContext::RESERVED_WORDS_AFTER_NEWLINES`. -/
def TokenContext.reservedWordsAfterNewlines : TokenContext := ⟨false, true, true, false⟩

structure Token where
  kind : TokenKind
  quoted : Bool
deriving DecidableEq, Repr

/-- What the parser keeps between two tokens, and the rest of the shell. -/
structure ParserState (σ : Type) where
  frame : InputFrame
  tokenPushedBack : Bool
  lastToken : TokenKind
  lastTokenQuoted : Bool
  word : ParsedWord
  pendingHereDocuments : List PendingHereDocument
  shell : σ

inductive ParseError where
  | expected (kind : Option TokenKind) (found : TokenKind)
  | stalled
  | other (message : Bytes)
deriving DecidableEq, Repr

abbrev Parse (σ : Type) := Failing (ParserState σ) ParseError

/-- What stands around the reader: the dialects, whether an extended pattern may open, and
    what becomes of a word from a byte on that is not ordinary (`special`), of `<` and `>`
    behind digits or braces (`redirection`) and behind `&` (`outputRedirection`), of the
    documents that are pending at a newline, of a word that may be an alias, and of a list
    from its first command on. -/
structure Surroundings (σ Node : Type) where
  dialect : Dialect
  parseDialect : Dialect
  extGlob : Bool
  special : List WordToken → InputUnit → Parse σ Token
  redirection : List WordToken → InputUnit → Parse σ (Option Token)
  outputRedirection : Parse σ Token
  hereDocuments : Parse σ Unit
  expandAlias : Token → Parse σ Token
  commands : Parse σ (Option Node)

/-! ### Units -/

section

variable {σ Node : Type}

def readUnit : Parse σ InputUnit := fun st =>
  .ok ((readInputUnit st.frame).1, { st with frame := (readInputUnit st.frame).2 })

def unreadUnit : Parse σ Unit := fun st =>
  .ok ((), { st with frame := unreadInputUnit st.frame })

/-- `read_unit_skipping_line_continuations`. -/
def readUnitSkippingLineContinuations : Nat → Parse σ InputUnit
  | 0 => throw .stalled
  | fuel + 1 => do
    let input ← readUnit
    if input = .byte (chr '\\') then
      let next ← readUnit
      if next = .byte 0x0a then readUnitSkippingLineContinuations fuel
      else do
        unreadUnit
        pure input
    else pure input

/-- The unit behind the one that was read last. -/
def peekUnit (fuel : Nat) : Parse σ InputUnit := do
  let next ← readUnitSkippingLineContinuations fuel
  unreadUnit
  pure next

/-! ### Words -/

variable (s : Surroundings σ Node)

/-- The unit may open a process substitution or a group of an extended pattern. -/
def mayOpenGroup (input : InputUnit) : Bool :=
  s.parseDialect = .bash &&
    (input = .byte (chr '<') || input = .byte (chr '>') ||
      (s.extGlob && ((text "?*+@!").any fun byte => input = .byte byte)))

/-- The unit behind one that may open a group. -/
def lookAhead (fuel : Nat) (input : InputUnit) : Parse σ InputUnit :=
  if mayOpenGroup s input then peekUnit fuel else pure .endOfInput

/-- What stands in front of `<` or `>` may belong to the redirection. -/
def mayBePrefix (output : List WordToken) : Bool :=
  output.all (fun | .literal byte => isAsciiDigit byte | .inert _ => false) ||
    (s.parseDialect = .bash && output.head? = some (.literal (chr '{')))

/-- The end of `finish_word_token`. -/
def endWord (output : List WordToken) : Parse σ Token := do
  unreadUnit
  modify fun st =>
    { st with
      lastToken := .word
      lastTokenQuoted := false
      word := .fromTokens output }
  pure ⟨.word, false⟩

def finishWordToken (output : List WordToken) (input : InputUnit) : Parse σ Token :=
  if (input = .byte (chr '<') || input = .byte (chr '>')) && mayBePrefix s output then do
    match ← s.redirection output input with
    | some token => pure token
    | none => endWord output
  else endWord output

/-- The loop of `read_word_token`, outside quotes and expansions. -/
def readWordToken (subscripts : Bool) : Nat → List WordToken → InputUnit → Parse σ Token
  | 0, _, _ => throw .stalled
  | fuel + 1, output, input => do
    let next ← lookAhead s (fuel + 1) input
    if next = .byte (chr '(') then s.special output input
    else
      match classify .base input, input with
      | .word, .byte byte =>
        if subscripts && s.parseDialect = .bash && (byte = chr '[' || byte = chr ']') then
          s.special output input
        else do
          let input ← readUnitSkippingLineContinuations (fuel + 1)
          readWordToken subscripts fuel (output ++ [.literal byte]) input
      | .endVariable, .byte byte => do
        let input ← readUnitSkippingLineContinuations (fuel + 1)
        readWordToken subscripts fuel (output ++ [.literal byte]) input
      | .newline, _ | .endOfInput, _ | .wordSeparator, _ => finishWordToken s output input
      | _, _ => s.special output input

/-! ### Tokens -/

def operatorToken (kind : TokenKind) : Parse σ Token := do
  modify fun st => { st with lastToken := kind, lastTokenQuoted := false }
  pure ⟨kind, false⟩

/-- A comment up to the end of its line. -/
def skipComment : Nat → Parse σ Unit
  | 0 => throw .stalled
  | fuel + 1 => do
    let input ← readUnit
    if input = .byte 0x0a ∨ input = .endOfInput then unreadUnit
    else skipComment fuel

/-- The operator that a byte begins, where `next` is the unit behind it. -/
def longOperator (byte : UInt8) (next : InputUnit) : Option TokenKind :=
  if byte = chr '&' ∧ next = .byte (chr '&') then some .andIf
  else if byte = chr '|' ∧ next = .byte (chr '|') then some .orIf
  else if byte = chr ';' ∧ next = .byte (chr ';') then some .endCase
  else if byte = chr ';' ∧ next = .byte (chr '&') then some .fallThrough
  else if byte = chr '(' ∧ next = .byte (chr '(') then some .doubleParen
  else none

def shortOperator (byte : UInt8) : Option TokenKind :=
  if byte = chr '&' then some .background
  else if byte = chr '|' then some .pipe
  else if byte = chr ';' then some .semicolon
  else if byte = chr '(' then some .leftParen
  else if byte = chr ')' then some .rightParen
  else none

/-- An operator that may be two bytes long. -/
def readOperator (fuel : Nat) (byte : UInt8) (short : TokenKind) : Parse σ Token := do
  let next ← readUnitSkippingLineContinuations fuel
  match longOperator byte next with
  | some kind => operatorToken kind
  | none =>
    if byte = chr '&' ∧ next = .byte (chr '>') ∧ s.parseDialect = .bash then s.outputRedirection
    else do
      unreadUnit
      operatorToken short

/-- The loop of `read_next_token`. -/
def findToken (context : TokenContext) : Nat → Parse σ Token
  | 0 => throw .stalled
  | fuel + 1 => do
    let input ← readUnitSkippingLineContinuations (fuel + 1)
    match input with
    | .endOfInput => operatorToken .eof
    | .byte byte =>
      if byte = chr ' ' ∨ byte = 0x09 then findToken context fuel
      else if byte = chr '#' then do
        skipComment (fuel + 1)
        findToken context fuel
      else if byte = 0x0a then operatorToken .newline
      else
        match shortOperator byte with
        | some short =>
          -- a `)` is one byte, and outside Bash so is a `(`
          if byte = chr ')' ∨ (byte = chr '(' ∧ s.parseDialect ≠ .bash) then operatorToken short
          else readOperator s (fuel + 1) byte short
        | none => do
          let token ← readWordToken s context.assignmentPosition (fuel + 1) [] input
          if token.kind = .blank then findToken context fuel else pure token

def readNextToken (context : TokenContext) (fuel : Nat) : Parse σ Token := fun st =>
  if st.tokenPushedBack then
    .ok (⟨st.lastToken, st.lastTokenQuoted⟩, { st with tokenPushedBack := false })
  else findToken s context fuel st

def parseHereDocuments : Parse σ Unit := fun st =>
  if st.pendingHereDocuments = [] then .ok ((), st) else s.hereDocuments st

/-- The newlines in front of a token. -/
def skipNewlines (context : TokenContext) : Nat → Token → Parse σ Token
  | 0, _ => throw .stalled
  | fuel + 1, token =>
    if context.skipNewlines ∧ token.kind = .newline then do
      parseHereDocuments s
      let token ← readNextToken s context (fuel + 1)
      skipNewlines context fuel token
    else pure token

/-- What the grammar takes a word for. -/
def recognize (context : TokenContext) (token : Token) : Parse σ Token := fun st =>
  if token.kind ≠ .word ∨ token.quoted then .ok (token, st)
  else
    match (if context.reservedWords then reservedWord st.word.spelling s.dialect else none) with
    | some kind => .ok ({ token with kind }, { st with lastToken := kind })
    | none => if context.aliases then s.expandAlias token st else .ok (token, st)

def readToken (context : TokenContext) (fuel : Nat) : Parse σ Token := do
  let token ← readNextToken s context fuel
  let token ← skipNewlines s context fuel token
  recognize s context token

end

end Nsh.Parser
