import Nsh.Lib.Run
import Nsh.Shell.Number

/-!
# `test`

The builtin's words are read in two ways.  `run` looks at how many there are and strips
a leading `!` or a pair of parentheses of three or four; what is left goes to a
recursive-descent parser that answers as it reads.  What the shell, its locale and the
file system say of a word is a parameter.
-/

namespace Nsh.Test

open Nsh

inductive Token
  | endOfWords
  | fileReadable | fileWritable | fileExecutable | fileExists | fileRegular | fileDirectory
  | fileCharDevice | fileBlockDevice | fileFifo | fileSocket | fileSymlink | fileNonempty
  | fileTerminal | fileSetUid | fileSetGid | fileSticky | fileNewer | fileOlder | fileSame
  | fileOwnedByUser | fileOwnedByGroup
  | stringEmpty | stringNonempty | variableSet | referenceSet
  | stringEqual | stringNotEqual | stringLess | stringGreater
  | integerEqual | integerNotEqual | integerGreaterEqual | integerGreater
  | integerLessEqual | integerLess
  | not | and | or | leftParen | rightParen | operand
deriving DecidableEq, Repr

inductive OperatorKind
  | unary | binary | booleanUnary | booleanBinary | parenthesis
deriving DecidableEq, Repr

structure Operator where
  text : Bytes
  token : Token
  kind : OperatorKind
deriving DecidableEq, Repr

/-- `OPERATORS`. -/
def operators : List Operator :=
  [⟨text "-r", .fileReadable, .unary⟩, ⟨text "-w", .fileWritable, .unary⟩,
    ⟨text "-x", .fileExecutable, .unary⟩, ⟨text "-e", .fileExists, .unary⟩,
    ⟨text "-f", .fileRegular, .unary⟩, ⟨text "-d", .fileDirectory, .unary⟩,
    ⟨text "-c", .fileCharDevice, .unary⟩, ⟨text "-b", .fileBlockDevice, .unary⟩,
    ⟨text "-p", .fileFifo, .unary⟩, ⟨text "-u", .fileSetUid, .unary⟩,
    ⟨text "-g", .fileSetGid, .unary⟩, ⟨text "-k", .fileSticky, .unary⟩,
    ⟨text "-s", .fileNonempty, .unary⟩, ⟨text "-t", .fileTerminal, .unary⟩,
    ⟨text "-z", .stringEmpty, .unary⟩, ⟨text "-n", .stringNonempty, .unary⟩,
    ⟨text "-h", .fileSymlink, .unary⟩, ⟨text "-O", .fileOwnedByUser, .unary⟩,
    ⟨text "-G", .fileOwnedByGroup, .unary⟩, ⟨text "-L", .fileSymlink, .unary⟩,
    ⟨text "-S", .fileSocket, .unary⟩, ⟨text "=", .stringEqual, .binary⟩,
    ⟨text "!=", .stringNotEqual, .binary⟩, ⟨text "<", .stringLess, .binary⟩,
    ⟨text ">", .stringGreater, .binary⟩, ⟨text "-eq", .integerEqual, .binary⟩,
    ⟨text "-ne", .integerNotEqual, .binary⟩, ⟨text "-ge", .integerGreaterEqual, .binary⟩,
    ⟨text "-gt", .integerGreater, .binary⟩, ⟨text "-le", .integerLessEqual, .binary⟩,
    ⟨text "-lt", .integerLess, .binary⟩, ⟨text "-nt", .fileNewer, .binary⟩,
    ⟨text "-ot", .fileOlder, .binary⟩, ⟨text "-ef", .fileSame, .binary⟩,
    ⟨text "!", .not, .booleanUnary⟩, ⟨text "-a", .and, .booleanBinary⟩,
    ⟨text "-o", .or, .booleanBinary⟩, ⟨text "(", .leftParen, .parenthesis⟩,
    ⟨text ")", .rightParen, .parenthesis⟩]

/-- `BASH_OPERATORS`. -/
def bashOperators : List Operator :=
  [⟨text "-v", .variableSet, .unary⟩, ⟨text "-R", .referenceSet, .unary⟩]

/-- `operator`. -/
def operator (bash : Bool) (word : Bytes) : Option Operator :=
  match if bash then bashOperators.find? fun candidate => candidate.text == word else none with
  | some found => some found
  | none => operators.find? fun candidate => candidate.text == word

/-! ### Primaries -/

inductive AccessMode
  | read | write | exec
deriving DecidableEq, Repr

inductive FileKind
  | regular | directory | characterDevice | blockDevice | fifo | socket | symlink | other
deriving DecidableEq, Repr

structure FileMetadata where
  kind : FileKind
  mode : ℕ
  size : ℕ
  user : ℕ
  group : ℕ
  modifiedSeconds : ℤ
  modifiedNanoseconds : ℤ

/-- What the shell, the locale and the file system say. -/
structure Host where
  collate : Bytes → Bytes → Ordering
  /-- `variables::special::is_assigned` -/
  isAssigned : Bytes → Bool
  /-- `variables::nameref::is_reference` -/
  isReference : Bytes → Bool
  /-- Whether the descriptor of this number is open, and a terminal. -/
  isTerminal : ℤ → Bool
  effectiveAccess : Bytes → AccessMode → Bool
  /-- The metadata of a path, of the link itself or of what it leads to. -/
  pathMetadata : Bytes → Bool → Option FileMetadata
  pathIsSameFile : Bytes → Bytes → Bool
  effectiveUid : ℕ
  effectiveGid : ℕ

/-- `parse_operand_integer`; `none` for what is no number. -/
def parseOperandInteger (word : Bytes) : Option ℤ :=
  let trimmed :=
    ((word.dropWhile Number.isShellSpace).reverse.dropWhile Number.isShellSpace).reverse
  let (negative, digits) :=
    match trimmed with
    | sign :: rest =>
      if sign = chr '-' then (true, rest)
      else if sign = chr '+' then (false, rest)
      else (false, trimmed)
    | [] => (false, [])
  if digits.isEmpty || !digits.all isAsciiDigit then none
  else
    let limit := if negative then 2 ^ 63 else 2 ^ 63 - 1
    let magnitude := digits.foldl (fun magnitude digit =>
      min (Number.saturatingAdd (Number.saturatingMul magnitude 10)
        (digit.toNat - (chr '0').toNat)) limit) 0
    some (if negative then -(magnitude : ℤ) else magnitude)

/-- The integer a word spells, or the word that spells none. -/
def integer (word : Bytes) : Except Bytes ℤ :=
  match parseOperandInteger word with
  | some value => .ok value
  | none => .error word

section

variable (host : Host)

/-- `file_stat`. -/
def fileStat (word : Bytes) (token : Token) : Bool :=
  match host.pathMetadata word (token != .fileSymlink) with
  | none => false
  | some metadata =>
    match token with
    | .fileExists => true
    | .fileRegular => metadata.kind == .regular
    | .fileDirectory => metadata.kind == .directory
    | .fileCharDevice => metadata.kind == .characterDevice
    | .fileBlockDevice => metadata.kind == .blockDevice
    | .fileFifo => metadata.kind == .fifo
    | .fileSocket => metadata.kind == .socket
    | .fileSymlink => metadata.kind == .symlink
    | .fileSetUid => metadata.mode &&& 0o4000 != 0
    | .fileSetGid => metadata.mode &&& 0o2000 != 0
    | .fileSticky => metadata.mode &&& 0o1000 != 0
    | .fileNonempty => metadata.size != 0
    | .fileOwnedByUser => metadata.user == host.effectiveUid
    | .fileOwnedByGroup => metadata.group == host.effectiveGid
    | _ => true

/-- Whether the first was modified before the second. -/
def modifiedBefore (m m' : FileMetadata) : Bool :=
  decide (m.modifiedSeconds < m'.modifiedSeconds) ||
    (m.modifiedSeconds == m'.modifiedSeconds &&
      decide (m.modifiedNanoseconds < m'.modifiedNanoseconds))

def newer (left right : Bytes) : Bool :=
  match host.pathMetadata left true with
  | none => false
  | some left =>
    match host.pathMetadata right true with
    | none => true
    | some right => modifiedBefore right left

def older (left right : Bytes) : Bool :=
  match host.pathMetadata right true with
  | none => false
  | some right =>
    match host.pathMetadata left true with
    | none => true
    | some left => modifiedBefore left right

/-- `unary`; the only failure is a word that spells no integer. -/
def unary (token : Token) (operand : Bytes) : Except Bytes Bool :=
  match token with
  | .stringEmpty => .ok operand.isEmpty
  | .stringNonempty => .ok !operand.isEmpty
  | .variableSet => .ok (host.isAssigned operand)
  | .referenceSet => .ok (host.isReference operand)
  | .fileTerminal => (integer operand).map fun descriptor =>
      host.isTerminal (descriptor.bmod (2 ^ 32))
  | .fileReadable => .ok (host.effectiveAccess operand .read)
  | .fileWritable => .ok (host.effectiveAccess operand .write)
  | .fileExecutable => .ok (host.effectiveAccess operand .exec)
  | _ => .ok (fileStat host operand token)

def compareIntegers (holds : ℤ → ℤ → Bool) (left right : Bytes) : Except Bytes Bool :=
  (integer left).bind fun left => (integer right).map fun right => holds left right

/-- The comparison `binary` ends in. -/
def compare (token : Token) (left right : Bytes) : Except Bytes Bool :=
  match token with
  | .stringNotEqual => .ok (left != right)
  | .stringLess => .ok (host.collate left right == .lt)
  | .stringGreater => .ok (host.collate left right == .gt)
  | .integerEqual => compareIntegers (fun l r => l == r) left right
  | .integerNotEqual => compareIntegers (fun l r => l != r) left right
  | .integerGreaterEqual => compareIntegers (fun l r => decide (r ≤ l)) left right
  | .integerGreater => compareIntegers (fun l r => decide (r < l)) left right
  | .integerLessEqual => compareIntegers (fun l r => decide (l ≤ r)) left right
  | .integerLess => compareIntegers (fun l r => decide (l < r)) left right
  | .fileNewer => .ok (newer host left right)
  | .fileOlder => .ok (older host left right)
  | .fileSame => .ok (host.pathIsSameFile left right)
  | _ => .ok (left == right)

end

/-! ### The parser -/

/-- How `test` fails.  `panicked` is an `expect` that did not hold. -/
inductive Failure
  | illegalNumber (word : Bytes)
  | syntaxError (op : Option Bytes) (message : Bytes)
  | missingBracket
  | panicked
deriving DecidableEq, Repr

/-- The text of the error. -/
def Failure.message : Failure → Bytes
  | .illegalNumber word => text "Illegal number: " ++ word
  | .syntaxError none message => message
  | .syntaxError (some op) message => if op.isEmpty then message else op ++ text ": " ++ message
  | .missingBracket => text "missing ]"
  | .panicked => []

structure TestParser where
  words : List Bytes
  pos : ℕ
  lastOperator : Option Operator
  bash : Bool
deriving DecidableEq, Repr

namespace TestParser

def word (p : TestParser) (pos : ℕ) : Option Bytes := p.words[pos]?

def operatorAt (p : TestParser) (pos : ℕ) : Option Operator :=
  (p.word pos).bind (operator p.bash)

def isOperand (p : TestParser) (pos : ℕ) : Bool :=
  if (p.word (pos + 1)).isNone then true
  else if (p.word (pos + 2)).isNone then false
  else (p.operatorAt (pos + 1)).any fun op => op.kind == .binary

def lex (p : TestParser) (pos : ℕ) : Token × TestParser :=
  match p.word pos with
  | none => (.endOfWords, { p with lastOperator := none })
  | some word =>
    match operator p.bash word with
    | none => (.operand, { p with lastOperator := none })
    | some candidate =>
      if (candidate.kind == .unary && p.isOperand pos) ||
          (candidate.token == .leftParen && (p.word (pos + 1)).isNone) then
        (.operand, { p with lastOperator := none })
      else (candidate.token, { p with lastOperator := some candidate })

end TestParser

/-- An operation of the parser. -/
abbrev Parse (α : Type) : Type := Run TestParser Failure α

def lex (pos : ℕ) : Parse Token := fun p => .done (p.lex pos).1 (p.lex pos).2

def advance (count : ℕ) : Parse Unit := Run.modify fun p => { p with pos := p.pos + count }

/-- A primary's own answer. -/
def answer : Except Bytes Bool → Parse Bool
  | .ok value => pure value
  | .error word => Run.fail (.illegalNumber word)

/-- The end of a turn of the loops in `or_expr` and `and_expr`: the token the next
    turn starts with, where the connective follows. -/
def continues (connective : Token) : Parse (Option Token) := do
  let p ← Run.get
  if (p.word p.pos).isNone then pure none
  else do
    let token ← lex (p.pos + 1)
    if token ≠ connective then pure none
    else do
      advance 2
      let p ← Run.get
      let token ← lex p.pos
      pure (some token)

section

variable (host : Host)

/-- `binary`. -/
def binary : Parse Bool := do
  let p ← Run.get
  match p.word p.pos with
  | none => Run.fail .panicked
  | some left => do
    let _ ← lex (p.pos + 1)
    advance 1
    let p ← Run.get
    match p.lastOperator with
    | none => Run.fail .panicked
    | some op => do
      advance 1
      match p.word (p.pos + 1) with
      | none => Run.fail (.syntaxError (some op.text) (text "argument expected"))
      | some right => answer (compare host op.token left right)

/-- What `primary` does with a token that opens no parenthesis. -/
def plainPrimary (token : Token) : Parse Bool := do
  let p ← Run.get
  match p.lastOperator.filter fun op => op.kind == .unary with
  | some op => do
    advance 1
    match p.word (p.pos + 1) with
    | none => Run.fail (.syntaxError (some op.text) (text "argument expected"))
    | some operand => answer (unary host token operand)
  | none => do
    let _ ← lex (p.pos + 1)
    let q ← Run.get
    if (q.lastOperator.filter fun op => op.kind == .binary).isSome then binary host
    else pure ((q.word q.pos).any fun word => !word.isEmpty)

mutual

/-- `or_expr`, with the result of the turns so far. -/
def orExpr : ℕ → Bool → Token → Parse Bool
  | 0, _, _ => ⊥
  | fuel + 1, result, token => do
    let value ← andExpr fuel true token
    let following ← continues .or
    match following with
    | none => pure (result || value)
    | some token => orExpr fuel (result || value) token

/-- `and_expr`, with the result of the turns so far. -/
def andExpr : ℕ → Bool → Token → Parse Bool
  | 0, _, _ => ⊥
  | fuel + 1, result, token => do
    let value ← notExpr fuel token
    let following ← continues .and
    match following with
    | none => pure (result && value)
    | some token => andExpr fuel (result && value) token

/-- `not_expr`. -/
def notExpr : ℕ → Token → Parse Bool
  | 0, _ => ⊥
  | fuel + 1, token =>
    if token ≠ .not then primary fuel token
    else do
      let p ← Run.get
      let token ← lex (p.pos + 1)
      advance (if token = .endOfWords then 0 else 1)
      let value ← notExpr fuel token
      pure !value

/-- `primary`. -/
def primary : ℕ → Token → Parse Bool
  | 0, _ => ⊥
  | fuel + 1, token =>
    if token = .endOfWords then pure false
    else if token = .leftParen then do
      advance 1
      let p ← Run.get
      let nested ← lex p.pos
      if nested = .rightParen then pure false
      else do
        let result ← orExpr fuel false nested
        advance 1
        let p ← Run.get
        let closing ← lex p.pos
        if closing ≠ .rightParen then
          Run.fail (.syntaxError none (text "closing paren expected"))
        else pure result
    else plainPrimary host token

end

/-- As deep as the parser can come to stand above so many words. -/
def parserFuel (words : List Bytes) : ℕ := 4 * words.length + 4

/-- What `run` does once the words are those of an expression. -/
def parse (bash forced : Bool) (result : ℕ) (expression : List Bytes) : Outcome Unit Failure ℕ :=
  let p : TestParser := ⟨expression, 0, none, bash⟩
  let (first, p) := if forced then (.operand, p) else p.lex 0
  match orExpr host (parserFuel expression) false first p with
  | .done value p =>
    match p.word p.pos, p.word (p.pos + 1) with
    | some unexpected, some _ =>
      .failed (.syntaxError (some unexpected) (text "unexpected operator")) ()
    | _, _ => .done (result ^^^ (if value then 1 else 0)) ()
  | .failed error _ => .failed error ()
  | .unfinished => .unfinished

/-- Whether the middle one of three words is a binary operator. -/
def forcedOperand (bash : Bool) : List Bytes → Bool
  | [_, middle, _] => (operator bash middle).any fun op => op.kind == .binary
  | _ => false

/-- The loop of `run`, one turn for each `!` it strips. -/
def answerWords (bash : Bool) : ℕ → List Bytes → Outcome Unit Failure ℕ
  | result, [] => .done result ()
  | result, first :: rest =>
    let expression := first :: rest
    if forcedOperand bash expression then parse host bash true result expression
    else if expression.length = 3 ∨ expression.length = 4 then
      if first = text "(" ∧ rest.getLast? = some (text ")") then
        parse host bash false result rest.dropLast
      else if first = text "!" then answerWords bash 0 rest
      else parse host bash false result expression
    else parse host bash false result expression

/-- `run`: the status of `test` or `[`. -/
def run (bash : Bool) : List Bytes → Outcome Unit Failure ℕ
  | [] => .done 1 ()
  | command :: expression =>
    if command = text "[" then
      if (expression.getLast?.bind List.head?) = some (chr ']') then
        answerWords host bash 1 expression.dropLast
      else .failed .missingBracket ()
    else answerWords host bash 1 expression

end

end Nsh.Test
