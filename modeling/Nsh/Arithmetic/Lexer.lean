import Nsh.Shell.Locale
import Nsh.Shell.Number

/-!
# Arithmetic expression bytes, as tokens

The whole input is tokenised before the parser looks at any of it.  A lexer
state is what is left of the input, so scanning one token is a function from
that to the token and what is left behind it.  Everything the dialect decides
about spelling (`**`, `++`, `,`, `base#digits`, subscripts) is decided here.
-/

namespace Nsh.Arithmetic

inductive BinaryOperator where
  | lessEqual
  | greaterEqual
  | less
  | greater
  | equal
  | remainder
  | bitAnd
  | shiftLeft
  | shiftRight
  | multiply
  | add
  | bitOr
  | subtract
  | bitXor
  | divide
  | notEqual
  | power
deriving DecidableEq, Repr

namespace BinaryOperator

def precedence : BinaryOperator → Nat
  | .multiply | .divide | .remainder => 0
  | .add | .subtract => 1
  | .shiftLeft | .shiftRight => 2
  | .lessEqual | .greaterEqual | .less | .greater => 3
  | .equal | .notEqual => 4
  | .bitAnd => 5
  | .bitXor => 6
  | .bitOr => 7
  -- `**` has a level of its own and never reaches the climb.
  | .power => 0

def bindingPower (op : BinaryOperator) : Nat := 8 - op.precedence

theorem bindingPower_pos (op : BinaryOperator) : 1 ≤ op.bindingPower := by
  cases op <;> decide

theorem bindingPower_le (op : BinaryOperator) : op.bindingPower ≤ 8 := by
  cases op <;> decide

end BinaryOperator

/-- A name an expression can read or assign, with its subscript. -/
structure Name where
  base : Bytes
  subscript : Option Bytes
deriving DecidableEq, Repr

inductive Token where
  | eof
  | bad
  | number (value : Int64)
  | name (name : Name)
  | assign (op : Option BinaryOperator)
  | logicalOr
  | logicalAnd
  | not
  | bitNot
  | binary (op : BinaryOperator)
  | power
  | increment
  | decrement
  | comma
  | lParen
  | rParen
  | question
  | colon
deriving DecidableEq

/-! ### Literals -/

/-- Clamp to the range of an `i64`. -/
def saturate (x : Int) : Int64 := Int64.ofInt (max (-2 ^ 63) (min x (2 ^ 63 - 1)))

/-- `value.saturating_mul(base).saturating_add(digit)`. -/
def accumulate (base : Nat) (value : Int64) (digit : Nat) : Int64 :=
  saturate ((saturate (value.toInt * base)).toInt + digit)

/-- Read the digits below `base` that `digitOf` knows. -/
def readDigits (digitOf : UInt8 → Option Nat) (base : Nat) : Int64 → Bytes → Int64 × Bytes
  | value, [] => (value, [])
  | value, byte :: rest =>
    match digitOf byte with
    | none => (value, byte :: rest)
    | some digit =>
      if digit ≥ base then (value, byte :: rest)
      else readDigits digitOf base (accumulate base value digit) rest

/-- Digit values for `base#digits`, whose alphabet runs past base 36. -/
def radixDigit (b : UInt8) : Option Nat :=
  if chr '0' ≤ b ∧ b ≤ chr '9' then some (b.toNat - (chr '0').toNat)
  else if chr 'a' ≤ b ∧ b ≤ chr 'z' then some (b.toNat - (chr 'a').toNat + 10)
  else if chr 'A' ≤ b ∧ b ≤ chr 'Z' then some (b.toNat - (chr 'A').toNat + 36)
  else if b = chr '@' then some 62
  else if b = chr '_' then some 63
  else none

/-- Read `base#digits`, from the `#`. -/
def radixLiteral (base : Int64) (input : Bytes) : Token × Bytes :=
  if 2 ≤ base ∧ base ≤ 64 then
    let digits := input.drop 1
    let (value, rest) := readDigits radixDigit base.toInt.toNat 0 digits
    if rest.length = digits.length then (.bad, digits) else (.number value, rest)
  else (.bad, input)

/-- The base a literal announces, and the bytes its digits start at. -/
def literalBase (input : Bytes) : Nat × Bytes :=
  if input[0]? = some (chr '0') then
    if (input[1]? = some (chr 'x') ∨ input[1]? = some (chr 'X')) ∧
        Number.thirdDigitBelow 16 input then (16, input.drop 2)
    else if (input[1]? = some (chr 'b') ∨ input[1]? = some (chr 'B')) ∧
        Number.thirdDigitBelow 2 input then (2, input.drop 2)
    else (8, input)
  else (10, input)

def number (bash : Bool) (input : Bytes) : Token × Bytes :=
  let (base, digits) := literalBase input
  let (value, rest) := readDigits Number.digitValue base 0 digits
  if bash ∧ rest[0]? = some (chr '#') ∧ base = 10 then radixLiteral value rest
  else (.number value, rest)

/-! ### Names -/

/-- The bytes up to the bracket that closes `depth` open ones, and those behind
    it. -/
def closeBracket : Nat → Bytes → Option (Bytes × Bytes)
  | _, [] => none
  | depth, byte :: rest =>
    if byte = chr '[' then
      (closeBracket (depth + 1) rest).map fun split => (byte :: split.1, split.2)
    else if byte = chr ']' then
      if depth = 1 then some ([], rest)
      else (closeBracket (depth - 1) rest).map fun split => (byte :: split.1, split.2)
    else (closeBracket depth rest).map fun split => (byte :: split.1, split.2)

/-- Capture the bracketed subscript that follows a name, if any. -/
def subscript (input : Bytes) : Option Bytes × Bytes :=
  if input[0]? = some (chr '[') then
    match closeBracket 1 (input.drop 1) with
    | some (subscript, rest) => (some subscript, rest)
    | none => (none, input)
  else (none, input)

def nameTail (locale : Locale) (byte : UInt8) : Bool :=
  locale.isAlphanumeric byte || byte == chr '_'

def nameToken (locale : Locale) (bash : Bool) (first : UInt8) (rest : Bytes) : Token × Bytes :=
  let base := first :: rest.takeWhile (nameTail locale)
  let rest := rest.dropWhile (nameTail locale)
  if bash then
    let (subscript, rest) := subscript rest
    (.name { base := base, subscript := subscript }, rest)
  else (.name { base := base, subscript := none }, rest)

/-! ### Operators -/

/-- Take `byte` off the front, if it is there. -/
def takeIf (byte : UInt8) : Bytes → Option Bytes
  | [] => none
  | first :: rest => if first = byte then some rest else none

def binaryOrAssign (op : BinaryOperator) (rest : Bytes) : Token × Bytes :=
  match takeIf (chr '=') rest with
  | some rest => (.assign (some op), rest)
  | none => (.binary op, rest)

/-- `<` and `>`: the comparison, the shift and the shift's assignment. -/
def comparisonOrShift (byte : UInt8) (orEqual strict shift : BinaryOperator) (rest : Bytes) :
    Token × Bytes :=
  match takeIf (chr '=') rest with
  | some rest => (.binary orEqual, rest)
  | none =>
    match takeIf byte rest with
    | some rest => binaryOrAssign shift rest
    | none => (.binary strict, rest)

/-- `|` and `&`: the logical operator, the assignment and the bitwise one. -/
def logicalOrBitwise (byte : UInt8) (logical : Token) (op : BinaryOperator) (rest : Bytes) :
    Token × Bytes :=
  match takeIf byte rest with
  | some rest => (logical, rest)
  | none => binaryOrAssign op rest

/-- A byte that Bash doubles into one token of its own. -/
def doubled (bash : Bool) (byte : UInt8) (rest : Bytes) (both : Bytes → Token × Bytes)
    (op : BinaryOperator) : Token × Bytes :=
  match (if bash then takeIf byte rest else none) with
  | some rest => both rest
  | none => binaryOrAssign op rest

def powerToken (rest : Bytes) : Token × Bytes :=
  match takeIf (chr '=') rest with
  | some rest => (.assign (some .power), rest)
  | none => (.power, rest)

/-- The token an operator byte begins. -/
def operator (bash : Bool) (byte : UInt8) (rest : Bytes) : Token × Bytes :=
  if byte = chr '=' then
    match takeIf (chr '=') rest with
    | some rest => (.binary .equal, rest)
    | none => (.assign none, rest)
  else if byte = chr '>' then comparisonOrShift byte .greaterEqual .greater .shiftRight rest
  else if byte = chr '<' then comparisonOrShift byte .lessEqual .less .shiftLeft rest
  else if byte = chr '|' then logicalOrBitwise byte .logicalOr .bitOr rest
  else if byte = chr '&' then logicalOrBitwise byte .logicalAnd .bitAnd rest
  else if byte = chr '!' then
    match takeIf (chr '=') rest with
    | some rest => (.binary .notEqual, rest)
    | none => (.not, rest)
  else if byte = chr ',' ∧ bash then (.comma, rest)
  else if byte = chr '(' then (.lParen, rest)
  else if byte = chr ')' then (.rParen, rest)
  else if byte = chr '~' then (.bitNot, rest)
  else if byte = chr '?' then (.question, rest)
  else if byte = chr ':' then (.colon, rest)
  else if byte = chr '*' then doubled bash byte rest powerToken .multiply
  else if byte = chr '/' then binaryOrAssign .divide rest
  else if byte = chr '%' then binaryOrAssign .remainder rest
  else if byte = chr '+' then doubled bash byte rest (fun rest => (.increment, rest)) .add
  else if byte = chr '-' then doubled bash byte rest (fun rest => (.decrement, rest)) .subtract
  else if byte = chr '^' then binaryOrAssign .bitXor rest
  else (.bad, rest)

/-! ### The scan -/

/-- A blank between tokens; a double quote is one in the Bash dialect. -/
def isBlank (bash : Bool) (byte : UInt8) : Bool :=
  byte == chr ' ' || byte == 0x09 || byte == 0x0a || (bash && byte == 0x22)

/-- `Lexer::next`: one token, and what is left behind it. -/
def next (locale : Locale) (bash : Bool) (input : Bytes) : Token × Bytes :=
  match input.dropWhile (isBlank bash) with
  | [] => (.eof, [])
  | byte :: rest =>
    if isAsciiDigit byte then number bash (byte :: rest)
    else if isAsciiAlphabetic byte || byte == chr '_' then nameToken locale bash byte rest
    else operator bash byte rest

/-- The tokens of an input, ending with `eof`, when it has fewer than `fuel`. -/
def tokensFrom (locale : Locale) (bash : Bool) : Nat → Bytes → List Token
  | 0, _ => [.eof]
  | fuel + 1, input =>
    match next locale bash input with
    | (.eof, _) => [.eof]
    | (token, rest) => token :: tokensFrom locale bash fuel rest

/-- Every token takes a byte, so there are at most as many as bytes. -/
def tokens (locale : Locale) (bash : Bool) (input : Bytes) : List Token :=
  tokensFrom locale bash (input.length + 1) input

end Nsh.Arithmetic
